/-
Pysubunit.Filter.CollapseTheorems — what a result sees through the two collapsing
decorators.

A result keeps its tags in `TagContext`s. Told all events at once or through a
`TagCollapsingDecorator`, it sees the same events in the same order; it has the
same tags at each of them unless a tag that it already has is added and removed by
one call and not mentioned again before the event: a `Reading` of the events keeps
track of these tags (`tagCollapsing_transparent_iff`). A
`TimeCollapsingDecorator` keeps the last time of every event, and of the times
between two events it passes on the first and the last (`timeCollapsing_gaps`).
-/
import Pysubunit.Filter.ResultTheorems

namespace Pysubunit.Filter

open ByteLib
open V1 (Whence DateTime)

variable {T E D : Type}

/-! ## The tags of a result -/

/-- The tags of the innermost context, and those of the contexts around it. -/
structure TagContext where
  current : Finset String := ∅
  parents : List (Finset String) := []
  deriving DecidableEq

namespace TagContext

variable (c : TagContext)

def changeTags (newTags goneTags : Finset String) : TagContext :=
  { c with current := (c.current ∪ newTags) \ goneTags }

/-- A test begins in a context of its own. -/
def push : TagContext := ⟨c.current, c.current :: c.parents⟩

/-- The context of the test is left. -/
def pop : TagContext :=
  match c.parents with
  | [] => c
  | parent :: parents => ⟨parent, parents⟩

/-- What an event does to the tags. -/
def event : Event T E D → TagContext
  | .call (.startTest _) => c.push
  | .call (.stopTest _) => c.pop
  | .call (.tags newTags goneTags) => c.changeTags newTags goneTags
  | _ => c

theorem changeTags_empty : c.changeTags ∅ ∅ = c := by
  simp [changeTags]

end TagContext

/-- A call of `tags`. -/
def Event.IsTags (event : Event T E D) : Prop := ∃ n g, event = .call (.tags n g)

instance : DecidablePred (Event.IsTags (T := T) (E := E) (D := D)) := fun event =>
  match event with
  | .call (.tags n g) => isTrue ⟨n, g, rfl⟩
  | .call (.startTest _) => isFalse (by simp [Event.IsTags])
  | .call (.outcome _ _) => isFalse (by simp [Event.IsTags])
  | .call (.stopTest _) => isFalse (by simp [Event.IsTags])
  | .call (.progress _ _) => isFalse (by simp [Event.IsTags])
  | .call (.time _) => isFalse (by simp [Event.IsTags])
  | .run _ => isFalse (by simp [Event.IsTags])

/-- All events but calls of `tags`, with the tags that the result has at them. -/
def tagging : Transducer TagContext (Event T E D) (Event T E D × Finset String) where
  step c event := (c.event event, if event.IsTags then [] else [(event, c.current)])

/-- Through a `TagCollapsingDecorator` a result sees the same events, in the same
order and with the same tags, and between two of them it is told of tags once. -/
def CollapseTransparent (c : TagContext) (events : List (Event T E D)) : Prop :=
  let sent := (tagCollapsing.run {} events).2
  (tagging.run c sent).2 = (tagging.run c events).2
    ∧ sent.IsChain fun first second => ¬ (first.IsTags ∧ second.IsTags)

/-! ## When tags are collapsed transparently -/

/-- What has become of the tags: the context that all calls lead to, the tags at
the event before, and the tags that a call has added and removed since then, if no
later call has done one of both. -/
structure Reading where
  context : TagContext
  base : Finset String
  bothWays : Finset String

namespace Reading

/-- The reading right behind an event. -/
def start (c : TagContext) : Reading := ⟨c, c.current, ∅⟩

variable (r : Reading)

def changeTags (newTags goneTags : Finset String) : Reading :=
  { r with
    context := r.context.changeTags newTags goneTags
    bothWays := (r.bothWays \ (newTags ∪ goneTags)) ∪ (newTags ∩ goneTags) }

def event : Event T E D → Reading
  | .call (.tags newTags goneTags) => r.changeTags newTags goneTags
  | event => start (r.context.event event)

end Reading

/-- The readings at all events but calls of `tags`. -/
def readings : Transducer Reading (Event T E D) Reading where
  step r event := (r.event event, if event.IsTags then [] else [r])

/-- The pair of the mixin, for a result with the tags `receiver`, makes up for what
it has not been told, but for the tags that went both ways. -/
structure Pends (m : TagsMixin) (receiver : TagContext) (r : Reading) : Prop where
  global : m.testTags = none
  base : receiver.current = r.base
  parents : receiver.parents = r.context.parents
  current : r.context.current = ((r.base ∪ m.globalTags.1) \ m.globalTags.2) \ r.bothWays
  new : Disjoint r.bothWays m.globalTags.1
  gone : Disjoint r.bothWays m.globalTags.2

theorem pends_start (c : TagContext) : Pends {} c (.start c) where
  global := rfl
  base := rfl
  parents := rfl
  current := by simp [Reading.start]
  new := by simp [Reading.start]
  gone := by simp [Reading.start]

/-- A call of `tags` is added to the pair. -/
theorem Pends.tags {m : TagsMixin} {receiver : TagContext} {r : Reading} (h : Pends m receiver r)
    (newTags goneTags : Finset String) :
    Pends (m.tags newTags goneTags) receiver (r.changeTags newTags goneTags) := by
  obtain ⟨hglobal, hbase, hparents, hcurrent, hnew, hgone⟩ := h
  obtain ⟨⟨new, gone⟩, t⟩ := m
  cases hglobal
  have htags : TagsMixin.tags ⟨(new, gone), none⟩ newTags goneTags
      = ⟨((new ∪ newTags) \ goneTags, (gone ∪ goneTags) \ newTags), none⟩ := rfl
  rw [Finset.disjoint_left] at hnew hgone
  rw [htags]
  constructor
  · rfl
  · exact hbase
  · exact hparents
  · ext tag
    have hnew' := @hnew tag
    have hgone' := @hgone tag
    simp only [Reading.changeTags, TagContext.changeTags, hcurrent, Finset.mem_sdiff,
      Finset.mem_union, Finset.mem_inter] at hnew' hgone' ⊢
    tauto
  · rw [Finset.disjoint_left]
    intro tag htag
    have hnew' := @hnew tag
    simp only [Reading.changeTags, Finset.mem_sdiff, Finset.mem_union, Finset.mem_inter]
      at hnew' htag ⊢
    tauto
  · rw [Finset.disjoint_left]
    intro tag htag
    have hgone' := @hgone tag
    simp only [Reading.changeTags, Finset.mem_sdiff, Finset.mem_union, Finset.mem_inter]
      at hgone' htag ⊢
    tauto

/-- The result once it has been told of the pair. -/
def TagContext.told (receiver : TagContext) (m : TagsMixin) : TagContext :=
  receiver.changeTags m.globalTags.1 m.globalTags.2

/-- It then has the tags of the context just if none that it had went both ways. -/
theorem Pends.told_iff {m : TagsMixin} {receiver : TagContext} {r : Reading}
    (h : Pends m receiver r) :
    (receiver.told m).current = r.context.current ↔ Disjoint r.bothWays r.base := by
  have hnew := Finset.disjoint_left.mp h.new
  have hgone := Finset.disjoint_left.mp h.gone
  rw [h.current, TagContext.told, TagContext.changeTags, h.base, eq_comm,
    Finset.sdiff_eq_self_iff_disjoint, disjoint_comm, Finset.disjoint_left, Finset.disjoint_left]
  apply forall_congr'
  intro tag
  have hnew' := @hnew tag
  have hgone' := @hgone tag
  simp only [Finset.mem_sdiff, Finset.mem_union]
  tauto

theorem Pends.told {m : TagsMixin} {receiver : TagContext} {r : Reading} (h : Pends m receiver r)
    (hdisjoint : Disjoint r.bothWays r.base) : receiver.told m = r.context := by
  have hcurrent := h.told_iff.mpr hdisjoint
  have hparents : (receiver.told m).parents = r.context.parents := h.parents
  cases hreceiver : receiver.told m
  cases hcontext : r.context
  rw [hreceiver, hcontext] at hcurrent hparents
  exact congrArg₂ TagContext.mk hcurrent hparents

/-- What a `TagCollapsingDecorator` makes of any other event: the tags first. -/
theorem tagCollapsing_other (m : TagsMixin) {event : Event T E D} (h : ¬ event.IsTags) :
    tagCollapsing.step m event
      = ((m.flushCurrentScope (T := T) (E := E) (D := D)).1,
          m.flushCurrentScope.2.map Event.call ++ [event]) := by
  cases event with
  | run event => rfl
  | call call =>
    have htags : ∀ n g, call ≠ .tags n g := by
      intro n g hcall
      subst hcall
      exact h ⟨n, g, rfl⟩
    have hstep : tagCollapsing.step m (.call call)
        = ((tagCollapsingDecorator.step m call).1,
            (tagCollapsingDecorator.step m call).2.map Event.call) := rfl
    rw [hstep, tagCollapsing_event m htags, List.map_append, List.map_singleton]

/-- The flush tells the result of the pair, in one call at most. -/
theorem tagging_flush (receiver : TagContext) {m : TagsMixin} (hm : m.testTags = none) :
    (m.flushCurrentScope (T := T) (E := E) (D := D)).1 = {}
    ∧ tagging.run receiver ((m.flushCurrentScope (T := T) (E := E) (D := D)).2.map Event.call)
        = (receiver.told m, []) := by
  obtain ⟨hreset, hcalls⟩ := @flushCurrentScope_cases T E D m hm
  rcases hcalls with hcalls | ⟨hempty, hcalls⟩
  · rw [hcalls]
    exact ⟨hreset, rfl⟩
  · rw [hcalls, TagContext.told, hempty, TagContext.changeTags_empty]
    exact ⟨hreset, rfl⟩

theorem tagging_other (c : TagContext) {event : Event T E D} (h : ¬ event.IsTags) :
    tagging.step c event = (c.event event, [(event, c.current)]) := by
  simp [tagging, h]

theorem readings_other (r : Reading) {event : Event T E D} (h : ¬ event.IsTags) :
    readings.step r event = (.start (r.context.event event), [r]) := by
  have hseen : readings.step r event = (r.event event, [r]) := by simp [readings, h]
  rw [hseen]
  cases event with
  | run event => rfl
  | call call =>
    cases call with
    | tags newTags goneTags => exact absurd ⟨newTags, goneTags, rfl⟩ h
    | startTest test => rfl
    | outcome outcome test => rfl
    | stopTest test => rfl
    | progress offset whence => rfl
    | time aTime => rfl

/-- From states in agreement on, the result sees what it should just if no tag that
it has goes both ways. -/
theorem tagging_tagCollapsing {m : TagsMixin} {receiver : TagContext} {r : Reading}
    (h : Pends m receiver r) (events : List (Event T E D)) :
    (tagging.run receiver (tagCollapsing.run m events).2).2 = (tagging.run r.context events).2
      ↔ ∀ reading ∈ (readings.run r events).2, Disjoint reading.bothWays reading.base := by
  induction events generalizing m receiver r with
  | nil => simp
  | cons event events ih =>
    rw [Transducer.run_cons, Transducer.run_cons, Transducer.run_cons, Transducer.run_append]
    by_cases htags : event.IsTags
    · obtain ⟨newTags, goneTags, rfl⟩ := htags
      exact ih (h.tags newTags goneTags)
    · obtain ⟨hempty, hflush⟩ := @tagging_flush T E D receiver m h.global
      rw [tagCollapsing_other m htags, Transducer.run_append, hflush, Transducer.run_singleton,
        hempty, tagging_other _ htags, tagging_other _ htags, readings_other r htags]
      simp only [List.nil_append, List.singleton_append, List.cons.injEq, Prod.mk.injEq, true_and,
        List.forall_mem_cons]
      rw [h.told_iff]
      apply and_congr_right
      intro hdisjoint
      rw [h.told hdisjoint]
      exact ih (pends_start (r.context.event event))

/-! ## At most one call of tags -/

/-- An answer ends with another event, before which at most one call of `tags`
stands. -/
theorem tagCollapsing_answer (m : TagsMixin) (event : Event T E D) :
    (tagCollapsing.step m event).2 = []
    ∨ ∃ told other, (tagCollapsing.step m event).2 = told ++ [other] ∧ told.length ≤ 1
        ∧ ¬ other.IsTags := by
  by_cases htags : event.IsTags
  · obtain ⟨newTags, goneTags, rfl⟩ := htags
    exact Or.inl rfl
  · right
    rw [tagCollapsing_other m htags]
    refine ⟨_, event, rfl, ?_, htags⟩
    rw [List.length_map, TagsMixin.flushCurrentScope]
    dsimp only
    split <;> simp

/-- No two calls of `tags` follow each other. -/
theorem tagCollapsing_isChain (m : TagsMixin) (events : List (Event T E D)) :
    (tagCollapsing.run m events).2.IsChain fun first second =>
      ¬ (first.IsTags ∧ second.IsTags) := by
  induction events generalizing m with
  | nil => simp
  | cons event events ih =>
    have hrest := ih (tagCollapsing.step m event).1
    rw [Transducer.run_cons]
    rcases tagCollapsing_answer m event with hanswer | ⟨told, other, hanswer, hlength, hother⟩
    · rw [hanswer]
      exact hrest
    · rw [hanswer, List.append_assoc, List.singleton_append]
      have hbehind : (other :: (tagCollapsing.run (tagCollapsing.step m event).1 events).2).IsChain
          fun first second => ¬ (first.IsTags ∧ second.IsTags) := by
        rw [List.isChain_cons]
        exact ⟨fun next _ hboth => hother hboth.1, hrest⟩
      cases told with
      | nil => exact hbehind
      | cons first told =>
        have hnil : told = [] := by
          rw [List.length_cons] at hlength
          exact List.length_eq_zero_iff.mp (by omega)
        rw [hnil, List.cons_append, List.nil_append, List.isChain_cons]
        refine ⟨?_, hbehind⟩
        intro next hnext hboth
        cases Option.some.inj hnext
        exact hother hboth.2

/-- **When tags are collapsed transparently.** At no event has the result a tag that
a call since the event before has added and removed, and no later call has
mentioned. -/
theorem tagCollapsing_transparent_iff (c : TagContext) (events : List (Event T E D)) :
    CollapseTransparent c events
      ↔ ∀ r ∈ (readings.run (.start c) events).2, Disjoint r.bothWays r.base := by
  rw [← tagging_tagCollapsing (pends_start c) events]
  exact and_iff_left (tagCollapsing_isChain {} events)

/-- A tag is set in a test, and then removed by a call that adds it too. -/
def bothWaysRun : List (Event Unit Unit Unit) :=
  [.call (.startTest ()), .call (.tags {"a"} ∅), .call (.progress none .push),
    .call (.tags {"a"} {"a"}), .call (.stopTest ())]

/-- Such a call is dropped. -/
theorem tagCollapsing_keeps_tag : ¬ CollapseTransparent {} bothWaysRun := by
  intro h
  have hseen := h.1
  revert hseen
  decide

/-! ## The clock of a result -/

/-- All events but times, with the last time that the result has been given. -/
def timing : Transducer (Option DateTime) (Event T E D) (Event T E D × Option DateTime) where
  step last event :=
    match event with
    | .call (.time aTime) => (some aTime, [])
    | event => (last, [(event, last)])

/-- A `TimeCollapsingDecorator` has a hook for the event, and it is no time. -/
def Event.IsHooked (event : Event T E D) : Prop :=
  ¬ event.IsTags ∧ ∀ aTime, event ≠ .call (.time aTime)

theorem timing_hooked (last : Option DateTime) {event : Event T E D} (h : event.IsHooked) :
    timing.step last event = (last, [(event, last)]) := by
  cases event with
  | run event => rfl
  | call call =>
    cases call with
    | time aTime => exact absurd rfl (h.2 aTime)
    | tags newTags goneTags => exact absurd ⟨newTags, goneTags, rfl⟩ h.1
    | startTest test => rfl
    | outcome outcome test => rfl
    | stopTest test => rfl
    | progress offset whence => rfl

/-- The hook comes before the event. -/
theorem timeCollapsing_hooked (s : Times) {event : Event T E D} (h : event.IsHooked) :
    timeCollapsing.step s event
      = ((s.beforeEvent (T := T) (E := E) (D := D)).1,
          s.beforeEvent.2.map Event.call ++ [event]) := by
  cases event with
  | run event => rfl
  | call call =>
    have htags : ∀ n g, call ≠ .tags n g := by
      intro n g hcall
      subst hcall
      exact h.1 ⟨n, g, rfl⟩
    have htime : ∀ t, call ≠ .time t := by
      intro t hcall
      subst hcall
      exact h.2 t rfl
    have hstep : timeCollapsing.step s (.call call)
        = ((timeCollapsingDecorator.step s call).1,
            (timeCollapsingDecorator.step s call).2.map Event.call) := rfl
    rw [hstep, timeCollapsing_event s htags htime, List.map_append, List.map_singleton]

/-- The hook brings the result up to date. -/
theorem timing_beforeEvent (s : Times) :
    timing.run s.lastSentTime
        ((s.beforeEvent (T := T) (E := E) (D := D)).2.map Event.call)
      = (s.received, []) := by
  obtain ⟨lastReceivedTime, lastSentTime⟩ := s
  cases lastReceivedTime with
  | none => rfl
  | some received =>
    by_cases hsent : some received = lastSentTime
    · subst hsent
      simp only [Times.beforeEvent, ne_eq, not_true_eq_false, if_false]
      rfl
    · simp only [Times.beforeEvent, ne_eq, hsent, not_false_eq_true, if_true]
      rfl

/-- At every event the result has been given the time that was received last. -/
theorem timeCollapsing_transparent :
    Transducer.Transparent (timeCollapsing (T := T) (E := E) (D := D)) timing timing
      (fun event => ¬ event.IsTags) (fun s r r' => r = s.lastSentTime ∧ r' = s.received) where
  step := by
    intro s r r' event hr htags
    obtain ⟨rfl, rfl⟩ := hr
    by_cases htime : ∃ aTime, event = .call (.time aTime)
    · obtain ⟨aTime, rfl⟩ := htime
      obtain ⟨lastReceivedTime, lastSentTime⟩ := s
      cases lastReceivedTime with
      | none => exact ⟨⟨rfl, rfl⟩, rfl⟩
      | some received => exact ⟨⟨rfl, rfl⟩, rfl⟩
    push Not at htime
    have hhooked : event.IsHooked := ⟨htags, htime⟩
    obtain ⟨hstate, -, -⟩ := @beforeEvent_eq T E D s
    rw [timeCollapsing_hooked s hhooked, Transducer.run_append, timing_beforeEvent, hstate,
      Transducer.run_singleton, timing_hooked _ hhooked]
    exact ⟨⟨rfl, rfl⟩, rfl⟩

/-! ## The times between two events -/

/-- An event with the times that are given since the event before. -/
structure Gap (T E D : Type) where
  times : List DateTime
  event : Event T E D

def timeCalls (times : List DateTime) : List (Event T E D) :=
  times.map fun aTime => .call (.time aTime)

def Gap.events (gap : Gap T E D) : List (Event T E D) := timeCalls gap.times ++ [gap.event]

/-- The first time and, if it differs from it, the last one. -/
def firstAndLast : List DateTime → List DateTime
  | [] => []
  | first :: times =>
    first :: if times.getLastD first ≠ first then [times.getLastD first] else []

/-- The gap with the times that are passed on. -/
def Gap.collapsed (gap : Gap T E D) : Gap T E D := { gap with times := firstAndLast gap.times }

/-- Events that are told without tags fall into gaps. -/
theorem exists_gaps (events : List (Event T E D)) (h : ∀ event ∈ events, ¬ event.IsTags) :
    ∃ (gaps : List (Gap T E D)) (times : List DateTime),
      (∀ gap ∈ gaps, gap.event.IsHooked)
      ∧ events = gaps.flatMap Gap.events ++ timeCalls times := by
  induction events with
  | nil => exact ⟨[], [], by simp, rfl⟩
  | cons event events ih =>
    obtain ⟨gaps, times, hgaps, hevents⟩ := ih fun e he => h e (List.mem_cons_of_mem event he)
    by_cases htime : ∃ aTime, event = .call (.time aTime)
    · obtain ⟨aTime, rfl⟩ := htime
      cases gaps with
      | nil => exact ⟨[], aTime :: times, by simp, by rw [hevents]; rfl⟩
      | cons gap gaps =>
        rw [List.forall_mem_cons] at hgaps
        refine ⟨⟨aTime :: gap.times, gap.event⟩ :: gaps, times, ?_, by rw [hevents]; rfl⟩
        rw [List.forall_mem_cons]
        exact hgaps
    push Not at htime
    have hhooked : event.IsHooked := ⟨h event List.mem_cons_self, htime⟩
    refine ⟨⟨[], event⟩ :: gaps, times, ?_, by rw [hevents]; rfl⟩
    rw [List.forall_mem_cons]
    exact ⟨hhooked, hgaps⟩

/-- Behind the first time of a gap, times are only remembered. -/
theorem timeCollapsing_remembers (received : DateTime) (sent : Option DateTime)
    (times : List DateTime) :
    timeCollapsing.run ⟨some received, sent⟩ (timeCalls (T := T) (E := E) (D := D) times)
      = (⟨some (times.getLastD received), sent⟩, []) := by
  induction times generalizing received with
  | nil => rfl
  | cons aTime times ih =>
    rw [timeCalls, List.map_cons, ← timeCalls, Transducer.run_cons]
    have hstep : timeCollapsing.step ⟨some received, sent⟩
        (.call (.time aTime) : Event T E D) = (⟨some aTime, sent⟩, []) := rfl
    rw [hstep, ih aTime, List.getLastD_cons]
    rfl

/-- The first time is passed on at once. -/
theorem timeCollapsing_first (sent : Option DateTime) (first : DateTime) (times : List DateTime) :
    timeCollapsing.run ⟨none, sent⟩ (timeCalls (T := T) (E := E) (D := D) (first :: times))
      = (⟨some (times.getLastD first), some first⟩, [.call (.time first)]) := by
  rw [timeCalls, List.map_cons, ← timeCalls, Transducer.run_cons]
  have hstep : timeCollapsing.step ⟨none, sent⟩ (.call (.time first) : Event T E D)
      = (⟨some first, some first⟩, [.call (.time first)]) := rfl
  rw [hstep, timeCollapsing_remembers]
  rfl

/-- Of the times of a gap the first and the last are passed on. -/
theorem timeCollapsing_gap (sent : Option DateTime) {gap : Gap T E D} (h : gap.event.IsHooked) :
    ∃ sent', timeCollapsing.run ⟨none, sent⟩ gap.events = (⟨none, sent'⟩, gap.collapsed.events) := by
  obtain ⟨times, event⟩ := gap
  rw [Gap.events, Transducer.run_append, Transducer.run_singleton]
  cases times with
  | nil =>
    refine ⟨sent, ?_⟩
    have hquiet : timeCollapsing.run ⟨none, sent⟩ (timeCalls (T := T) (E := E) (D := D) [])
        = (⟨none, sent⟩, []) := rfl
    rw [hquiet, timeCollapsing_hooked _ h]
    rfl
  | cons first times =>
    refine ⟨some (times.getLastD first), ?_⟩
    rw [timeCollapsing_first, timeCollapsing_hooked _ h, Gap.collapsed, firstAndLast]
    generalize times.getLastD first = last
    by_cases hlast : last = first
    · simp [Times.beforeEvent, Gap.events, timeCalls, hlast]
    · simp [Times.beforeEvent, Gap.events, timeCalls, hlast]

theorem timeCollapsing_gaps (sent : Option DateTime) {gaps : List (Gap T E D)}
    (h : ∀ gap ∈ gaps, gap.event.IsHooked) (times : List DateTime) :
    (timeCollapsing.run ⟨none, sent⟩ (gaps.flatMap Gap.events ++ timeCalls times)).2
      = (gaps.map Gap.collapsed).flatMap Gap.events ++ timeCalls (times.take 1) := by
  induction gaps generalizing sent with
  | nil =>
    cases times with
    | nil => rfl
    | cons first times =>
      rw [List.flatMap_nil, List.nil_append, timeCollapsing_first]
      rfl
  | cons gap gaps ih =>
    rw [List.forall_mem_cons] at h
    obtain ⟨sent', hgap⟩ := timeCollapsing_gap sent h.1
    rw [List.flatMap_cons, List.append_assoc, Transducer.run_append, hgap, ih sent' h.2,
      List.map_cons, List.flatMap_cons, List.append_assoc]

/-- **Times are collapsed, the clock is kept.** All other events are passed on in
order, the result has been given the last time at each of them; of the times of a
gap the first and, if it differs, the last are passed on. -/
theorem timeCollapsing_clock {events : List (Event T E D)}
    (h : ∀ event ∈ events, ¬ event.IsTags) :
    (timing.run none (timeCollapsing.run {} events).2).2 = (timing.run none events).2
    ∧ ∃ (gaps : List (Gap T E D)) (times : List DateTime),
        (∀ gap ∈ gaps, gap.event.IsHooked)
        ∧ events = gaps.flatMap Gap.events ++ timeCalls times
        ∧ (timeCollapsing.run {} events).2
            = (gaps.map Gap.collapsed).flatMap Gap.events ++ timeCalls (times.take 1) := by
  obtain ⟨gaps, times, hgaps, hevents⟩ := exists_gaps events h
  have hclock := @timeCollapsing_transparent T E D |>.run (s := {}) ⟨rfl, rfl⟩ h
  refine ⟨hclock.2, gaps, times, hgaps, hevents, ?_⟩
  rw [hevents]
  exact timeCollapsing_gaps none hgaps times

/-- Two seconds of a minute, and the first again. -/
def clockedRun : List (Event Unit Unit Unit) :=
  [.call (.time ⟨2012, 9, 9, 9, 9, 0, 0⟩), .call (.time ⟨2012, 9, 9, 9, 9, 1, 0⟩),
    .call (.startTest ()), .call (.time ⟨2012, 9, 9, 9, 9, 2, 0⟩),
    .call (.time ⟨2012, 9, 9, 9, 9, 3, 0⟩), .call (.time ⟨2012, 9, 9, 9, 9, 2, 0⟩),
    .run .stopTestRun]

theorem timeCollapsing_clock_run :
    (timing.run none (timeCollapsing.run {} clockedRun).2).2
      = [(.call (.startTest ()), some ⟨2012, 9, 9, 9, 9, 1, 0⟩),
          (.run .stopTestRun, some ⟨2012, 9, 9, 9, 9, 2, 0⟩)] :=
  (timeCollapsing_clock (by simp [clockedRun, Event.IsTags])).1.trans (by decide)

end Pysubunit.Filter
