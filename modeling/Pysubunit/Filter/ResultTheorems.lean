/-
Pysubunit.Filter.ResultTheorems — what a filter passes on.

A run is a list of `Item`s: notes and tests. `forwarded` says which calls a
`_PredicateFilter` makes of them (`run_predicateFilter`): notes between tests, the
times and progress of a test at once and, if the test is kept, the rest of it at
its end. The collapsing decorators are transparent for two observers: one that
follows the tags (`scoping`) and one that follows the time (`clocking`). What
these observers see of `forwarded` is then what they see of the result.
-/
import Mathlib.Tactic.Tauto
import Pysubunit.Filter.Result

namespace Pysubunit.Filter

open ByteLib
open V1 (Whence DateTime)

/-! ## Runs -/

/-- A call that may come anywhere. -/
inductive Note where
  | tags (newTags goneTags : Finset String)
  | progress (offset : Option Int) (whence : Whence)
  | time (time : DateTime)
  deriving DecidableEq

/-- A test with its notes before and behind the outcome. -/
structure OneTest (T E D : Type) where
  test : T
  before : List Note
  outcome : Outcome E D
  after : List Note
  deriving DecidableEq

inductive Item (T E D : Type) where
  | note (note : Note)
  | test (test : OneTest T E D)
  deriving DecidableEq

section Runs

variable {T E D κ : Type}

def Note.call : Note → Call T E D
  | .tags newTags goneTags => .tags newTags goneTags
  | .progress offset whence => .progress offset whence
  | .time aTime => .time aTime

/-- The calls of notes. -/
def noteCalls (notes : List Note) : List (Call T E D) := notes.map Note.call

/-- The calls of a test up to its outcome. -/
def OneTest.opening (t : OneTest T E D) : List (Call T E D) :=
  .startTest t.test :: noteCalls t.before

/-- The calls of a test from its outcome up to its end. -/
def OneTest.closing (t : OneTest T E D) : List (Call T E D) :=
  .outcome t.outcome t.test :: noteCalls t.after

def OneTest.calls (t : OneTest T E D) : List (Call T E D) :=
  t.opening ++ t.closing ++ [.stopTest t.test]

def Item.calls : Item T E D → List (Call T E D)
  | .note n => [n.call]
  | .test t => t.calls

/-- The calls of a run, which is well bracketed. -/
def runCalls (items : List (Item T E D)) : List (Call T E D) := items.flatMap Item.calls

/-- A test of a run, with what has become of something that the calls change by
the start of the test, by its outcome and by its end. -/
structure InContext (κ T E D : Type) where
  test : OneTest T E D
  started : κ
  reported : κ
  stopped : κ

/-- The tests of a run in their contexts. -/
def contexts (next : κ → Call T E D → κ) : κ → List (Item T E D) → List (InContext κ T E D)
  | _, [] => []
  | k, .note n :: items => contexts next (next k n.call) items
  | k, .test t :: items =>
    let reported := t.opening.foldl next k
    let stopped := t.closing.foldl next reported
    ⟨t, k, reported, stopped⟩ :: contexts next (next stopped (.stopTest t.test)) items

theorem contexts_test (next : κ → Call T E D → κ) (k : κ) (t : OneTest T E D)
    (items : List (Item T E D)) :
    contexts next k (.test t :: items)
      = ⟨t, k, t.opening.foldl next k, t.closing.foldl next (t.opening.foldl next k)⟩
        :: contexts next (t.calls.foldl next k) items := by
  rw [contexts, OneTest.calls, List.foldl_append, List.foldl_append, List.foldl_cons,
    List.foldl_nil]

/-- A test with its outcome as the filter takes it. -/
def Item.fixup (o : Options T E D) (id : T → String) : Item T E D → Item T E D
  | .note n => .note n
  | .test t => .test { t with outcome := o.fixup id t.outcome t.test }

/-! ## Tags and times of a run -/

/-- The tags outside a test and, in a test, those of the test. -/
structure Scope where
  global : Finset String := ∅
  test : Option (Finset String) := none

namespace Scope

variable (s : Scope)

/-- The tags that are active. -/
def current : Finset String := s.test.getD s.global

def tags (newTags goneTags : Finset String) : Scope :=
  match s.test with
  | some tags => { s with test := some ((tags ∪ newTags) \ goneTags) }
  | none => { s with global := (s.global ∪ newTags) \ goneTags }

/-- What a call does to the tags. -/
def call : Call T E D → Scope
  | .startTest _ => { s with test := some s.global }
  | .stopTest _ => { s with test := none }
  | .tags newTags goneTags => s.tags newTags goneTags
  | _ => s

end Scope

/-- Tests, and the tags that are active at their outcomes. -/
def scoping : Transducer Scope (Call T E D) (Call T E D × Option (Finset String)) where
  step s call :=
    (s.call call,
      match call with
      | .startTest _ => [(call, none)]
      | .outcome _ _ => [(call, some s.current)]
      | .stopTest _ => [(call, none)]
      | _ => [])

/-- The last time that was given. -/
def lastTime (last : Option DateTime) : Call T E D → Option DateTime
  | .time aTime => some aTime
  | _ => last

/-- Starts of tests and outcomes, with the last time that was given before. -/
def clocking : Transducer (Option DateTime) (Call T E D) (Call T E D × Option DateTime) where
  step last call :=
    (lastTime last call,
      match call with
      | .startTest _ => [(call, last)]
      | .outcome _ _ => [(call, last)]
      | _ => [])

/-! ## Transparency of the collapsing decorators -/

/-- How the collapsing decorators tell calls apart. -/
inductive Kind : Call T E D → Prop
  | tags (newTags goneTags : Finset String) : Kind (.tags newTags goneTags)
  | time (aTime : DateTime) : Kind (.time aTime)
  | event {call : Call T E D} (htags : ∀ n g, call ≠ .tags n g) (htime : ∀ t, call ≠ .time t) :
      Kind call

theorem Call.kind (call : Call T E D) : Kind call := by
  cases call with
  | tags newTags goneTags => exact .tags newTags goneTags
  | time aTime => exact .time aTime
  | startTest test => exact .event (by simp) (by simp)
  | outcome outcome test => exact .event (by simp) (by simp)
  | stopTest test => exact .event (by simp) (by simp)
  | progress offset whence => exact .event (by simp) (by simp)

/-- The time that a `TimeCollapsingDecorator` has been given last. -/
def Times.received (s : Times) : Option DateTime := s.lastReceivedTime.or s.lastSentTime

/-- The hook sends the time received last, unless it has been sent. -/
theorem beforeEvent_eq (s : Times) :
    (s.beforeEvent (T := T) (E := E) (D := D)).1 = ⟨none, s.received⟩
    ∧ clocking.run s.lastSentTime (s.beforeEvent (T := T) (E := E) (D := D)).2 = (s.received, [])
    ∧ ∀ r, scoping.run r (s.beforeEvent (T := T) (E := E) (D := D)).2 = (r, []) := by
  obtain ⟨lastReceivedTime, lastSentTime⟩ := s
  cases lastReceivedTime with
  | none => exact ⟨rfl, rfl, fun r => rfl⟩
  | some received =>
    by_cases hsent : some received = lastSentTime
    · subst hsent
      simp only [Times.beforeEvent, ne_eq, not_true_eq_false, if_false]
      exact ⟨rfl, rfl, fun r => rfl⟩
    · simp only [Times.beforeEvent, ne_eq, hsent, not_false_eq_true, if_true]
      exact ⟨rfl, rfl, fun r => rfl⟩

/-- The hook comes before every call but those of `tags` and `time`. -/
theorem timeCollapsing_event (s : Times) {call : Call T E D} (htags : ∀ n g, call ≠ .tags n g)
    (htime : ∀ t, call ≠ .time t) :
    timeCollapsingDecorator.step s call
      = ((s.beforeEvent (T := T) (E := E) (D := D)).1, s.beforeEvent.2 ++ [call]) := by
  cases call with
  | tags newTags goneTags => exact absurd rfl (htags _ _)
  | time aTime => exact absurd rfl (htime _)
  | startTest test => rfl
  | outcome outcome test => rfl
  | stopTest test => rfl
  | progress offset whence => rfl

theorem lastTime_event (last : Option DateTime) {call : Call T E D} (htime : ∀ t, call ≠ .time t) :
    lastTime last call = last := by
  cases call with
  | time aTime => exact absurd rfl (htime _)
  | tags newTags goneTags => rfl
  | startTest test => rfl
  | outcome outcome test => rfl
  | stopTest test => rfl
  | progress offset whence => rfl

theorem time_transparent_clocking :
    Transducer.Transparent (timeCollapsingDecorator (T := T) (E := E) (D := D)) clocking clocking
      (fun _ => True) (fun s r r' => r = s.lastSentTime ∧ r' = s.received) where
  step := by
    intro s r r' call hr _
    obtain ⟨rfl, rfl⟩ := hr
    cases call.kind with
    | tags newTags goneTags => exact ⟨⟨rfl, rfl⟩, rfl⟩
    | time aTime =>
      obtain ⟨lastReceivedTime, lastSentTime⟩ := s
      cases lastReceivedTime with
      | none => exact ⟨⟨rfl, rfl⟩, rfl⟩
      | some received => exact ⟨⟨rfl, rfl⟩, rfl⟩
    | event htags htime =>
      obtain ⟨hstate, hsent, -⟩ := @beforeEvent_eq T E D s
      rw [timeCollapsing_event s htags htime, Transducer.run_append, hsent, hstate,
        Transducer.run_singleton]
      exact ⟨⟨lastTime_event _ htime, lastTime_event _ htime⟩, rfl⟩

theorem time_transparent_scoping :
    Transducer.Transparent (timeCollapsingDecorator (T := T) (E := E) (D := D)) scoping scoping
      (fun _ => True) (fun _ r r' => r = r') where
  step := by
    intro s r r' call hr _
    subst hr
    cases call.kind with
    | tags newTags goneTags => exact ⟨rfl, rfl⟩
    | time aTime =>
      obtain ⟨lastReceivedTime, lastSentTime⟩ := s
      cases lastReceivedTime with
      | none => exact ⟨rfl, rfl⟩
      | some received => exact ⟨rfl, rfl⟩
    | event htags htime =>
      obtain ⟨-, -, hquiet⟩ := @beforeEvent_eq T E D s
      rw [timeCollapsing_event s htags htime, Transducer.run_append, hquiet,
        Transducer.run_singleton]
      exact ⟨rfl, rfl⟩

/-- The tags that a `TagCollapsingDecorator` keeps back are on their way. -/
def Scope.pending (r : Scope) (m : TagsMixin) : Scope := r.tags m.globalTags.1 m.globalTags.2

theorem Scope.tags_empty (r : Scope) : r.tags ∅ ∅ = r := by
  obtain ⟨g, t⟩ := r
  cases t <;> simp [Scope.tags]

/-- Two changes of the tags make one. -/
theorem Scope.tags_tags (r : Scope) {new gone newTags goneTags : Finset String}
    (h : Disjoint newTags goneTags) :
    (r.tags new gone).tags newTags goneTags
      = r.tags ((new ∪ newTags) \ goneTags) ((gone ∪ goneTags) \ newTags) := by
  have hsets : ∀ tags : Finset String, ((tags ∪ new) \ gone ∪ newTags) \ goneTags
      = (tags ∪ (new ∪ newTags) \ goneTags) \ ((gone ∪ goneTags) \ newTags) := by
    intro tags
    ext tag
    have hboth : ¬ (tag ∈ newTags ∧ tag ∈ goneTags) := fun hmem =>
      Finset.disjoint_left.mp h hmem.1 hmem.2
    simp only [Finset.mem_sdiff, Finset.mem_union]
    tauto
  obtain ⟨g, t⟩ := r
  cases t with
  | none => exact congrArg (Scope.mk · none) (hsets g)
  | some tags => exact congrArg (fun tags => Scope.mk g (some tags)) (hsets tags)

/-- The hook sends the tags, if there are any. -/
theorem flushCurrentScope_cases {m : TagsMixin} (hm : m.testTags = none) :
    (m.flushCurrentScope (T := T) (E := E) (D := D)).1 = {}
    ∧ ((m.flushCurrentScope (T := T) (E := E) (D := D)).2 = [.tags m.globalTags.1 m.globalTags.2]
      ∨ (m.globalTags = (∅, ∅) ∧ (m.flushCurrentScope (T := T) (E := E) (D := D)).2 = [])) := by
  obtain ⟨⟨new, gone⟩, t⟩ := m
  cases hm
  have hcalls : (TagsMixin.flushCurrentScope ⟨(new, gone), none⟩ (T := T) (E := E) (D := D)).2
      = if new ≠ ∅ ∨ gone ≠ ∅ then [.tags new gone] else [] := rfl
  rw [hcalls]
  by_cases hempty : new ≠ ∅ ∨ gone ≠ ∅
  · rw [if_pos hempty]
    exact ⟨rfl, .inl rfl⟩
  · rw [if_neg hempty]
    rw [not_or, not_not, not_not] at hempty
    exact ⟨rfl, .inr ⟨Prod.ext hempty.1 hempty.2, rfl⟩⟩

/-- What the hook sends has the tags, and no time. -/
theorem flush_eq (r : Scope) {m : TagsMixin} (hm : m.testTags = none) (last : Option DateTime) :
    (m.flushCurrentScope (T := T) (E := E) (D := D)).1 = {}
    ∧ scoping.run r (m.flushCurrentScope (T := T) (E := E) (D := D)).2 = (r.pending m, [])
    ∧ clocking.run last (m.flushCurrentScope (T := T) (E := E) (D := D)).2 = (last, []) := by
  obtain ⟨hreset, hcalls⟩ := @flushCurrentScope_cases T E D m hm
  rcases hcalls with hcalls | ⟨hempty, hcalls⟩
  · rw [hcalls]
    exact ⟨hreset, rfl, rfl⟩
  · rw [hcalls, Scope.pending, hempty, Scope.tags_empty]
    exact ⟨hreset, rfl, rfl⟩

/-- The hook comes before every call but that of `tags`. -/
theorem tagCollapsing_event (m : TagsMixin) {call : Call T E D} (htags : ∀ n g, call ≠ .tags n g) :
    tagCollapsingDecorator.step m call
      = ((m.flushCurrentScope (T := T) (E := E) (D := D)).1,
          m.flushCurrentScope.2 ++ [call]) := by
  cases call with
  | tags newTags goneTags => exact absurd rfl (htags _ _)
  | time aTime => rfl
  | startTest test => rfl
  | outcome outcome test => rfl
  | stopTest test => rfl
  | progress offset whence => rfl

/-- The call adds and removes no tag at once. -/
def TagsDisjoint : Call T E D → Prop
  | .tags newTags goneTags => Disjoint newTags goneTags
  | _ => True

theorem tag_transparent_scoping :
    Transducer.Transparent (tagCollapsingDecorator (T := T) (E := E) (D := D)) scoping scoping
      TagsDisjoint (fun m r r' => m.testTags = none ∧ r' = r.pending m) where
  step := by
    intro m r r' call hr hdisjoint
    obtain ⟨hm, rfl⟩ := hr
    by_cases htags : ∃ n g, call = .tags n g
    · obtain ⟨n, g, rfl⟩ := htags
      obtain ⟨⟨new, gone⟩, t⟩ := m
      cases hm
      exact ⟨⟨rfl, r.tags_tags hdisjoint⟩, rfl⟩
    push Not at htags
    obtain ⟨hempty, hflush, -⟩ := @flush_eq T E D r m hm none
    rw [tagCollapsing_event m htags, Transducer.run_append, hflush, hempty,
      Transducer.run_singleton]
    exact ⟨⟨rfl, (Scope.tags_empty _).symm⟩, rfl⟩

theorem tag_transparent_clocking :
    Transducer.Transparent (tagCollapsingDecorator (T := T) (E := E) (D := D)) clocking clocking
      (fun _ => True) (fun m r r' => m.testTags = none ∧ r = r') where
  step := by
    intro m last r' call hr _
    obtain ⟨hm, rfl⟩ := hr
    by_cases htags : ∃ n g, call = .tags n g
    · obtain ⟨n, g, rfl⟩ := htags
      obtain ⟨⟨new, gone⟩, t⟩ := m
      cases hm
      exact ⟨⟨rfl, rfl⟩, rfl⟩
    push Not at htags
    obtain ⟨hempty, -, hquiet⟩ := @flush_eq T E D {} m hm last
    rw [tagCollapsing_event m htags, Transducer.run_append, hquiet, hempty,
      Transducer.run_singleton]
    exact ⟨⟨rfl, rfl⟩, rfl⟩

/-! ## What a _PredicateFilter passes on -/

/-- What a call does to the tags that a `_PredicateFilter` keeps track of. -/
def TagsMixin.follow (m : TagsMixin) : Call T E D → TagsMixin
  | .startTest _ => m.startTest
  | .stopTest _ => m.stopTest
  | .tags newTags goneTags => m.tags newTags goneTags
  | _ => m

/-- The notes of a test that are kept back. -/
def tagCalls (notes : List Note) : List (Call T E D) :=
  notes.flatMap fun
    | .tags newTags goneTags => [.tags newTags goneTags]
    | _ => []

/-- The notes of a test that are passed on at once. -/
def otherCalls (notes : List Note) : List (Call T E D) :=
  notes.flatMap fun
    | .tags _ _ => []
    | .progress offset whence => [.progress offset whence]
    | .time aTime => [.time aTime]

/-- What is passed on at the end of a test that is kept. -/
def OneTest.replay (t : OneTest T E D) : List (Call T E D) :=
  .startTest t.test :: tagCalls t.before ++ .outcome t.outcome t.test :: tagCalls t.after
    ++ [.stopTest t.test]

theorem tagCalls_sublist (notes : List Note) :
    (tagCalls (T := T) (E := E) (D := D) notes).Sublist (noteCalls notes) := by
  induction notes with
  | nil => exact List.Sublist.slnil
  | cons note notes ih =>
    rw [tagCalls, List.flatMap_cons, ← tagCalls, noteCalls, List.map_cons, ← noteCalls]
    cases note with
    | tags newTags goneTags => exact ih.cons_cons _
    | progress offset whence => exact ih.cons _
    | time aTime => exact ih.cons _

theorem otherCalls_sublist (notes : List Note) :
    (otherCalls (T := T) (E := E) (D := D) notes).Sublist (noteCalls notes) := by
  induction notes with
  | nil => exact List.Sublist.slnil
  | cons note notes ih =>
    rw [otherCalls, List.flatMap_cons, ← otherCalls, noteCalls, List.map_cons, ← noteCalls]
    cases note with
    | tags newTags goneTags => exact ih.cons _
    | progress offset whence => exact ih.cons_cons _
    | time aTime => exact ih.cons_cons _

/-- Both parts of a test come in the order of its calls. -/
theorem OneTest.replay_sublist (t : OneTest T E D) : t.replay.Sublist t.calls := by
  have hbefore := @tagCalls_sublist T E D t.before
  have hafter := @tagCalls_sublist T E D t.after
  exact ((hbefore.cons_cons (.startTest t.test)).append
    (hafter.cons_cons (.outcome t.outcome t.test))).append (List.Sublist.refl _)

theorem OneTest.otherCalls_sublist (t : OneTest T E D) :
    (otherCalls t.before ++ otherCalls t.after).Sublist t.calls := by
  have hbefore := @Filter.otherCalls_sublist T E D t.before
  have hafter := @Filter.otherCalls_sublist T E D t.after
  exact ((hbefore.cons (.startTest t.test)).append
    (hafter.cons (.outcome t.outcome t.test))).trans (List.sublist_append_left _ _)

section Forwarding

variable (predicate : Predicate T E D)

/-- The test is kept, `tags` being active at its outcome. -/
def OneTest.kept (t : OneTest T E D) (tags : Finset String) : Bool :=
  t.outcome.passes predicate t.test tags

/-- The calls that a `_PredicateFilter` makes of an item, the tags being `m`
before it. -/
def Item.forwarded (m : TagsMixin) : Item T E D → List (Call T E D)
  | .note n => [n.call]
  | .test t =>
    let reported := t.opening.foldl TagsMixin.follow m
    otherCalls t.before ++ otherCalls t.after
      ++ if t.kept predicate reported.getActiveTags then t.replay else []

def forwarded : TagsMixin → List (Item T E D) → List (Call T E D)
  | _, [] => []
  | m, item :: items =>
    item.forwarded predicate m ++ forwarded (item.calls.foldl TagsMixin.follow m) items

/-- In a test, tags are kept back. -/
theorem run_notes (m : TagsMixin) (test : T) (filtered : Option Bool)
    (buffered : List (Call T E D)) (notes : List Note) :
    (predicateFilter predicate).run ⟨m, some test, filtered, buffered⟩ (noteCalls notes)
      = (⟨(noteCalls (T := T) (E := E) (D := D) notes).foldl TagsMixin.follow m, some test, filtered,
          buffered ++ tagCalls notes⟩, otherCalls notes) := by
  induction notes generalizing m buffered with
  | nil => simp [noteCalls, tagCalls, otherCalls]
  | cons note notes ih =>
    rw [noteCalls, List.map_cons, Transducer.run_cons, ← noteCalls]
    cases note with
    | tags newTags goneTags =>
      have hstep : (predicateFilter predicate).step ⟨m, some test, filtered, buffered⟩
          (.tags newTags goneTags)
          = (⟨m.tags newTags goneTags, some test, filtered,
              buffered ++ [.tags newTags goneTags]⟩, []) := rfl
      rw [Note.call, hstep, ih]
      simp [tagCalls, otherCalls, TagsMixin.follow]
    | progress offset whence =>
      have hstep : (predicateFilter predicate).step ⟨m, some test, filtered, buffered⟩
          (.progress offset whence)
          = (⟨m, some test, filtered, buffered⟩, [.progress offset whence]) := rfl
      rw [Note.call, hstep, ih]
      simp [tagCalls, otherCalls, TagsMixin.follow]
    | time aTime =>
      have hstep : (predicateFilter predicate).step ⟨m, some test, filtered, buffered⟩ (.time aTime)
          = (⟨m, some test, filtered, buffered⟩, [.time aTime]) := rfl
      rw [Note.call, hstep, ih]
      simp [tagCalls, otherCalls, TagsMixin.follow]

/-- The end of a test, from its outcome. -/
theorem run_closing (m : TagsMixin) (t : OneTest T E D) (buffered : List (Call T E D)) :
    (predicateFilter predicate).run ⟨m, some t.test, some false, buffered⟩
        (t.closing ++ [.stopTest t.test])
      = ({ toTagsMixin := (t.closing.foldl TagsMixin.follow m).stopTest },
          otherCalls t.after ++ if t.kept predicate m.getActiveTags then
            buffered ++ .outcome t.outcome t.test :: tagCalls t.after ++ [.stopTest t.test]
          else []) := by
  have hfollow : t.closing.foldl TagsMixin.follow m
      = (noteCalls (T := T) (E := E) (D := D) t.after).foldl TagsMixin.follow m := rfl
  rw [hfollow, OneTest.closing, List.cons_append, Transducer.run_cons]
  by_cases hkept : t.kept predicate m.getActiveTags = true
  · have houtcome : (predicateFilter predicate).step ⟨m, some t.test, some false, buffered⟩
        (.outcome t.outcome t.test)
        = (⟨m, some t.test, some false, buffered ++ [.outcome t.outcome t.test]⟩, []) := by
      rw [OneTest.kept] at hkept
      simp [predicateFilter, PredicateFilter.addOutcome, hkept]
    rw [houtcome, Transducer.run_append, run_notes, Transducer.run_singleton, if_pos hkept]
    simp [predicateFilter, PredicateFilter.stopTest]
  · have houtcome : (predicateFilter predicate).step ⟨m, some t.test, some false, buffered⟩
        (.outcome t.outcome t.test) = (⟨m, some t.test, some true, buffered⟩, []) := by
      rw [OneTest.kept] at hkept
      simp [predicateFilter, PredicateFilter.addOutcome, hkept]
    rw [houtcome, Transducer.run_append, run_notes, Transducer.run_singleton, if_neg hkept]
    simp [predicateFilter, PredicateFilter.stopTest]

/-- A whole test. -/
theorem run_test (m : TagsMixin) (t : OneTest T E D) :
    (predicateFilter predicate).run { toTagsMixin := m } t.calls
      = ({ toTagsMixin := t.calls.foldl TagsMixin.follow m },
          (Item.test t).forwarded predicate m) := by
  have hopening : (predicateFilter predicate).run { toTagsMixin := m } t.opening
      = (⟨t.opening.foldl TagsMixin.follow m, some t.test, some false,
          .startTest t.test :: tagCalls t.before⟩, otherCalls t.before) := by
    have hstart : (predicateFilter predicate).step { toTagsMixin := m } (.startTest t.test)
        = (⟨m.startTest, some t.test, some false, [.startTest t.test]⟩, []) := rfl
    rw [OneTest.opening, Transducer.run_cons, hstart, run_notes]
    rfl
  have hreplay : t.replay = .startTest t.test :: tagCalls t.before
      ++ .outcome t.outcome t.test :: tagCalls t.after ++ [.stopTest t.test] := by
    simp [OneTest.replay]
  rw [OneTest.calls, List.append_assoc, Transducer.run_append, hopening, run_closing,
    List.foldl_append, List.foldl_append, Item.forwarded, hreplay,
    List.append_assoc (otherCalls t.before)]
  rfl

/-- **The calls that a _PredicateFilter makes.** -/
theorem run_predicateFilter (m : TagsMixin) (items : List (Item T E D)) :
    ((predicateFilter predicate).run { toTagsMixin := m } (runCalls items)).2
      = forwarded predicate m items := by
  induction items generalizing m with
  | nil => rfl
  | cons item items ih =>
    have hitem : (predicateFilter predicate).run { toTagsMixin := m } item.calls
        = ({ toTagsMixin := item.calls.foldl TagsMixin.follow m }, item.forwarded predicate m) := by
      cases item with
      | note n =>
        rw [Item.calls, Transducer.run_singleton]
        cases n <;> rfl
      | test t => exact run_test predicate m t
    rw [runCalls, List.flatMap_cons, ← runCalls, Transducer.run_append, hitem, ih, forwarded]

end Forwarding

/-! ## The pipeline -/

theorem map_runCalls (o : Options T E D) (id : T → String) (items : List (Item T E D)) :
    (runCalls items).map (o.fixupCall id) = runCalls (items.map (Item.fixup o id)) := by
  have hnotes : ∀ notes : List Note,
      (noteCalls notes).map (o.fixupCall id) = noteCalls notes := by
    intro notes
    rw [noteCalls, List.map_map]
    refine List.map_congr_left fun n _ => ?_
    cases n <;> rfl
  rw [runCalls, runCalls, List.map_flatMap, List.flatMap_map]
  refine List.flatMap_congr fun item _ => ?_
  cases item with
  | note n => cases n <;> rfl
  | test t =>
    simp only [Item.calls, OneTest.calls, OneTest.opening, OneTest.closing, List.map_append,
      List.map_cons, hnotes, List.map_nil]
    rfl

theorem filterRun_eq (o : Options T E D) (id : T → String) (items : List (Item T E D)) :
    filterRun o id (runCalls items)
      = (tagCollapsingDecorator.run {} (timeCollapsingDecorator.run {}
          (forwarded o.predicate {} (items.map (Item.fixup o id)))).2).2 := by
  rw [filterRun, testResultFilter, Transducer.run_comp, Transducer.run_comp, Transducer.run_comp,
    Transducer.run_map]
  dsimp only
  rw [map_runCalls, run_predicateFilter]

theorem clocking_filterRun (o : Options T E D) (id : T → String) (items : List (Item T E D)) :
    (clocking.run none (filterRun o id (runCalls items))).2
      = (clocking.run none (forwarded o.predicate {} (items.map (Item.fixup o id)))).2 := by
  rw [filterRun_eq]
  have htimes := (@time_transparent_clocking T E D).run
    (show none = Times.lastSentTime {} ∧ none = Times.received {} from ⟨rfl, rfl⟩)
    (fun call (_ : call ∈ forwarded o.predicate {} (items.map (Item.fixup o id))) => trivial)
  refine Eq.trans ((@tag_transparent_clocking T E D).run ⟨rfl, rfl⟩ fun call _ => trivial).2 ?_
  exact htimes.2

/-- The times that a `TimeCollapsingDecorator` adds are no change of the tags. -/
theorem time_tagsDisjoint (s : Times) (call : Call T E D) (h : TagsDisjoint call) :
    ∀ sent ∈ (timeCollapsingDecorator.step s call).2, TagsDisjoint sent := by
  have hbefore : ∀ sent ∈ s.beforeEvent (T := T) (E := E) (D := D) |>.2, TagsDisjoint sent := by
    intro sent hsent
    rw [Times.beforeEvent] at hsent
    split at hsent
    · simp at hsent
    · split at hsent
      · simp only [List.mem_singleton] at hsent
        subst hsent
        trivial
      · simp at hsent
  intro sent hsent
  cases call.kind with
  | tags newTags goneTags =>
    obtain rfl := List.mem_singleton.mp hsent
    exact h
  | time aTime =>
    obtain ⟨lastReceivedTime, lastSentTime⟩ := s
    cases lastReceivedTime with
    | none =>
      obtain rfl := List.mem_singleton.mp hsent
      trivial
    | some received => simp [timeCollapsingDecorator, Times.time] at hsent
  | event htags htime =>
    rw [timeCollapsing_event s htags htime] at hsent
    rcases List.mem_append.mp hsent with hsent | hsent
    · exact hbefore sent hsent
    · obtain rfl := List.mem_singleton.mp hsent
      exact h

theorem scoping_filterRun (o : Options T E D) (id : T → String) (items : List (Item T E D))
    (h : ∀ call ∈ forwarded o.predicate {} (items.map (Item.fixup o id)), TagsDisjoint call) :
    (scoping.run {} (filterRun o id (runCalls items))).2
      = (scoping.run {} (forwarded o.predicate {} (items.map (Item.fixup o id)))).2 := by
  rw [filterRun_eq]
  have htimes := ((@time_transparent_scoping T E D).run (s := {}) (r := {}) rfl
    fun call (_ : call ∈ forwarded o.predicate {} (items.map (Item.fixup o id))) => trivial).2
  have hdisjoint := Transducer.run_forall time_tagsDisjoint {} h
  refine Eq.trans ((@tag_transparent_scoping T E D).run
    ⟨rfl, (Scope.tags_empty _).symm⟩ hdisjoint).2 ?_
  exact htimes

end Runs

end Pysubunit.Filter
