/-
Pysubunit.Filter.TimingTheorems — the times at which a result sees the tests that
are passed on.

Times go through a `_PredicateFilter` at once, the start and the outcome of a test
wait for its end. The result therefore sees both at the last time that was given
before the end of the test (`clocking_forwarded`), and the timing of the source is
kept just where that is also the last time before the start and the outcome.
-/
import Pysubunit.Filter.ResultTheorems

namespace Pysubunit.Filter

open ByteLib
open V1 (Whence DateTime)

variable {T E D : Type}

/-! ## Tests with their times -/

/-- What a call does to the tags and to the last time. -/
def track (k : TagsMixin × Option DateTime) (call : Call T E D) : TagsMixin × Option DateTime :=
  (k.1.follow call, lastTime k.2 call)

/-- The test is kept in its context. -/
def InContext.kept (predicate : Predicate T E D)
    (c : InContext (TagsMixin × Option DateTime) T E D) : Bool :=
  c.test.kept predicate c.reported.1.getActiveTags

/-- The tests that a filter passes on, with the tags and the last time that the
source has given by their starts, outcomes and ends. -/
def passedOn (o : Options T E D) (id : T → String) (items : List (Item T E D)) :
    List (InContext (TagsMixin × Option DateTime) T E D) :=
  (contexts track ({}, none) (items.map (Item.fixup o id))).filter (InContext.kept o.predicate)

/-- The start and the outcome of a test, with the last times in the source. -/
def InContext.clocked (c : InContext (TagsMixin × Option DateTime) T E D) :
    List (Call T E D × Option DateTime) :=
  [(.startTest c.test.test, c.started.2), (.outcome c.test.outcome c.test.test, c.reported.2)]

/-- The result sees the start and the outcome of every test that is passed on at
the times of the source. -/
def TimingKept (o : Options T E D) (id : T → String) (items : List (Item T E D)) : Prop :=
  (clocking.run none (filterRun o id (runCalls items))).2
    = (passedOn o id items).flatMap InContext.clocked

/-! ## The times of a result -/

/-- The start and the outcome of a test, with the last time before its end. -/
def InContext.stamped (c : InContext (TagsMixin × Option DateTime) T E D) :
    List (Call T E D × Option DateTime) :=
  [(.startTest c.test.test, c.stopped.2), (.outcome c.test.outcome c.test.test, c.stopped.2)]

theorem foldl_track (k : TagsMixin × Option DateTime) (calls : List (Call T E D)) :
    calls.foldl track k = (calls.foldl TagsMixin.follow k.1, calls.foldl lastTime k.2) := by
  induction calls generalizing k with
  | nil => rfl
  | cons call calls ih => exact ih (track k call)

/-- All times of a test are passed on at once. -/
theorem clocking_otherCalls (last : Option DateTime) (notes : List Note) :
    clocking.run last (otherCalls (T := T) (E := E) (D := D) notes)
      = ((noteCalls (T := T) (E := E) (D := D) notes).foldl lastTime last, []) := by
  induction notes generalizing last with
  | nil => rfl
  | cons note notes ih =>
    rw [otherCalls, List.flatMap_cons, ← otherCalls, Transducer.run_append, noteCalls,
      List.map_cons, List.foldl_cons, ← noteCalls]
    cases note with
    | tags newTags goneTags => exact ih last
    | progress offset whence => exact ih last
    | time aTime => exact ih (some aTime)

theorem clocking_tagCalls (last : Option DateTime) (notes : List Note) :
    clocking.run last (tagCalls (T := T) (E := E) (D := D) notes) = (last, []) := by
  induction notes with
  | nil => rfl
  | cons note notes ih =>
    rw [tagCalls, List.flatMap_cons, ← tagCalls, Transducer.run_append]
    cases note with
    | tags newTags goneTags => exact ih
    | progress offset whence => exact ih
    | time aTime => exact ih

/-- What is kept back holds no time. -/
theorem clocking_replay (last : Option DateTime) (t : OneTest T E D) :
    clocking.run last t.replay
      = (last, [(.startTest t.test, last), (.outcome t.outcome t.test, last)]) := by
  have hstart : clocking.step last (.startTest t.test : Call T E D)
      = (last, [(.startTest t.test, last)]) := rfl
  have houtcome : clocking.step last (.outcome t.outcome t.test)
      = (last, [(.outcome t.outcome t.test, last)]) := rfl
  rw [OneTest.replay, List.cons_append, List.cons_append, List.append_assoc, Transducer.run_cons,
    hstart, Transducer.run_append, clocking_tagCalls, List.cons_append, Transducer.run_cons,
    houtcome, Transducer.run_append, clocking_tagCalls, Transducer.run_singleton]
  rfl

section Forwarding

variable (predicate : Predicate T E D)

/-- What the receiver sees of a test. -/
theorem clocking_item (k : TagsMixin × Option DateTime) (t : OneTest T E D) :
    let reported := t.opening.foldl track k
    let c : InContext (TagsMixin × Option DateTime) T E D :=
      ⟨t, k, reported, t.closing.foldl track reported⟩
    clocking.run k.2 ((Item.test t).forwarded predicate k.1)
      = (c.stopped.2, if c.kept predicate then c.stamped else []) := by
  intro reported c
  have hreported : c.reported.1 = t.opening.foldl TagsMixin.follow k.1 := by
    rw [show c.reported = t.opening.foldl track k from rfl, foldl_track]
  have hopening : (t.opening.foldl track k).2
      = (noteCalls (T := T) (E := E) (D := D) t.before).foldl lastTime k.2 := by
    rw [foldl_track]
    rfl
  have hclosing : c.stopped.2
      = (noteCalls (T := T) (E := E) (D := D) t.after).foldl lastTime
          ((noteCalls (T := T) (E := E) (D := D) t.before).foldl lastTime k.2) := by
    rw [show c.stopped = t.closing.foldl track (t.opening.foldl track k) from rfl, foldl_track,
      hopening]
    rfl
  rw [Item.forwarded, Transducer.run_append, Transducer.run_append, clocking_otherCalls,
    clocking_otherCalls, ← hclosing, InContext.kept, hreported]
  by_cases hkept : t.kept predicate (t.opening.foldl TagsMixin.follow k.1).getActiveTags = true
  · rw [if_pos hkept, if_pos hkept, clocking_replay]
    rfl
  · rw [if_neg hkept, if_neg hkept]
    rfl

/-- **Times of the tests that a _PredicateFilter passes on.** -/
theorem clocking_forwarded (k : TagsMixin × Option DateTime) (items : List (Item T E D)) :
    (clocking.run k.2 (forwarded predicate k.1 items)).2
      = ((contexts track k items).filter (InContext.kept predicate)).flatMap
          InContext.stamped := by
  induction items generalizing k with
  | nil => rfl
  | cons item items ih =>
    rw [forwarded, Transducer.run_append]
    cases item with
    | note n =>
      have hnote : clocking.run k.2 [(n.call : Call T E D)] = (lastTime k.2 (n.call : Call T E D), []) := by
        cases n <;> rfl
      have hrest := ih (track k (n.call : Call T E D))
      rw [Item.forwarded, hnote, contexts, List.nil_append]
      exact hrest
    | test t =>
      have hrest := ih (t.calls.foldl track k)
      have hlast : (t.calls.foldl track k).2
          = (t.closing.foldl track (t.opening.foldl track k)).2 := by
        rw [OneTest.calls, List.foldl_append, List.foldl_append, List.foldl_cons, List.foldl_nil]
        rfl
      have htags : (t.calls.foldl track k).1 = t.calls.foldl TagsMixin.follow k.1 := by
        rw [foldl_track]
      rw [hlast, htags] at hrest
      rw [clocking_item predicate k t, contexts_test, Item.calls]
      dsimp only
      rw [hrest, List.filter_cons]
      split
      · rw [List.flatMap_cons]
      · rw [List.nil_append]

end Forwarding

/-- The result sees a test that is passed on at the last time before its end. -/
theorem clocking_passedOn (o : Options T E D) (id : T → String) (items : List (Item T E D)) :
    (clocking.run none (filterRun o id (runCalls items))).2
      = (passedOn o id items).flatMap InContext.stamped := by
  rw [clocking_filterRun, passedOn]
  exact clocking_forwarded o.predicate ({}, none) _

/-! ## The order of times -/

/-- Times, starts, outcomes and ends: what is left of a run without its tags and
progress. -/
def Call.timed : Call T E D → Bool
  | .tags _ _ => false
  | .progress _ _ => false
  | _ => true

/-- No time is given in the test. -/
def OneTest.Timeless (t : OneTest T E D) : Prop :=
  ∀ aTime, .time aTime ∉ t.before ∧ .time aTime ∉ t.after

/-- A `TagCollapsingDecorator` touches nothing but tags. -/
theorem tagCollapsing_timed (m : TagsMixin) (call : Call T E D) :
    (tagCollapsingDecorator.step m call).2.filter Call.timed = [call].filter Call.timed := by
  by_cases htags : ∃ n g, call = .tags n g
  · obtain ⟨n, g, rfl⟩ := htags
    rfl
  push Not at htags
  have hflush : (m.flushCurrentScope (T := T) (E := E) (D := D)).2.filter Call.timed = [] := by
    rw [TagsMixin.flushCurrentScope]
    dsimp only
    split <;> rfl
  rw [tagCollapsing_event m htags, List.filter_append, hflush, List.nil_append]

theorem beforeEvent_timed (s : Times) :
    (s.beforeEvent (T := T) (E := E) (D := D)).2.filter Call.timed = s.beforeEvent.2 := by
  rw [Times.beforeEvent]
  split
  · rfl
  · split <;> rfl

/-- A `TimeCollapsingDecorator` keeps the order of all but tags; a time that it
has not sent yet comes first. -/
theorem timeCollapsing_sublist (s : Times) (calls : List (Call T E D)) :
    ((timeCollapsingDecorator.run s calls).2.filter Call.timed).Sublist
      (s.beforeEvent.2 ++ calls.filter Call.timed) := by
  induction calls generalizing s with
  | nil => simp
  | cons call calls ih =>
    rw [Transducer.run_cons, List.filter_append]
    cases call.kind with
    | tags newTags goneTags => exact ih s
    | time aTime =>
      obtain ⟨lastReceivedTime, lastSentTime⟩ := s
      cases lastReceivedTime with
      | none =>
        -- the time is sent at once and not again
        have hrest := ih ⟨some aTime, some aTime⟩
        have hsent : (Times.beforeEvent ⟨some aTime, some aTime⟩ (T := T) (E := E) (D := D)).2
            = [] := by
          simp [Times.beforeEvent]
        rw [hsent, List.nil_append] at hrest
        exact hrest.cons_cons _
      | some received =>
        -- the time takes the place of the one before
        have hrest := ih ⟨some aTime, lastSentTime⟩
        have hpending : (Times.beforeEvent ⟨some aTime, lastSentTime⟩
            (T := T) (E := E) (D := D)).2.Sublist [.time aTime] := by
          simp only [Times.beforeEvent]
          split <;> simp
        exact (hrest.trans (hpending.append_right _)).trans (List.sublist_append_right _ _)
    | event htags htime =>
      have hrest := ih (s.beforeEvent (T := T) (E := E) (D := D)).1
      obtain ⟨hstate, -, -⟩ := @beforeEvent_eq T E D s
      have hempty : (Times.beforeEvent ⟨none, s.received⟩ (T := T) (E := E) (D := D)).2 = [] := rfl
      rw [hstate, hempty, List.nil_append] at hrest
      have hcalls : (call :: calls).filter Call.timed
          = [call].filter Call.timed ++ calls.filter Call.timed := by
        rw [← List.filter_append, List.singleton_append]
      rw [timeCollapsing_event s htags htime, hstate, List.filter_append, beforeEvent_timed,
        List.append_assoc, hcalls]
      exact (hrest.append_left _).append_left _

/-- In a test without times, only progress is passed on at once. -/
theorem otherCalls_timed {notes : List Note} (h : ∀ aTime, .time aTime ∉ notes) :
    (otherCalls (T := T) (E := E) (D := D) notes).filter Call.timed = [] := by
  induction notes with
  | nil => rfl
  | cons note notes ih =>
    have hnotes := ih fun aTime hmem => h aTime (List.mem_cons_of_mem note hmem)
    rw [otherCalls, List.flatMap_cons, ← otherCalls, List.filter_append, hnotes]
    cases note with
    | tags newTags goneTags => rfl
    | progress offset whence => rfl
    | time aTime => exact absurd List.mem_cons_self (h aTime)

/-- If no test that is kept has times, a `_PredicateFilter` keeps the order. -/
theorem forwarded_sublist (predicate : Predicate T E D) (k : TagsMixin × Option DateTime)
    {items : List (Item T E D)}
    (h : ∀ c ∈ (contexts track k items).filter (InContext.kept predicate), c.test.Timeless) :
    ((forwarded predicate k.1 items).filter Call.timed).Sublist
      ((runCalls items).filter Call.timed) := by
  induction items generalizing k with
  | nil => exact List.Sublist.slnil
  | cons item items ih =>
    rw [forwarded, runCalls, List.flatMap_cons, ← runCalls, List.filter_append, List.filter_append]
    cases item with
    | note n => exact (List.Sublist.refl _).append (ih (track k (n.call : Call T E D)) h)
    | test t =>
      have htags : (t.calls.foldl track k).1 = t.calls.foldl TagsMixin.follow k.1 := by
        rw [foldl_track]
      have hreported : (t.opening.foldl track k).1 = t.opening.foldl TagsMixin.follow k.1 := by
        rw [foldl_track]
      rw [contexts_test, List.filter_cons, InContext.kept, hreported] at h
      have hrest := ih (t.calls.foldl track k)
      rw [htags] at hrest
      rw [Item.forwarded]
      by_cases hkept : t.kept predicate (t.opening.foldl TagsMixin.follow k.1).getActiveTags = true
      · rw [if_pos hkept] at h
        have htimeless : t.Timeless := h _ List.mem_cons_self
        rw [if_pos hkept, List.filter_append, List.filter_append,
          otherCalls_timed fun aTime => (htimeless aTime).1,
          otherCalls_timed fun aTime => (htimeless aTime).2, List.nil_append, List.nil_append]
        exact (t.replay_sublist.filter _).append
          (hrest fun c hc => h c (List.mem_cons_of_mem _ hc))
      · rw [if_neg hkept] at h
        rw [if_neg hkept, List.append_nil]
        exact (t.otherCalls_sublist.filter _).append (hrest h)

/-- If no time is given in a test that is passed on, the result receives times and
tests in the order of the source. -/
theorem filterRun_sublist (o : Options T E D) (id : T → String) {items : List (Item T E D)}
    (h : ∀ c ∈ passedOn o id items, c.test.Timeless) :
    ((filterRun o id (runCalls items)).filter Call.timed).Sublist
      ((runCalls (items.map (Item.fixup o id))).filter Call.timed) := by
  rw [filterRun_eq, Transducer.run_filter tagCollapsing_timed]
  refine (timeCollapsing_sublist {} _).trans ?_
  exact forwarded_sublist o.predicate ({}, none) h

/-! ## When timing is kept -/

theorem flatMap_eq_iff {α β : Type} {f g : α → List β}
    (hlength : ∀ x, (f x).length = (g x).length) (xs : List α) :
    xs.flatMap f = xs.flatMap g ↔ ∀ x ∈ xs, f x = g x := by
  induction xs with
  | nil => simp
  | cons x xs ih =>
    rw [List.flatMap_cons, List.flatMap_cons, List.forall_mem_cons, ← ih]
    constructor
    · intro h
      exact List.append_inj h (hlength x)
    · intro h
      rw [h.1, h.2]

theorem stamped_eq_clocked (c : InContext (TagsMixin × Option DateTime) T E D) :
    c.stamped = c.clocked ↔ c.started.2 = c.stopped.2 ∧ c.reported.2 = c.stopped.2 := by
  simp [InContext.stamped, InContext.clocked, eq_comm]

/-- **When a filter preserves the timing of tests.** In a test that is passed on,
the last time given before its end is that before its start and that before its
outcome. The order of all times is kept too if none is given in such a test. -/
theorem timingKept_iff (o : Options T E D) (id : T → String) (items : List (Item T E D)) :
    (TimingKept o id items
        ↔ ∀ c ∈ passedOn o id items, c.started.2 = c.stopped.2 ∧ c.reported.2 = c.stopped.2)
      ∧ ((∀ c ∈ passedOn o id items, c.test.Timeless) →
          ((filterRun o id (runCalls items)).filter Call.timed).Sublist
            ((runCalls (items.map (Item.fixup o id))).filter Call.timed)) := by
  constructor
  · rw [TimingKept, clocking_passedOn]
    have hlength : ∀ c : InContext (TagsMixin × Option DateTime) T E D,
        c.stamped.length = c.clocked.length := fun c => rfl
    rw [flatMap_eq_iff hlength]
    simp only [stamped_eq_clocked]
  · exact filterRun_sublist o id

/-- A day of January 2000. -/
def january (day : Nat) : DateTime := ⟨2000, 1, day, 0, 0, 0, 0⟩

/-- An error a day after the start of its test. -/
def timedRun : List (Item String Unit Unit) :=
  [.note (.time (january 1)),
    .test ⟨"foo", [.time (january 2)], .error (.details ()), []⟩,
    .note (.time (january 3))]

/-- The test starts at the time of its outcome. -/
theorem start_late : ¬ TimingKept {} (fun test => test) timedRun := by
  rw [TimingKept]
  decide

end Pysubunit.Filter
