/-
Pysubunit.Filter.ChainTheorems — filters in a row.

What a filter makes of a run is a run again (`filterRun_wellBracketed`): a list of calls is a run
if its tests are, and the notes of it are of no account. So the calls of one filter can be given
to the next, and `scoping_filterRuns` says what comes out of any number of them: each test goes
from filter to filter with the tags it had at the source.
-/
import Pysubunit.Filter.ScopeTheorems

namespace Pysubunit.Filter

open ByteLib
open V1 (Whence DateTime)

section

variable {T E D : Type}

/-! ## Calls that are a run -/

/-- The calls of a test and its outcome. -/
def isBracket : Call T E D → Bool
  | .startTest _ => true
  | .outcome _ _ => true
  | .stopTest _ => true
  | _ => false

/-- A test with its outcome and the tags that are active at it. -/
structure Tested (T E D : Type) where
  test : T
  outcome : Outcome E D
  tags : Finset String

/-- The three calls of a test. -/
def Tested.calls (t : Tested T E D) : List (Call T E D) :=
  [.startTest t.test, .outcome t.outcome t.test, .stopTest t.test]

/-- The three calls, with the tags that are active at the outcome. -/
def Tested.scoped (t : Tested T E D) : List (Call T E D × Option (Finset String)) :=
  [(.startTest t.test, none), (.outcome t.outcome t.test, some t.tags), (.stopTest t.test, none)]

/-- Calls between those of tests are notes. -/
theorem exists_noteCalls {calls : List (Call T E D)} (h : ∀ call ∈ calls, ¬ isBracket call = true) :
    ∃ notes, calls = noteCalls notes := by
  induction calls with
  | nil => exact ⟨[], rfl⟩
  | cons call calls ih =>
    obtain ⟨hcall, hcalls⟩ := List.forall_mem_cons.mp h
    obtain ⟨notes, rfl⟩ := ih hcalls
    cases call with
    | startTest test => exact absurd rfl hcall
    | outcome outcome test => exact absurd rfl hcall
    | stopTest test => exact absurd rfl hcall
    | tags newTags goneTags => exact ⟨.tags newTags goneTags :: notes, rfl⟩
    | progress offset whence => exact ⟨.progress offset whence :: notes, rfl⟩
    | time aTime => exact ⟨.time aTime :: notes, rfl⟩

theorem runCalls_notes (notes : List Note) (items : List (Item T E D)) :
    runCalls (notes.map Item.note ++ items) = noteCalls notes ++ runCalls items := by
  rw [runCalls, List.flatMap_append, List.flatMap_map, ← runCalls, noteCalls]
  congr 1
  induction notes with
  | nil => rfl
  | cons note notes ih => rw [List.flatMap_cons, ih, List.map_cons]; rfl

theorem runCalls_cons (item : Item T E D) (items : List (Item T E D)) :
    runCalls (item :: items) = item.calls ++ runCalls items := List.flatMap_cons

/-- **Calls whose tests come one after the other are a run.** -/
theorem exists_runCalls {calls : List (Call T E D)} {tests : List (Tested T E D)}
    (h : calls.filter isBracket = tests.flatMap Tested.calls) :
    ∃ items, calls = runCalls items := by
  induction tests generalizing calls with
  | nil =>
    obtain ⟨notes, rfl⟩ := exists_noteCalls (List.filter_eq_nil_iff.mp h)
    exact ⟨notes.map Item.note ++ [], by rw [runCalls_notes]; simp [runCalls]⟩
  | cons t tests ih =>
    rw [List.flatMap_cons, Tested.calls, List.cons_append, List.cons_append, List.cons_append,
      List.nil_append, List.filter_eq_cons_iff] at h
    obtain ⟨between, calls₁, rfl, hbetween, -, h⟩ := h
    obtain ⟨before, calls₂, rfl, hbefore, -, h⟩ := List.filter_eq_cons_iff.mp h
    obtain ⟨after, calls₃, rfl, hafter, -, h⟩ := List.filter_eq_cons_iff.mp h
    obtain ⟨items, rfl⟩ := ih h
    obtain ⟨notes, rfl⟩ := exists_noteCalls hbetween
    obtain ⟨beforeNotes, rfl⟩ := exists_noteCalls hbefore
    obtain ⟨afterNotes, rfl⟩ := exists_noteCalls hafter
    refine ⟨notes.map Item.note ++ .test ⟨t.test, beforeNotes, t.outcome, afterNotes⟩ :: items, ?_⟩
    rw [runCalls_notes, runCalls_cons]
    simp [Item.calls, OneTest.calls, OneTest.opening, OneTest.closing]

/-- The calls of tests are what is seen of them. -/
theorem filter_isBracket (s : Scope) (calls : List (Call T E D)) :
    calls.filter isBracket = (scoping.run s calls).2.map Prod.fst := by
  induction calls generalizing s with
  | nil => rfl
  | cons call calls ih =>
    rw [Transducer.run_cons, List.map_append, ← ih, List.filter_cons]
    cases call <;> rfl

/-! ## The tags of a run -/

/-- The test of a context. -/
def InContext.tested (c : InContext Scope T E D) : Tested T E D :=
  ⟨c.test.test, c.test.outcome, c.reported.current⟩

theorem scoping_noteCalls (s : Scope) (notes : List Note) :
    scoping.run s (noteCalls (T := T) (E := E) (D := D) notes)
      = ((noteCalls (T := T) (E := E) (D := D) notes).foldl Scope.call s, []) := by
  induction notes generalizing s with
  | nil => rfl
  | cons note notes ih =>
    rw [noteCalls, List.map_cons, Transducer.run_cons, ← noteCalls, List.foldl_cons, ih]
    cases note <;> rfl

theorem scoping_calls (g : Finset String) (t : OneTest T E D) :
    scoping.run ⟨g, none⟩ t.calls
      = (⟨g, none⟩,
          Tested.scoped ⟨t.test, t.outcome, (t.opening.foldl Scope.call ⟨g, none⟩).current⟩) := by
  obtain ⟨tags, hopening⟩ := foldl_opening g t
  obtain ⟨tags', hclosing⟩ := @foldl_noteCalls T E D g tags t.after
  have hbefore : (noteCalls (T := T) (E := E) (D := D) t.before).foldl Scope.call ⟨g, some g⟩
      = ⟨g, some tags⟩ := hopening
  have hstart : scoping.step ⟨g, none⟩ (.startTest t.test : Call T E D)
      = (⟨g, some g⟩, [(.startTest t.test, none)]) := rfl
  have houtcome : scoping.step ⟨g, some tags⟩ (.outcome t.outcome t.test)
      = (⟨g, some tags⟩, [(.outcome t.outcome t.test, some tags)]) := rfl
  rw [hopening, OneTest.calls, OneTest.opening, OneTest.closing, List.append_assoc,
    List.cons_append, Transducer.run_cons, hstart, Transducer.run_append, scoping_noteCalls,
    hbefore, List.cons_append, Transducer.run_cons, houtcome, Transducer.run_append,
    scoping_noteCalls, hclosing, Transducer.run_singleton]
  rfl

/-- **What is seen of a run** are its tests with their tags. -/
theorem scoping_runCalls (g : Finset String) (items : List (Item T E D)) :
    (scoping.run ⟨g, none⟩ (runCalls items)).2
      = ((contexts Scope.call ⟨g, none⟩ items).map InContext.tested).flatMap Tested.scoped := by
  induction items generalizing g with
  | nil => rfl
  | cons item items ih =>
    rw [runCalls_cons, Transducer.run_append]
    cases item with
    | note n =>
      have hnote : ∃ g', (Scope.mk g none).call (n.call : Call T E D) = ⟨g', none⟩
          ∧ scoping.run ⟨g, none⟩ [(n.call : Call T E D)] = (⟨g', none⟩, []) := by
        cases n with
        | tags newTags goneTags => exact ⟨_, rfl, rfl⟩
        | progress offset whence => exact ⟨g, rfl, rfl⟩
        | time aTime => exact ⟨g, rfl, rfl⟩
      obtain ⟨g', hcall, hseen⟩ := hnote
      rw [Item.calls, hseen, contexts, hcall, ih, List.nil_append]
    | test t =>
      rw [Item.calls, scoping_calls, contexts_test, foldl_calls, ih]
      rfl

/-! ## What comes out of a filter -/

/-- The tags that a `TagCollapsingDecorator` keeps back are told apart. -/
theorem flush_tagsDisjoint {m : TagsMixin} (hm : m.testTags = none)
    (h : Disjoint m.globalTags.1 m.globalTags.2) :
    ∀ call ∈ (m.flushCurrentScope (T := T) (E := E) (D := D)).2, TagsDisjoint call := by
  obtain ⟨-, hcalls | ⟨-, hcalls⟩⟩ := @flushCurrentScope_cases T E D m hm
  · intro call hcall
    rw [hcalls, List.mem_singleton] at hcall
    subst hcall
    exact h
  · simp [hcalls]

theorem tags_disjoint {new gone newTags goneTags : Finset String} (h : Disjoint new gone) :
    Disjoint ((new ∪ newTags) \ goneTags) ((gone ∪ goneTags) \ newTags) := by
  rw [Finset.disjoint_left] at h ⊢
  intro tag
  have := @h tag
  simp only [Finset.mem_sdiff, Finset.mem_union]
  tauto

/-- A `TagCollapsingDecorator` adds and removes no tag at once, whatever it is told. -/
theorem tagCollapsing_tagsDisjoint {m : TagsMixin} (hm : m.testTags = none)
    (h : Disjoint m.globalTags.1 m.globalTags.2) (calls : List (Call T E D)) :
    ∀ call ∈ (tagCollapsingDecorator.run m calls).2, TagsDisjoint call := by
  induction calls generalizing m with
  | nil => simp
  | cons call calls ih =>
    intro sent hsent
    rw [Transducer.run_cons, List.mem_append] at hsent
    by_cases htags : ∃ n g, call = .tags n g
    · obtain ⟨n, g, rfl⟩ := htags
      obtain ⟨⟨new, gone⟩, t⟩ := m
      cases hm
      rcases hsent with hsent | hsent
      · simp [tagCollapsingDecorator] at hsent
      · exact ih (m := ⟨⟨(new ∪ n) \ g, (gone ∪ g) \ n⟩, none⟩) rfl (tags_disjoint h) sent hsent
    · push Not at htags
      obtain ⟨hempty, -, -⟩ := @flush_eq T E D {} m hm none
      rw [tagCollapsing_event m htags, hempty] at hsent
      rcases hsent with hsent | hsent
      · rcases List.mem_append.mp hsent with hsent | hsent
        · exact flush_tagsDisjoint hm h sent hsent
        · obtain rfl := List.mem_singleton.mp hsent
          cases sent <;> first | trivial | exact absurd rfl (htags _ _)
      · exact ih rfl (by simp) sent hsent

/-- The tests that a filter passes on. -/
def Options.passed (o : Options T E D) (id : T → String) (t : Tested T E D) :
    Option (Tested T E D) :=
  let fixed := { t with outcome := o.fixup id t.outcome t.test }
  if fixed.outcome.passes o.predicate fixed.test fixed.tags then some fixed else none

theorem contexts_fixup (o : Options T E D) (id : T → String) (s : Scope)
    (items : List (Item T E D)) :
    (contexts Scope.call s (items.map (Item.fixup o id))).map InContext.tested
      = ((contexts Scope.call s items).map InContext.tested).map fun t =>
          { t with outcome := o.fixup id t.outcome t.test } := by
  induction items generalizing s with
  | nil => rfl
  | cons item items ih =>
    cases item with
    | note n => exact ih _
    | test t =>
      simp only [List.map_cons, Item.fixup, contexts, ih]
      rfl

/-- **The tests that come out of a filter** are those that it passes on, as it passes them on. -/
theorem filterRun_scoping (o : Options T E D) (id : T → String) (items : List (Item T E D))
    (h : ∀ call ∈ runCalls items, TagsDisjoint call) :
    (scoping.run {} (filterRun o id (runCalls items))).2
      = (((contexts Scope.call {} items).map InContext.tested).filterMap (o.passed id)).flatMap
          Tested.scoped := by
  have hfixed := tagsDisjoint_fixup o id h
  rw [scoping_filterRun o id items fun call hcall => hfixed call (mem_forwarded _ hcall),
    scoping_forwarded o.predicate .outside hfixed]
  have htests : ((contexts Scope.call ⟨∅, none⟩ (items.map (Item.fixup o id))).filter fun c =>
        c.test.kept o.predicate c.reported.current).map InContext.tested
      = ((contexts Scope.call {} items).map InContext.tested).filterMap (o.passed id) := by
    have hkept := List.filter_map (f := InContext.tested)
      (p := fun t : Tested T E D => t.outcome.passes o.predicate t.test t.tags)
      (l := contexts Scope.call ⟨∅, none⟩ (items.map (Item.fixup o id)))
    have hpassed : o.passed id = (Option.guard fun t : Tested T E D =>
          t.outcome.passes o.predicate t.test t.tags)
        ∘ fun t => { t with outcome := o.fixup id t.outcome t.test } := rfl
    refine hkept.symm.trans ?_
    rw [contexts_fixup, ← List.filterMap_eq_filter, List.filterMap_map, hpassed]
  rw [← htests, List.flatMap_map]
  rfl

/-- What comes out of a filter is a run. -/
theorem filterRun_wellBracketed (o : Options T E D) (id : T → String) (items : List (Item T E D))
    (h : ∀ call ∈ runCalls items, TagsDisjoint call) :
    ∃ items', filterRun o id (runCalls items) = runCalls items'
      ∧ ∀ call ∈ runCalls items', TagsDisjoint call := by
  have hbrackets := filter_isBracket {} (filterRun o id (runCalls items))
  rw [filterRun_scoping o id items h, List.map_flatMap] at hbrackets
  obtain ⟨items', hitems⟩ := exists_runCalls hbrackets
  refine ⟨items', hitems, ?_⟩
  rw [← hitems, filterRun_eq]
  exact tagCollapsing_tagsDisjoint rfl (by simp) _

/-- The tests of a run are told by what is seen of it. -/
theorem flatMap_scoped_inj {tests tests' : List (Tested T E D)}
    (h : tests.flatMap Tested.scoped = tests'.flatMap Tested.scoped) : tests = tests' := by
  induction tests generalizing tests' with
  | nil =>
    cases tests' with
    | nil => rfl
    | cons t' tests' => simp [Tested.scoped] at h
  | cons t tests ih =>
    cases tests' with
    | nil => simp [Tested.scoped] at h
    | cons t' tests' =>
      simp only [List.flatMap_cons, Tested.scoped, List.cons_append, List.nil_append,
        List.cons.injEq, Prod.mk.injEq, Call.startTest.injEq, Call.outcome.injEq, Option.some.injEq,
        and_true] at h
      obtain ⟨htest, ⟨⟨houtcome, -⟩, htags⟩, -, hrest⟩ := h
      rw [ih hrest]
      cases t
      cases t'
      simp_all

/-! ## Filters in a row -/

/-- The calls of the last of the filters, the first being given `calls`. -/
def filterRuns (id : T → String) : List (Options T E D) → List (Call T E D) → List (Call T E D)
  | [], calls => calls
  | o :: os, calls => filterRuns id os (filterRun o id calls)

/-- A test that goes from filter to filter. -/
def passedAll (id : T → String) : List (Options T E D) → Tested T E D → Option (Tested T E D)
  | [], t => some t
  | o :: os, t => (o.passed id t).bind (passedAll id os)

/-- The tests that come out of the last filter. -/
theorem scoping_filterRuns (id : T → String) (os : List (Options T E D))
    {items : List (Item T E D)} (h : ∀ call ∈ runCalls items, TagsDisjoint call) :
    (scoping.run {} (filterRuns id os (runCalls items))).2
      = (((contexts Scope.call {} items).map InContext.tested).filterMap
          (passedAll id os)).flatMap Tested.scoped := by
  induction os generalizing items with
  | nil =>
    have hall : passedAll id ([] : List (Options T E D)) = some := rfl
    rw [filterRuns, hall, List.filterMap_some]
    exact scoping_runCalls ∅ items
  | cons o os ih =>
    obtain ⟨items', hitems, hdisjoint⟩ := filterRun_wellBracketed o id items h
    have htests : (contexts Scope.call {} items').map InContext.tested
        = ((contexts Scope.call {} items).map InContext.tested).filterMap (o.passed id) := by
      apply flatMap_scoped_inj
      rw [← filterRun_scoping o id items h, hitems]
      exact (scoping_runCalls ∅ items').symm
    rw [filterRuns, hitems, ih hdisjoint, htests, List.filterMap_filterMap]
    rfl

/-- Filters that change no outcome pass on what all of them do. -/
theorem passedAll_unfixed (id : T → String) {os : List (Options T E D)}
    (h : ∀ o ∈ os, o.fixupExpectedFailures = none) (t : Tested T E D) :
    passedAll id os t
      = if ∀ o ∈ os, t.outcome.passes o.predicate t.test t.tags = true then some t else none := by
  induction os with
  | nil => simp [passedAll]
  | cons o os ih =>
    obtain ⟨hfirst, hrest⟩ := List.forall_mem_cons.mp h
    have hfixup : o.fixup id t.outcome t.test = t.outcome := by
      simp [Options.fixup, Options.failureExpected, hfirst]
    by_cases hpasses : t.outcome.passes o.predicate t.test t.tags = true
    · simp [passedAll, Options.passed, hfixup, hpasses, ih hrest]
    · simp [passedAll, Options.passed, hfixup, hpasses]

/-- **Filters in a row.** Of a run whose calls of `tags` name no tag as both new and gone, what the
result behind the last of any number of filters receives are the tests that each of them passes
on, asked one after the other with the outcome as the filters before have left it, and with the
tags that were active at the source. Filters that do not fix up outcomes may come in any order.
The calls of `time` are left out of account. -/
theorem filterRuns_in_a_row (id : T → String) (os : List (Options T E D))
    (items : List (Item T E D)) (h : ∀ call ∈ runCalls items, TagsDisjoint call) :
    (scoping.run {} (filterRuns id os (runCalls items))).2
      = (((contexts Scope.call {} items).map InContext.tested).filterMap
          (passedAll id os)).flatMap Tested.scoped
    ∧ ∀ os', os'.Perm os → (∀ o ∈ os, o.fixupExpectedFailures = none) →
      (scoping.run {} (filterRuns id os' (runCalls items))).2
        = (scoping.run {} (filterRuns id os (runCalls items))).2 := by
  refine ⟨scoping_filterRuns id os h, fun os' hperm hunfixed => ?_⟩
  have hunfixed' : ∀ o ∈ os', o.fixupExpectedFailures = none := fun o ho =>
    hunfixed o (hperm.mem_iff.mp ho)
  have hsame : passedAll id os' = passedAll id os := by
    funext t
    rw [passedAll_unfixed id hunfixed, passedAll_unfixed id hunfixed']
    simp only [hperm.mem_iff]
  rw [scoping_filterRuns id os h, scoping_filterRuns id os' h, hsame]

/-- One filter that knows of a failure, and one that passes no skips and no successes. -/
theorem filterRuns_in_a_row_tagged :
    let os : List (Options String Unit Unit) :=
      [{ fixupExpectedFailures := some {"bar"}, filterSuccess := false }, { filterSkip := true }]
    (scoping.run {} (filterRuns (fun test => test) os (runCalls taggedRun))).2
      = (((contexts Scope.call {} taggedRun).map InContext.tested).filterMap
          (passedAll (fun test => test) os)).flatMap Tested.scoped
    ∧ ∀ os', os'.Perm os → (∀ o ∈ os, o.fixupExpectedFailures = none) →
      (scoping.run {} (filterRuns (fun test => test) os' (runCalls taggedRun))).2
        = (scoping.run {} (filterRuns (fun test => test) os (runCalls taggedRun))).2 :=
  filterRuns_in_a_row (fun test => test) _ taggedRun taggedRun_disjoint

end

end Pysubunit.Filter
