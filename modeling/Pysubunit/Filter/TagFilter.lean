/-
Pysubunit.Filter.TagFilter — `make_tag_filter` (`test_results.py`), and the filter that
`subunit-filter` makes of its options (`commands/subunit_filter.py`).

The script joins what it is asked for to one predicate. It could as well have put a filter for
each tag behind another (`filterRun_options_in_a_row`): known failures are looked up before
any of them is asked, and an unexpected success is passed on whatever its tags are.
-/
import Pysubunit.Filter.ChainTheorems

namespace Pysubunit.Filter

open ByteLib

section

variable {T E D : Type}

/-- `tags and set(tags) or None` -/
def tagSet : Option (List String) → Option (Finset String)
  | none => none
  | some [] => none
  | some tags => some tags.toFinset

/-- `make_tag_filter` -/
def makeTagFilter (withTags withoutTags : Option (List String)) : Predicate T E D :=
  fun _ _ _ _ tags =>
    if (tagSet withTags).any fun wanted => ¬ wanted ⊆ tags then false
    else if (tagSet withoutTags).any fun unwanted => unwanted ∩ tags ≠ ∅ then false
    else true

/-- A predicate of five arguments as a `filter_predicate`; it is not asked with four. -/
def Predicate.asked (p : Predicate T E D) : FilterPredicate T E D where
  withTags test outcome error details tags := some (p test outcome error details tags)
  withoutTags _ _ _ _ := false

/-- The filter of `subunit-filter`, `regexps` being the regexp filter. -/
def scriptFilter (o : Options T E D) (regexps : Predicate T E D)
    (withTags withoutTags : Option (List String)) : Options T E D :=
  let predicate := andPredicates [regexps, makeTagFilter withTags withoutTags]
  { o with filterPredicate := some predicate.asked }

/-- `TestResultFilter(result, filter_success=False, filter_predicate=p)` -/
def only (p : Predicate T E D) : Options T E D :=
  { filterSuccess := false, filterPredicate := some p.asked }

/-- The filters of its parts: the regexps, and a filter for each tag. -/
def partFilters (regexps : Predicate T E D) (withTags withoutTags : Option (List String)) :
    List (Options T E D) :=
  only regexps :: (withTags.getD []).map (fun tag => only (makeTagFilter (some [tag]) none))
    ++ (withoutTags.getD []).map fun tag => only (makeTagFilter none (some [tag]))

/-! ## What the predicates say -/

theorem andPredicates_apply (ps : List (Predicate T E D)) (test : T) (outcome : String)
    (error : Option E) (details : Option D) (tags : Finset String) :
    andPredicates ps test outcome error details tags = true
      ↔ ∀ p ∈ ps, p test outcome error details tags = true := by
  simp [andPredicates]

/-- An empty list of tags is none. -/
theorem any_tagSet {tags : Option (List String)} {p : Finset String → Bool} (h : p ∅ = false) :
    (tagSet tags).any p = p (tags.getD []).toFinset := by
  match tags with
  | none => simp [tagSet, h]
  | some [] => simp [tagSet, h]
  | some (tag :: tags) => rfl

/-- **All tags wanted, and none that is not.** -/
theorem makeTagFilter_iff (withTags withoutTags : Option (List String)) (test : T)
    (outcome : String) (error : Option E) (details : Option D) (tags : Finset String) :
    makeTagFilter withTags withoutTags test outcome error details tags = true
      ↔ (∀ tag ∈ withTags.getD [], tag ∈ tags) ∧ ∀ tag ∈ withoutTags.getD [], tag ∉ tags := by
  unfold makeTagFilter
  rw [any_tagSet (by simp), any_tagSet (by simp)]
  have hwith : (withTags.getD []).toFinset ⊆ tags ↔ ∀ tag ∈ withTags.getD [], tag ∈ tags := by
    simp [Finset.subset_iff]
  have hwithout : (withoutTags.getD []).toFinset ∩ tags = ∅
      ↔ ∀ tag ∈ withoutTags.getD [], tag ∉ tags := by
    simp [← Finset.disjoint_iff_inter_eq_empty, Finset.disjoint_left]
  simp [hwith, hwithout]

/-! ## A filter and its parts -/

@[simp] theorem predicate_only (p : Predicate T E D) : (only p).predicate = p := by
  funext test outcome error details tags
  simp [Options.predicate, Options.predicates, only, andPredicates, FilterPredicate.compat,
    Predicate.asked]

theorem predicates_scriptFilter (o : Options T E D) (regexps : Predicate T E D)
    (withTags withoutTags : Option (List String)) :
    (scriptFilter o regexps withTags withoutTags).predicates
      = { o with filterPredicate := none }.predicates
        ++ [andPredicates [regexps, makeTagFilter withTags withoutTags]] := by
  simp [Options.predicates, scriptFilter, Predicate.asked]
  rfl

/-- The parts say together what the script asks. -/
theorem passes_partFilters (regexps : Predicate T E D) (withTags withoutTags : Option (List String))
    {outcome : Outcome E D} {name : String} (hname : outcome.name = some name) (test : T)
    (tags : Finset String) :
    (∀ part ∈ partFilters regexps withTags withoutTags,
        outcome.passes part.predicate test tags = true)
      ↔ andPredicates [regexps, makeTagFilter withTags withoutTags] test name outcome.err
          outcome.details tags = true := by
  simp only [partFilters, List.mem_append, List.mem_cons, List.mem_map, or_imp, forall_and,
    forall_eq, forall_exists_index, and_imp, forall_apply_eq_imp_iff₂, predicate_only,
    Outcome.passes, hname, andPredicates_apply, makeTagFilter_iff]
  simp [and_assoc]

/-- An outcome passes if it passes the options and the parts. -/
theorem passes_scriptFilter (o : Options T E D) (regexps : Predicate T E D)
    (withTags withoutTags : Option (List String)) (outcome : Outcome E D) (test : T)
    (tags : Finset String) :
    outcome.passes (scriptFilter o regexps withTags withoutTags).predicate test tags = true
      ↔ outcome.passes { o with filterPredicate := none }.predicate test tags = true
        ∧ ∀ part ∈ partFilters regexps withTags withoutTags,
          outcome.passes part.predicate test tags = true := by
  cases hname : outcome.name with
  | none => simp [Outcome.passes, hname]
  | some name =>
    rw [passes_partFilters regexps withTags withoutTags hname]
    simp only [Outcome.passes, hname, Options.predicate, predicates_scriptFilter,
      andPredicates_apply, List.forall_mem_append, List.forall_mem_singleton]

/-- **The parts of a filter in a row.** -/
theorem passedAll_parts (o : Options T E D) (id : T → String) (regexps : Predicate T E D)
    (withTags withoutTags : Option (List String)) {parts : List (Options T E D)}
    (hparts : parts.Perm (partFilters regexps withTags withoutTags)) :
    passedAll id ({ o with filterPredicate := none } :: parts)
      = passedAll id [scriptFilter o regexps withTags withoutTags] := by
  funext t
  have hunfixed : ∀ part ∈ parts, part.fixupExpectedFailures = none := by
    intro part hpart
    rw [hparts.mem_iff] at hpart
    simp only [partFilters, List.mem_append, List.mem_cons, List.mem_map] at hpart
    rcases hpart with (rfl | ⟨tag, -, rfl⟩) | ⟨tag, -, rfl⟩ <;> rfl
  have hfixup : (scriptFilter o regexps withTags withoutTags).fixup id t.outcome t.test
      = { o with filterPredicate := none }.fixup id t.outcome t.test := rfl
  simp only [passedAll, Options.passed, hfixup, Option.bind_fun_some]
  generalize { o with filterPredicate := none }.fixup id t.outcome t.test = outcome
  have hscript := passes_scriptFilter o regexps withTags withoutTags outcome t.test t.tags
  by_cases hoptions :
      outcome.passes { o with filterPredicate := none }.predicate t.test t.tags = true
  · rw [if_pos hoptions, Option.bind_some, passedAll_unfixed id hunfixed]
    simp only [hscript, hoptions, true_and, hparts.mem_iff]
  · rw [if_neg hoptions, if_neg (by simp [hscript, hoptions]), Option.bind_none]

/-- The tests that the script passes on. -/
def wanted (o : Options T E D) (id : T → String) (regexps : Predicate T E D)
    (withTags withoutTags : Option (List String)) (t : Tested T E D) : Option (Tested T E D) :=
  let outcome := o.fixup id t.outcome t.test
  if outcome.passes { o with filterPredicate := none }.predicate t.test t.tags
      ∧ outcome.passes regexps t.test t.tags
      ∧ (outcome.name = none
        ∨ (∀ tag ∈ withTags.getD [], tag ∈ t.tags) ∧ ∀ tag ∈ withoutTags.getD [], tag ∉ t.tags) then
    some { t with outcome }
  else none

theorem passed_scriptFilter (o : Options T E D) (id : T → String) (regexps : Predicate T E D)
    (withTags withoutTags : Option (List String)) :
    passedAll id [scriptFilter o regexps withTags withoutTags]
      = wanted o id regexps withTags withoutTags := by
  funext t
  have hfixup : (scriptFilter o regexps withTags withoutTags).fixup id t.outcome t.test
      = o.fixup id t.outcome t.test := rfl
  simp only [passedAll, Options.passed, Option.bind_fun_some, hfixup, wanted]
  generalize o.fixup id t.outcome t.test = outcome
  refine if_congr ?_ rfl rfl
  rw [passes_scriptFilter]
  refine and_congr_right fun _ => ?_
  cases hname : outcome.name with
  | none => simp [Outcome.passes, hname]
  | some name =>
    rw [passes_partFilters regexps withTags withoutTags hname]
    simp [andPredicates_apply, makeTagFilter_iff, Outcome.passes, hname]

/-- **The filter of the script is a row of filters.** What `subunit-filter` passes on of a run
whose calls of `tags` name no tag as both new and gone are, with their tags at the source, the
tests that its options and regexps let through and that have all of the tags it is asked
for and none of those it is asked to leave out, or have succeeded unexpectedly; and that is what
comes out of a filter with its other options followed by one filter for the regexps and one for
each tag, in any order of these. -/
theorem filterRun_options_in_a_row (id : T → String) (o : Options T E D)
    (regexps : Predicate T E D) (withTags withoutTags : Option (List String))
    {parts : List (Options T E D)} (hparts : parts.Perm (partFilters regexps withTags withoutTags))
    (items : List (Item T E D)) (h : ∀ call ∈ runCalls items, TagsDisjoint call) :
    let script := scriptFilter o regexps withTags withoutTags
    let seen := (scoping.run {} (filterRun script id (runCalls items))).2
    seen = (((contexts Scope.call {} items).map InContext.tested).filterMap
        (wanted o id regexps withTags withoutTags)).flatMap Tested.scoped
    ∧ (scoping.run {} (filterRuns id ({ o with filterPredicate := none } :: parts)
        (runCalls items))).2 = seen := by
  intro script seen
  have hseen : seen = (((contexts Scope.call {} items).map InContext.tested).filterMap
      (wanted o id regexps withTags withoutTags)).flatMap Tested.scoped := by
    have hscript := scoping_filterRuns id [script] h
    rw [passed_scriptFilter] at hscript
    exact hscript
  refine ⟨hseen, ?_⟩
  rw [hseen, scoping_filterRuns id _ h, passedAll_parts o id regexps withTags withoutTags hparts,
    passed_scriptFilter]

/-- One tag asked for and one left out, these filters in the other order. -/
theorem filterRun_options_in_a_row_tagged :
    let regexps : Predicate String Unit Unit := fun _ _ _ _ _ => true
    let o : Options String Unit Unit := { fixupExpectedFailures := some {"bar"} }
    let script := scriptFilter o regexps (some ["a"]) (some ["b"])
    let seen := (scoping.run {} (filterRun script (fun test => test) (runCalls taggedRun))).2
    seen = (((contexts Scope.call {} taggedRun).map InContext.tested).filterMap
        (wanted o (fun test => test) regexps (some ["a"]) (some ["b"]))).flatMap Tested.scoped
    ∧ (scoping.run {} (filterRuns (fun test => test) ({ o with filterPredicate := none }
        :: (partFilters regexps (some ["a"]) (some ["b"])).reverse) (runCalls taggedRun))).2
      = seen :=
  filterRun_options_in_a_row (fun test => test) _ _ (some ["a"]) (some ["b"])
    (List.reverse_perm _) taggedRun taggedRun_disjoint

end

end Pysubunit.Filter
