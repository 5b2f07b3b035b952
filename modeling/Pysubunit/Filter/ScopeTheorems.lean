/-
Pysubunit.Filter.ScopeTheorems — which tests a filter passes on, and the tags
that they have at the result.

The tags of a run are those of a `Scope`; `Tracks` says that the pairs of a
`TagsMixin` follow them. At the end of a test the scope is what it was before, so
that the result and the source agree about the tags between tests, and in a test
that is kept the result is given all its tags again.
-/
import Pysubunit.Filter.ResultTheorems

namespace Pysubunit.Filter

open ByteLib
open V1 (Whence DateTime)

variable {T E D : Type}

/-! ## The tags of a _PredicateFilter -/

/-- The mixin has the tags of the scope: in a test, its pair is what the test has
changed. -/
inductive Tracks : TagsMixin → Scope → Prop
  | outside {new gone : Finset String} : Tracks ⟨(new, gone), none⟩ ⟨new, none⟩
  | inside {new gone testNew testGone tags : Finset String}
      (htags : tags = (new \ testGone) ∪ testNew) :
      Tracks ⟨(new, gone), some (testNew, testGone)⟩ ⟨new, some tags⟩

theorem Tracks.getActiveTags {m : TagsMixin} {s : Scope} (h : Tracks m s) :
    m.getActiveTags = s.current := by
  cases h with
  | outside => rfl
  | inside htags => exact htags.symm

theorem Tracks.tags {m : TagsMixin} {s : Scope} (h : Tracks m s)
    {newTags goneTags : Finset String} (hdisjoint : Disjoint newTags goneTags) :
    Tracks (m.tags newTags goneTags) (s.tags newTags goneTags) := by
  cases h with
  | outside => exact .outside
  | @inside new gone testNew testGone tags htags =>
    refine .inside ?_
    subst htags
    ext tag
    have hboth : ¬ (tag ∈ newTags ∧ tag ∈ goneTags) := fun hmem =>
      Finset.disjoint_left.mp hdisjoint hmem.1 hmem.2
    simp only [TagsMixin.getCurrentScope, Option.getD_some, Finset.mem_sdiff, Finset.mem_union]
    tauto

/-- One call keeps the agreement. -/
theorem Tracks.follow {m : TagsMixin} {s : Scope} (h : Tracks m s) {call : Call T E D}
    (hdisjoint : TagsDisjoint call) : Tracks (m.follow call) (s.call call) := by
  cases call with
  | tags newTags goneTags => exact h.tags hdisjoint
  | startTest test =>
    cases h with
    | outside => exact .inside (by simp)
    | inside htags => exact .inside (by simp)
  | stopTest test =>
    cases h with
    | outside => exact .outside
    | inside htags => exact .outside
  | outcome outcome test => exact h
  | progress offset whence => exact h
  | time aTime => exact h

/-- A run keeps the agreement. -/
theorem Tracks.follow_all {m : TagsMixin} {s : Scope} (h : Tracks m s) {calls : List (Call T E D)}
    (hdisjoint : ∀ call ∈ calls, TagsDisjoint call) :
    Tracks (calls.foldl TagsMixin.follow m) (calls.foldl Scope.call s) := by
  induction calls generalizing m s with
  | nil => exact h
  | cons call calls ih =>
    have hcall := hdisjoint call List.mem_cons_self
    exact ih (h.follow hcall) fun c hc => hdisjoint c (List.mem_cons_of_mem call hc)

/-! ## The scope of a test -/

/-- In a test, notes change nothing outside it. -/
theorem foldl_noteCalls (g : Finset String) (tags : Finset String) (notes : List Note) :
    ∃ tags', (noteCalls (T := T) (E := E) (D := D) notes).foldl Scope.call ⟨g, some tags⟩
      = ⟨g, some tags'⟩ := by
  induction notes generalizing tags with
  | nil => exact ⟨tags, rfl⟩
  | cons note notes ih =>
    rw [noteCalls, List.map_cons, List.foldl_cons, ← noteCalls]
    cases note with
    | tags newTags goneTags => exact ih ((tags ∪ newTags) \ goneTags)
    | progress offset whence => exact ih tags
    | time aTime => exact ih tags

/-- The tags at the outcome of a test are some tags of it. -/
theorem foldl_opening (g : Finset String) (t : OneTest T E D) :
    ∃ tags, t.opening.foldl Scope.call ⟨g, none⟩ = ⟨g, some tags⟩ :=
  foldl_noteCalls g g t.before

/-- A test leaves the tags as they were before it. -/
theorem foldl_calls (g : Finset String) (t : OneTest T E D) :
    t.calls.foldl Scope.call ⟨g, none⟩ = ⟨g, none⟩ := by
  obtain ⟨tags, hopening⟩ := foldl_opening g t
  obtain ⟨tags', hclosing⟩ := @foldl_noteCalls T E D g tags t.after
  have hend : t.closing.foldl Scope.call ⟨g, some tags⟩ = ⟨g, some tags'⟩ := hclosing
  rw [OneTest.calls, List.foldl_append, List.foldl_append, hopening, hend]
  rfl

/-- What is passed on at once is nothing to the tags. -/
theorem scoping_otherCalls (s : Scope) (notes : List Note) :
    scoping.run s (otherCalls (T := T) (E := E) (D := D) notes) = (s, []) := by
  induction notes with
  | nil => rfl
  | cons note notes ih =>
    rw [otherCalls, List.flatMap_cons, ← otherCalls, Transducer.run_append]
    cases note with
    | tags newTags goneTags => exact ih
    | progress offset whence => exact ih
    | time aTime => exact ih

/-- What is kept back makes the changes of all notes. -/
theorem scoping_tagCalls (s : Scope) (notes : List Note) :
    scoping.run s (tagCalls (T := T) (E := E) (D := D) notes)
      = ((noteCalls (T := T) (E := E) (D := D) notes).foldl Scope.call s, []) := by
  induction notes generalizing s with
  | nil => rfl
  | cons note notes ih =>
    rw [tagCalls, List.flatMap_cons, ← tagCalls, Transducer.run_append, noteCalls, List.map_cons,
      List.foldl_cons, ← noteCalls]
    cases note with
    | tags newTags goneTags => exact ih (s.tags newTags goneTags)
    | progress offset whence => exact ih s
    | time aTime => exact ih s

/-- The three calls of a test, with the tags that are active at its outcome. -/
def InContext.scoped (c : InContext Scope T E D) : List (Call T E D × Option (Finset String)) :=
  [(.startTest c.test.test, none), (.outcome c.test.outcome c.test.test, some c.reported.current),
    (.stopTest c.test.test, none)]

theorem scoping_replay (g : Finset String) (t : OneTest T E D) (stopped : Scope) :
    scoping.run ⟨g, none⟩ t.replay
      = (⟨g, none⟩,
          InContext.scoped ⟨t, ⟨g, none⟩, t.opening.foldl Scope.call ⟨g, none⟩, stopped⟩) := by
  obtain ⟨tags, hopening⟩ := foldl_opening g t
  obtain ⟨tags', hclosing⟩ := @foldl_noteCalls T E D g tags t.after
  have hbefore : (noteCalls (T := T) (E := E) (D := D) t.before).foldl Scope.call ⟨g, some g⟩
      = ⟨g, some tags⟩ := hopening
  have hstart : scoping.step ⟨g, none⟩ (.startTest t.test : Call T E D)
      = (⟨g, some g⟩, [(.startTest t.test, none)]) := rfl
  have houtcome : scoping.step ⟨g, some tags⟩ (.outcome t.outcome t.test)
      = (⟨g, some tags⟩, [(.outcome t.outcome t.test, some tags)]) := rfl
  rw [OneTest.replay, List.cons_append, List.cons_append, List.append_assoc, Transducer.run_cons,
    hstart, Transducer.run_append, scoping_tagCalls, hbefore, List.cons_append,
    Transducer.run_cons, houtcome, Transducer.run_append, scoping_tagCalls, hclosing,
    Transducer.run_singleton, hopening]
  rfl

/-! ## The tests that are passed on -/

section Forwarding

variable (predicate : Predicate T E D)

/-- A `_PredicateFilter` makes no call of its own. -/
theorem mem_forwarded {m : TagsMixin} {items : List (Item T E D)} {call : Call T E D}
    (h : call ∈ forwarded predicate m items) : call ∈ runCalls items := by
  induction items generalizing m with
  | nil => simp [forwarded] at h
  | cons item items ih =>
    rw [runCalls, List.flatMap_cons, ← runCalls, List.mem_append]
    rw [forwarded, List.mem_append] at h
    rcases h with h | h
    · left
      cases item with
      | note n => exact h
      | test t =>
        rw [Item.forwarded, List.mem_append] at h
        rcases h with h | h
        · exact t.otherCalls_sublist.subset h
        · split at h
          · exact t.replay_sublist.subset h
          · simp at h
    · exact Or.inr (ih h)

/-- What the receiver sees of an item. -/
theorem scoping_item (m : TagsMixin) (g : Finset String) (t : OneTest T E D)
    (htracks : Tracks (t.opening.foldl TagsMixin.follow m)
      (t.opening.foldl Scope.call ⟨g, none⟩)) (stopped : Scope) :
    scoping.run ⟨g, none⟩ ((Item.test t).forwarded predicate m)
      = (⟨g, none⟩,
          if t.kept predicate (t.opening.foldl Scope.call ⟨g, none⟩).current then
            InContext.scoped ⟨t, ⟨g, none⟩, t.opening.foldl Scope.call ⟨g, none⟩, stopped⟩
          else []) := by
  rw [Item.forwarded, Transducer.run_append, Transducer.run_append, scoping_otherCalls,
    scoping_otherCalls, htracks.getActiveTags]
  by_cases hkept : t.kept predicate (t.opening.foldl Scope.call ⟨g, none⟩).current = true
  · rw [if_pos hkept, if_pos hkept, scoping_replay g t stopped]
    rfl
  · rw [if_neg hkept, if_neg hkept]
    rfl

/-- **Tests and tags that a _PredicateFilter passes on.** -/
theorem scoping_forwarded {m : TagsMixin} {g : Finset String} (htracks : Tracks m ⟨g, none⟩)
    {items : List (Item T E D)} (h : ∀ call ∈ runCalls items, TagsDisjoint call) :
    (scoping.run ⟨g, none⟩ (forwarded predicate m items)).2
      = ((contexts Scope.call ⟨g, none⟩ items).filter fun c =>
          c.test.kept predicate c.reported.current).flatMap InContext.scoped := by
  induction items generalizing m g with
  | nil => rfl
  | cons item items ih =>
    rw [runCalls, List.flatMap_cons, ← runCalls] at h
    have hitem : ∀ call ∈ item.calls, TagsDisjoint call := fun call hcall =>
      h call (List.mem_append_left _ hcall)
    have hitems : ∀ call ∈ runCalls items, TagsDisjoint call := fun call hcall =>
      h call (List.mem_append_right _ hcall)
    have hnext := htracks.follow_all hitem
    rw [forwarded, Transducer.run_append]
    cases item with
    | note n =>
      have hnote : ∃ g', (Scope.mk g none).call (n.call : Call T E D) = ⟨g', none⟩
          ∧ scoping.run ⟨g, none⟩ [(n.call : Call T E D)] = (⟨g', none⟩, []) := by
        cases n with
        | tags newTags goneTags => exact ⟨_, rfl, rfl⟩
        | progress offset whence => exact ⟨g, rfl, rfl⟩
        | time aTime => exact ⟨g, rfl, rfl⟩
      obtain ⟨g', hcall, hseen⟩ := hnote
      have hsource : contexts Scope.call ⟨g, none⟩ (.note n :: items)
          = contexts Scope.call ⟨g', none⟩ items := by
        rw [contexts, hcall]
      have htracks' : Tracks ((Item.note n : Item T E D).calls.foldl TagsMixin.follow m)
          ⟨g', none⟩ := by
        rw [← hcall]
        exact hnext
      rw [Item.forwarded, hseen, hsource, ih htracks' hitems, List.nil_append]
    | test t =>
      have hopening : Tracks (t.opening.foldl TagsMixin.follow m)
          (t.opening.foldl Scope.call ⟨g, none⟩) := htracks.follow_all fun call hcall =>
        hitem call (List.mem_append_left _ (List.mem_append_left _ hcall))
      have htracks' : Tracks ((Item.test t).calls.foldl TagsMixin.follow m) ⟨g, none⟩ := by
        rw [← foldl_calls g t]
        exact hnext
      rw [contexts_test, foldl_calls, scoping_item predicate m g t hopening
        (t.closing.foldl Scope.call (t.opening.foldl Scope.call ⟨g, none⟩)), ih htracks' hitems,
        List.filter_cons]
      by_cases hkept : t.kept predicate (t.opening.foldl Scope.call ⟨g, none⟩).current = true
      · rw [if_pos hkept, if_pos hkept, List.flatMap_cons]
      · rw [if_neg hkept, if_neg hkept, List.nil_append]

end Forwarding

/-! ## The whole filter -/

/-- What the filter makes of outcomes does not touch the tags. -/
theorem tagsDisjoint_fixup (o : Options T E D) (id : T → String) {items : List (Item T E D)}
    (h : ∀ call ∈ runCalls items, TagsDisjoint call) :
    ∀ call ∈ runCalls (items.map (Item.fixup o id)), TagsDisjoint call := by
  intro call hcall
  rw [← map_runCalls] at hcall
  obtain ⟨given, hgiven, rfl⟩ := List.mem_map.mp hcall
  have hdisjoint := h given hgiven
  cases given with
  | tags newTags goneTags => exact hdisjoint
  | startTest test => trivial
  | outcome outcome test => trivial
  | stopTest test => trivial
  | progress offset whence => trivial
  | time aTime => trivial

/-- **Filter correctness.** In a run in which no call adds and removes a tag at
once, the result receives just the tests whose outcome passes with the tags that
are active at it, and has these tags itself at the outcome. -/
theorem filterRun_correct (o : Options T E D) (id : T → String) (items : List (Item T E D))
    (h : ∀ call ∈ runCalls items, TagsDisjoint call) :
    (scoping.run {} (filterRun o id (runCalls items))).2
      = ((contexts Scope.call {} (items.map (Item.fixup o id))).filter fun c =>
          c.test.kept o.predicate c.reported.current).flatMap InContext.scoped := by
  have hfixed := tagsDisjoint_fixup o id h
  rw [scoping_filterRun o id items fun call hcall => hfixed call (mem_forwarded _ hcall)]
  exact scoping_forwarded o.predicate .outside hfixed

/-- A success of its own tags, an error that is known to fail, and a failure. -/
def taggedRun : List (Item String Unit Unit) :=
  [.note (.tags {"a"} ∅), .test ⟨"foo", [.tags {"b"} {"a"}], .success none, []⟩,
    .test ⟨"bar", [], .error (.err ()), []⟩,
    .test ⟨"baz", [.tags {"b"} ∅], .failure (.err ()), [.tags ∅ {"b"}]⟩]

theorem taggedRun_disjoint : ∀ call ∈ runCalls taggedRun, TagsDisjoint call := by
  simp [taggedRun, runCalls, Item.calls, OneTest.calls, OneTest.opening, OneTest.closing,
    noteCalls, Note.call, TagsDisjoint]

theorem filterRun_correct_tagged :
    (scoping.run {} (filterRun { fixupExpectedFailures := some {"bar"} } (fun test => test)
        (runCalls taggedRun))).2
      = [(.startTest "bar", none), (.outcome (.xfail (.err ())) "bar", some {"a"}),
          (.stopTest "bar", none), (.startTest "baz", none),
          (.outcome (.failure (.err ())) "baz", some {"a", "b"}), (.stopTest "baz", none)] :=
  (filterRun_correct { fixupExpectedFailures := some {"bar"} } (fun test => test) taggedRun
    taggedRun_disjoint).trans (by decide)

end Pysubunit.Filter
