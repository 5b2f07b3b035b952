/-
Pysubunit.V2.TagChainTheorems — `tag_stream` after `tag_stream`.

Within a pass a removal beats an addition, but a later pass beats an earlier
one: a name that was taken away is there again if a later pass adds it. So the
commands of two passes are the commands of one, without those removals of the
first that the second makes up for (`tagged_composed`), and a chain of passes
over a stream comes out as a single pass does (`tagStreams_run`).
-/
import Pysubunit.V2.WriteAll

namespace Pysubunit.V2

open ByteLib

/-! ## Commands of several passes -/

/-- The command takes a name away that later commands add. -/
def madeUpFor (later : List TagCommand) (tag : TagCommand) : Bool :=
  tag.text.toList.head? = some '-'
    ∧ String.ofList tag.text.toList.tail ∈ unsignedNames later

/-- The commands of passes one after the other, as those of a single pass. -/
def composed : List (List TagCommand) → List TagCommand
  | [] => []
  | tags :: passes => tags.filter (!madeUpFor (composed passes) ·) ++ composed passes

theorem unsignedNames_append (tags later : List TagCommand) :
    unsignedNames (tags ++ later) = unsignedNames tags ∪ unsignedNames later := by
  simp [unsignedNames]

theorem signedNames_append (tags later : List TagCommand) :
    signedNames (tags ++ later) = signedNames tags ∪ signedNames later := by
  simp [signedNames]

/-- No addition is made up for. -/
theorem unsignedNames_kept (tags later : List TagCommand) :
    unsignedNames (tags.filter (!madeUpFor later ·)) = unsignedNames tags := by
  have hkept : ∀ tag : TagCommand, ((decide (tag.text.toList.head? ≠ some '-'))
      && !madeUpFor later tag) = decide (tag.text.toList.head? ≠ some '-') := by
    intro tag
    by_cases h : tag.text.toList.head? = some '-' <;> simp [madeUpFor, h]
  rw [unsignedNames, unsignedNames, List.filter_filter]
  simp only [hkept]

theorem mem_signedNames {tags : List TagCommand} {name : String} :
    name ∈ signedNames tags ↔ ∃ tag ∈ tags, tag.text.toList = '-' :: name.toList := by
  simp only [signedNames, List.mem_toFinset, List.mem_map, List.mem_filter, decide_eq_true_eq]
  constructor
  · rintro ⟨tag, ⟨htag, hsign⟩, hname⟩
    obtain ⟨gone, htext⟩ := List.head?_eq_some_iff.mp hsign
    exact ⟨tag, htag, by simp [htext, ← hname]⟩
  · rintro ⟨tag, htag, htext⟩
    exact ⟨tag, ⟨htag, by simp [htext]⟩, by simp [htext]⟩

/-- A removal is, if the name is added later. -/
theorem signedNames_kept (tags later : List TagCommand) :
    signedNames (tags.filter (!madeUpFor later ·)) = signedNames tags \ unsignedNames later := by
  ext name
  have hmadeUp : ∀ tag : TagCommand, tag.text.toList = '-' :: name.toList →
      (madeUpFor later tag = true ↔ name ∈ unsignedNames later) := by
    intro tag htext
    simp [madeUpFor, htext]
  rw [Finset.mem_sdiff, mem_signedNames, mem_signedNames]
  constructor
  · intro ⟨tag, htag, htext⟩
    obtain ⟨hmem, hkept⟩ := List.mem_filter.mp htag
    refine ⟨⟨tag, hmem, htext⟩, fun hlater => ?_⟩
    simp [(hmadeUp tag htext).mpr hlater] at hkept
  · intro ⟨⟨tag, hmem, htext⟩, hlater⟩
    refine ⟨tag, List.mem_filter.mpr ⟨hmem, ?_⟩, htext⟩
    simpa using fun h => hlater ((hmadeUp tag htext).mp h)

/-- **The commands of two passes are those of one.** -/
theorem tagged_composed (tags : List TagCommand) (passes : List (List TagCommand))
    (e : StatusEvent) :
    tagged (composed passes) (tagged tags e) = tagged (composed (tags :: passes)) e := by
  have hsets : (((e.testTags.getD ∅ ∪ unsignedNames tags) \ signedNames tags)
        ∪ unsignedNames (composed passes)) \ signedNames (composed passes)
      = (e.testTags.getD ∅ ∪ unsignedNames (composed (tags :: passes)))
        \ signedNames (composed (tags :: passes)) := by
    rw [composed, unsignedNames_append, signedNames_append, unsignedNames_kept, signedNames_kept]
    ext tag
    simp only [Finset.mem_sdiff, Finset.mem_union]
    tauto
  rw [tagged, tagged_getD, hsets]
  rfl

theorem composed_singleton (tags : List TagCommand) : composed [tags] = tags := by
  have hnone : ∀ tag : TagCommand, madeUpFor [] tag = false := by
    intro tag
    simp [madeUpFor, unsignedNames]
  simp [composed, hnone]

theorem mem_composed {passes : List (List TagCommand)} {tag : TagCommand}
    (h : tag ∈ composed passes) : ∃ tags ∈ passes, tag ∈ tags := by
  induction passes with
  | nil => simp [composed] at h
  | cons tags passes ih =>
    rcases List.mem_append.mp h with h | h
    · exact ⟨tags, List.mem_cons_self, List.mem_of_mem_filter h⟩
    · obtain ⟨tags', htags', htag⟩ := ih h
      exact ⟨tags', List.mem_cons_of_mem tags htags', htag⟩

/-! ## Passes over a stream -/

/-- A run of `subunit-tags`: how its input is polled, its sets are iterated and its writes go, and
its arguments. -/
structure TagPass where
  polls : Polls
  orders : TagOrders
  writes : PartialWrites
  tags : List TagCommand

/-- What the last of some passes has written, each reading what the one before has. -/
def tagStreams : List TagPass → Bytes → Except Error Unit × Bytes
  | [], original => (.ok (), original)
  | pass :: passes, original =>
    match tagStream pass.polls pass.orders pass.writes original pass.tags with
    | (.error e, filtered) => (.error e, filtered.written)
    | (.ok (), filtered) => tagStreams passes filtered.written

/-- The events, as they stand after each of the passes, fit packets. -/
def FitThroughout (passes : List (List TagCommand)) (es : List StatusEvent) : Prop :=
  ∀ front, front <+: passes → front ≠ [] → ∀ e ∈ es, Fits (tagged (composed front) e)

theorem FitThroughout.rest {tags : List TagCommand} {passes : List (List TagCommand)}
    {es : List StatusEvent} (h : FitThroughout (tags :: passes) es) :
    FitThroughout passes (es.map (tagged tags)) := by
  intro front hfront hne e he
  obtain ⟨e', he', rfl⟩ := List.mem_map.mp he
  rw [tagged_composed]
  exact h (tags :: front) (List.cons_prefix_cons.mpr ⟨rfl, hfront⟩) (by simp) e' he'

theorem FitThroughout.first {tags : List TagCommand} {passes : List (List TagCommand)}
    {es : List StatusEvent} (h : FitThroughout (tags :: passes) es) :
    ∀ e ∈ es, Fits (tagged tags e) := by
  intro e he
  have hfits := h [tags] (by simp) (by simp) e he
  rwa [composed_singleton] at hfits

/-- **One pass**, and the rest go on with what it has written. -/
theorem tagStreams_cons {first : TagPass} (rest : List TagPass) {original : Bytes}
    {es : List StatusEvent} (horiginal : ∀ polls, DecodesTo polls (some "stdout") original es)
    (hes : ∀ e ∈ es, Encodable (tagged first.tags e) ∧ Fits (tagged first.tags e)) :
    ∃ written, tagStreams (first :: rest) original = tagStreams rest written
      ∧ ∀ polls name, DecodesTo polls name written (es.map (tagged first.tags)) := by
  have hpass := fun polls name => tagStream_decodes first.polls polls first.orders first.writes name
    first.tags (horiginal first.polls) hes
  refine ⟨_, ?_, fun polls name => (hpass polls name).2⟩
  have hok := (hpass first.polls none).1
  rw [tagStreams]
  generalize tagStream first.polls first.orders first.writes original first.tags = r at hok
  obtain ⟨r, filtered⟩ := r
  cases hok
  rfl

/-- What the last pass writes. -/
theorem tagStreams_decodes {first : TagPass} {rest : List TagPass} {original : Bytes}
    {es : List StatusEvent} (horiginal : ∀ polls, DecodesTo polls (some "stdout") original es)
    (hes : ∀ e ∈ es, Encodable e)
    (htags : ∀ pass ∈ first :: rest, ∀ tag ∈ pass.tags, NulFree tag.text)
    (hfits : FitThroughout ((first :: rest).map TagPass.tags) es) :
    (tagStreams (first :: rest) original).1 = .ok ()
    ∧ ∀ polls name, DecodesTo polls name (tagStreams (first :: rest) original).2
        (es.map (tagged (composed ((first :: rest).map TagPass.tags)))) := by
  induction rest generalizing first original es with
  | nil =>
    obtain ⟨written, hnext, hdecodes⟩ := @tagStreams_cons first [] original es horiginal fun e he =>
      ⟨Encodable.tagged (htags first List.mem_cons_self) (hes e he), hfits.first e he⟩
    rw [hnext, List.map_singleton, composed_singleton]
    exact ⟨rfl, hdecodes⟩
  | cons second rest ih =>
    have honce : ∀ e ∈ es, Encodable (tagged first.tags e) := fun e he =>
      Encodable.tagged (htags first List.mem_cons_self) (hes e he)
    obtain ⟨written, hnext, hdecodes⟩ :=
      @tagStreams_cons first (second :: rest) original es horiginal fun e he =>
        ⟨honce e he, hfits.first e he⟩
    have hes' : ∀ e ∈ es.map (tagged first.tags), Encodable e := by
      intro e he
      obtain ⟨e', he', rfl⟩ := List.mem_map.mp he
      exact honce e' he'
    have hrest := ih (fun polls => hdecodes polls (some "stdout")) hes'
      (fun pass hpass => htags pass (List.mem_cons_of_mem first hpass)) hfits.rest
    have htwice : (es.map (tagged first.tags)).map
          (tagged (composed ((second :: rest).map TagPass.tags)))
        = es.map (tagged (composed ((first :: second :: rest).map TagPass.tags))) := by
      rw [List.map_map]
      exact List.map_congr_left fun e _ => tagged_composed _ _ e
    rw [hnext, ← htwice]
    exact hrest

/-- **A chain of `tag_stream`s is a single one.** However many passes a stream of encodable events
goes through, with whatever commands without U+0000 that leave every event short enough for a
packet, what comes out of the last decodes to the events that come out of one pass with the
commands put together, where an earlier removal of a name is left out if a later pass adds the
name; none of them raises. -/
theorem tagStreams_run (alone first : TagPass) (rest : List TagPass) {original : Bytes}
    {es : List StatusEvent} (horiginal : ∀ polls, DecodesTo polls (some "stdout") original es)
    (hes : ∀ e ∈ es, Encodable e)
    (htags : ∀ pass ∈ first :: rest, ∀ tag ∈ pass.tags, NulFree tag.text)
    (hfits : FitThroughout ((first :: rest).map TagPass.tags) es)
    (halone : alone.tags = composed ((first :: rest).map TagPass.tags)) :
    let chained := tagStreams (first :: rest) original
    let single := tagStreams [alone] original
    chained.1 = .ok () ∧ single.1 = .ok ()
    ∧ ∀ polls name, DecodesTo polls name chained.2 (es.map (tagged alone.tags))
        ∧ DecodesTo polls name single.2 (es.map (tagged alone.tags)) := by
  intro chained single
  obtain ⟨hok, hdecodes⟩ := tagStreams_decodes horiginal hes htags hfits
  have hnul : ∀ tag ∈ alone.tags, NulFree tag.text := by
    intro tag htag
    rw [halone] at htag
    obtain ⟨tags, htags', htag⟩ := mem_composed htag
    obtain ⟨pass, hpass, rfl⟩ := List.mem_map.mp htags'
    exact htags pass hpass tag htag
  have hfits' : ∀ e ∈ es, Fits (tagged alone.tags e) := by
    rw [halone]
    exact hfits _ List.prefix_rfl (by simp)
  obtain ⟨written, hsingle, hdecodes'⟩ := @tagStreams_cons alone [] original es horiginal
    fun e he => ⟨Encodable.tagged hnul (hes e he), hfits' e he⟩
  have hwritten : single = (.ok (), written) := hsingle
  rw [hwritten]
  refine ⟨hok, rfl, fun polls name => ⟨?_, hdecodes' polls name⟩⟩
  rw [halone]
  exact hdecodes polls name

/-- A name that the commands of `quux` take away. -/
def addX : List TagCommand := [⟨"x", by decide⟩]

/-- `subunit-tags quux -x | subunit-tags x` -/
def quuxThenX : List TagPass :=
  [⟨inMemory, sortedOrders, byteByByte, quux⟩, ⟨inMemory, sortedOrders, byteByByte, addX⟩]

/-- `subunit-tags quux x` -/
def quuxAndX : TagPass := ⟨inMemory, sortedOrders, byteByByte, quux.take 1 ++ addX⟩

theorem quuxThenX_fit :
    FitThroughout (quuxThenX.map TagPass.tags) (testCalls.map fun call => delivered call.event) := by
  intro front hfront hne e he
  have hfronts : ∀ passes ∈ (quuxThenX.map TagPass.tags).inits.tail,
      Fits (tagged (composed passes) e) := by
    simp only [testCalls, List.map_cons, List.map_nil, List.mem_cons, List.not_mem_nil,
      or_false] at he
    unfold Fits
    rcases he with rfl | rfl | rfl <;> decide +kernel
  refine hfronts front ?_
  have hmem := (List.mem_inits _ _).mpr hfront
  rcases List.mem_cons.mp hmem with rfl | hmem
  · exact absurd rfl hne
  · exact hmem

theorem tagStreams_run_overridden :
    let original := (statusAll byteByByte {} testCalls).written
    let events := testCalls.map fun call => delivered call.event
    let chained := tagStreams quuxThenX original
    let single := tagStreams [quuxAndX] original
    chained.1 = .ok () ∧ single.1 = .ok ()
    ∧ ∀ polls name,
      DecodesTo polls name chained.2 (events.map (tagged quuxAndX.tags))
        ∧ DecodesTo polls name single.2 (events.map (tagged quuxAndX.tags)) := by
  intro original events
  refine tagStreams_run quuxAndX _ _ (fun polls => ?_) (fun e he => ?_) (by decide) quuxThenX_fit
    (by decide +kernel)
  · have hrun := run_statusAll byteByByte polls (some "stdout") testCalls encodable_testCalls
    rwa [admitted_testCalls] at hrun
  · obtain ⟨call, hcall, rfl⟩ := List.mem_map.mp he
    exact (encodable_testCalls call hcall).delivered

end Pysubunit.V2
