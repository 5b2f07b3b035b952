/-
Pysubunit.V2.TagStream — `tag_stream` (`__init__.py`): a stream is decoded, the
tag set of every event is rewritten, and the event is encoded again.

The commands are non-empty: on an empty one `tags_to_new_gone` would raise
`IndexError` before anything is read. The order in which a set of tags is
iterated when it is written is any, and may differ from call to call
(`TagOrders`).

The commands amount to two sets, the unsigned names and the signed ones, and
`tagStream_run` says that this is all that becomes of a stream of encodable
events: every event comes out in its place, with these sets added to its tags
and taken from them.
-/
import Pysubunit.V1.NoteTheorems
import Pysubunit.V2.ForwardTheorems

namespace Pysubunit.V2

open ByteLib
open V1 (tagsToNewGone tagsToNewGone_gone tagsToNewGone_new)

/-- A `TAG` or `-TAG` command. -/
structure TagCommand where
  text : String
  nonempty : text ≠ ""
  deriving DecidableEq

/-- How the tag set of call number `k` is iterated. -/
structure TagOrders where
  order : Nat → Finset String → List String
  enumerates : ∀ k tags, (order k tags : Multiset String) = tags.val

/-- `Tagger.status`, up to the call of the superclass. -/
def taggerStatus (newTags goneTags : Finset String) (e : StatusEvent) : StatusEvent :=
  let tags := e.testTags.getD ∅
  let tags := (tags ∪ newTags) \ goneTags
  { e with testTags := if tags = ∅ then none else some tags }

/-- A call with the event `e`, number `k` of its kind. -/
def TagOrders.call (orders : TagOrders) (k : Nat) (e : StatusEvent) : StatusCall where
  event := e
  tagOrder := orders.order k (e.testTags.getD ∅)
  tagOrder_enumerates := orders.enumerates k _

/-- The events emitted to the `Tagger`, until a call raises. -/
def taggerStatusAll (orders : TagOrders) (w : PartialWrites) (newTags goneTags : Finset String) :
    Nat → OutputStream → List StatusEvent → Except Error Unit × OutputStream
  | _, filtered, [] => (.ok (), filtered)
  | k, filtered, e :: events =>
    match status w filtered (orders.call k (taggerStatus newTags goneTags e)) with
    | (.error x, filtered) => (.error x, filtered)
    | (.ok (), filtered) => taggerStatusAll orders w newTags goneTags (k + 1) filtered events

/-- `tag_stream(original, filtered, tags)` on a fresh output stream -/
def tagStream (polls : Polls) (orders : TagOrders) (w : PartialWrites) (original : Bytes)
    (tags : List TagCommand) : Except Error Unit × OutputStream :=
  let (newTags, goneTags) := tagsToNewGone (tags.map (·.text.toList))
  let source := run polls (some "stdout") original
  match taggerStatusAll orders w newTags goneTags 0 {} (source.events (some "stdout")) with
  | (.error x, filtered) => (.error x, filtered)
  | (.ok (), filtered) => (source.result.map fun _ => (), filtered)

/-! ## What the commands amount to -/

/-- The unsigned names of some commands. -/
def unsignedNames (tags : List TagCommand) : Finset String :=
  ((tags.filter fun tag => tag.text.toList.head? ≠ some '-').map (·.text)).toFinset

/-- The names that a `-` stands before. -/
def signedNames (tags : List TagCommand) : Finset String :=
  ((tags.filter fun tag => tag.text.toList.head? = some '-').map
    fun tag => String.ofList tag.text.toList.tail).toFinset

/-- The commands are split into their unsigned and their signed names. -/
theorem tagsToNewGone_commands (tags : List TagCommand) :
    tagsToNewGone (tags.map (·.text.toList)) = (unsignedNames tags, signedNames tags) := by
  induction tags with
  | nil => rfl
  | cons tag tags ih =>
    rw [List.map_cons]
    by_cases hsign : tag.text.toList.head? = some '-'
    · obtain ⟨gone, htext⟩ := List.head?_eq_some_iff.mp hsign
      rw [htext, tagsToNewGone_gone, ih]
      simp [unsignedNames, signedNames, htext]
    · rw [tagsToNewGone_new hsign, ih, String.ofList_toList]
      simp [unsignedNames, signedNames, hsign]

theorem unsignedNames_perm {tags tags' : List TagCommand} (h : tags.Perm tags') :
    unsignedNames tags = unsignedNames tags' :=
  List.toFinset_eq_of_perm _ _ ((h.filter _).map _)

theorem signedNames_perm {tags tags' : List TagCommand} (h : tags.Perm tags') :
    signedNames tags = signedNames tags' :=
  List.toFinset_eq_of_perm _ _ ((h.filter _).map _)

/-- The event with the commands applied to its tags. -/
def tagged (tags : List TagCommand) (e : StatusEvent) : StatusEvent :=
  let tags := (e.testTags.getD ∅ ∪ unsignedNames tags) \ signedNames tags
  { e with testTags := if tags = ∅ then none else some tags }

theorem tagged_getD (tags : List TagCommand) (e : StatusEvent) :
    (tagged tags e).testTags.getD ∅
      = (e.testTags.getD ∅ ∪ unsignedNames tags) \ signedNames tags := by
  unfold tagged
  dsimp only
  split
  · rename_i hempty
    exact hempty.symm
  · rfl

theorem tagged_congr (tags : List TagCommand) {e e' : StatusEvent}
    (he : e = { e' with testTags := e.testTags })
    (htags : e.testTags.getD ∅ = e'.testTags.getD ∅) : tagged tags e = tagged tags e' := by
  rw [he]
  unfold tagged
  rw [htags]

/-- An empty tag set counts as none. -/
theorem tagged_delivered (tags : List TagCommand) (e : StatusEvent) :
    tagged tags (delivered e) = tagged tags e := by
  refine tagged_congr tags rfl ?_
  unfold delivered
  dsimp only
  cases e.testTags with
  | none => rfl
  | some old =>
    rw [Option.filter_some]
    split
    · rfl
    · rename_i hempty
      have hnone : old = ∅ := by simpa using hempty
      rw [hnone]
      rfl

/-- Applied again, the commands change nothing. -/
theorem tagged_tagged (tags : List TagCommand) (e : StatusEvent) :
    tagged tags (tagged tags e) = tagged tags e := by
  have hagain : (((e.testTags.getD ∅ ∪ unsignedNames tags) \ signedNames tags)
      ∪ unsignedNames tags) \ signedNames tags
      = (e.testTags.getD ∅ ∪ unsignedNames tags) \ signedNames tags := by
    rw [Finset.union_sdiff_distrib, Finset.sdiff_idem, Finset.union_sdiff_distrib,
      Finset.union_assoc, Finset.union_self]
  rw [tagged, tagged_getD, hagain]
  rfl

/-- A rewritten event comes out as it went in. -/
theorem delivered_tagged (tags : List TagCommand) (e : StatusEvent) :
    delivered (tagged tags e) = tagged tags e := by
  unfold delivered tagged
  dsimp only
  split
  · rfl
  · rename_i hne
    rw [Option.filter_some, if_pos (by simpa using hne)]

theorem Encodable.tagged {tags : List TagCommand} (htags : ∀ tag ∈ tags, NulFree tag.text)
    {e : StatusEvent} (h : Encodable e) : Encodable (tagged tags e) where
  testId := h.testId
  testTags := by
    intro new hnew tag htag
    have hmem : tag ∈ (e.testTags.getD ∅ ∪ unsignedNames tags) \ signedNames tags := by
      rw [← tagged_getD, hnew]
      exact htag
    rcases Finset.mem_union.mp (Finset.mem_sdiff.mp hmem).1 with hold | hnew
    · cases hold' : e.testTags with
      | none => simp [hold'] at hold
      | some old =>
        rw [hold'] at hold
        exact h.testTags old hold' tag hold
    · obtain ⟨command, hcommand, rfl⟩ := List.mem_map.mp (List.mem_toFinset.mp hnew)
      exact htags command (List.mem_of_mem_filter hcommand)
  mimeType := h.mimeType
  fileName := h.fileName
  file := h.file
  routeCode := h.routeCode
  timestamp := h.timestamp

/-! ## The rewritten stream -/

/-- The event fits a packet. -/
def Fits (e : StatusEvent) : Prop := wholeLength (7 + fieldsSize e) ≤ maxPacketLength

/-- The calls with the events `es`, the first of them number `k`. -/
def TagOrders.calls (orders : TagOrders) : Nat → List StatusEvent → List StatusCall
  | _, [] => []
  | k, e :: es => orders.call k e :: TagOrders.calls orders (k + 1) es

theorem TagOrders.map_calls {α : Type} (orders : TagOrders) (f : StatusEvent → α) (k : Nat)
    (es : List StatusEvent) : (orders.calls k es).map (fun call => f call.event) = es.map f := by
  induction es generalizing k with
  | nil => rfl
  | cons e es ih => exact congrArg (f e :: ·) (ih (k + 1))

theorem TagOrders.mem_calls {orders : TagOrders} {k : Nat} {es : List StatusEvent}
    {call : StatusCall} (h : call ∈ orders.calls k es) : call.event ∈ es := by
  have hmap := orders.map_calls id k es
  rw [List.map_id] at hmap
  rw [← hmap]
  exact List.mem_map_of_mem h

/-- Events that fit are all written. -/
theorem taggerStatusAll_written (orders : TagOrders) (w : PartialWrites)
    (tags : List TagCommand) (k : Nat) (filtered : OutputStream) {es : List StatusEvent}
    (h : ∀ e ∈ es, Encodable (tagged tags e) ∧ Fits (tagged tags e)) :
    (taggerStatusAll orders w (unsignedNames tags) (signedNames tags) k filtered es).1 = .ok ()
    ∧ (taggerStatusAll orders w (unsignedNames tags) (signedNames tags) k filtered es).2.written
      = filtered.written ++ (orders.calls k (es.map (tagged tags))).flatMap packetBytes := by
  induction es generalizing k filtered with
  | nil => exact ⟨rfl, (List.append_nil _).symm⟩
  | cons e es ih =>
    obtain ⟨⟨hencodable, hfits⟩, hrest⟩ := List.forall_mem_cons.mp h
    have hlen : packetLength (orders.call k (tagged tags e)) ≤ maxPacketLength := by
      rw [packetLength_eq]
      exact hfits
    have hcall : orders.call k (taggerStatus (unsignedNames tags) (signedNames tags) e)
        = orders.call k (tagged tags e) := rfl
    have hwritable : Writable (orders.call k (tagged tags e)).event := hencodable.writable
    rcases status_written w filtered hwritable with ⟨-, hok, hwritten⟩ | ⟨hlong, -⟩
    · obtain ⟨ihok, ihwritten⟩ :=
        ih (k + 1) (status w filtered (orders.call k (tagged tags e))).2 hrest
      rw [taggerStatusAll, hcall]
      generalize status w filtered (orders.call k (tagged tags e)) = r at *
      obtain ⟨r, out⟩ := r
      cases hok
      refine ⟨ihok, ?_⟩
      rw [ihwritten, hwritten, List.map_cons, TagOrders.calls, List.flatMap_cons,
        List.append_assoc]
    · omega

/-- The bytes `data` decode to the events `events`. -/
def DecodesTo (polls : Polls) (name : Option String) (data : Bytes) (events : List StatusEvent) :
    Prop :=
  (run polls name data).result = .ok [] ∧ (run polls name data).events name = events

/-- Encodable events that fit decode to themselves, in any order of their
tags. -/
theorem decodesTo_calls (polls : Polls) (name : Option String) (orders : TagOrders) (k : Nat)
    {es : List StatusEvent} (h : ∀ e ∈ es, Encodable e ∧ Fits e) :
    DecodesTo polls name ((orders.calls k es).flatMap packetBytes) (es.map delivered) := by
  have hwritten : ∀ call ∈ orders.calls k es, Written call ∧ Encodable call.event := by
    intro call hcall
    obtain ⟨hencodable, hfits⟩ := h call.event (TagOrders.mem_calls hcall)
    refine ⟨written_iff.mpr ⟨hencodable.writable, ?_⟩, hencodable⟩
    rw [packetLength_eq]
    exact hfits
  obtain ⟨hevents, hresult⟩ := run_packets polls name
    (rfl : ({} : Codec).midCharacter = false) _ hwritten []
  rw [List.append_nil, runFrom_nil] at hevents hresult
  unfold DecodesTo
  rw [run_eq_runFrom, RunResult.events, hevents, hresult, orders.map_calls]
  exact ⟨rfl, List.append_nil _⟩

/-- One pass of `tag_stream`. -/
theorem tagStream_decodes (polls polls' : Polls) (orders : TagOrders) (w : PartialWrites)
    (name : Option String) (tags : List TagCommand) {original : Bytes} {es : List StatusEvent}
    (horiginal : DecodesTo polls (some "stdout") original es)
    (h : ∀ e ∈ es, Encodable (tagged tags e) ∧ Fits (tagged tags e)) :
    (tagStream polls orders w original tags).1 = .ok ()
    ∧ DecodesTo polls' name (tagStream polls orders w original tags).2.written
        (es.map (tagged tags)) := by
  obtain ⟨hok, hwritten⟩ := taggerStatusAll_written orders w tags 0 {} h
  have hrun : tagStream polls orders w original tags
      = (.ok (), (taggerStatusAll orders w (unsignedNames tags) (signedNames tags) 0 {} es).2) := by
    unfold tagStream
    rw [tagsToNewGone_commands]
    dsimp only
    rw [horiginal.2, horiginal.1]
    generalize taggerStatusAll orders w (unsignedNames tags) (signedNames tags) 0 {} es = r at hok
    obtain ⟨r, out⟩ := r
    cases hok
    rfl
  have htagged : ∀ e ∈ es.map (tagged tags), Encodable e ∧ Fits e := by
    intro e he
    obtain ⟨e', he', rfl⟩ := List.mem_map.mp he
    exact h e' he'
  have hdelivered : (es.map (tagged tags)).map delivered = es.map (tagged tags) := by
    rw [List.map_map]
    exact List.map_congr_left fun e _ => delivered_tagged tags e
  have hdecodes := decodesTo_calls polls' name orders 0 htagged
  rw [hdelivered] at hdecodes
  rw [hrun, hwritten]
  exact ⟨rfl, hdecodes⟩

/-- The commands in another order. -/
theorem tagged_perm {tags tags' : List TagCommand} (h : tags'.Perm tags) :
    tagged tags' = tagged tags := by
  funext e
  unfold tagged
  rw [unsignedNames_perm h, signedNames_perm h]

/-- **`tag_stream` rewrites the tags and nothing else.** A stream of encodable
events comes out as the same events in the same order, the unsigned names added
to the tags of each and the signed names taken from them, in whatever order the
commands were given; and the output put through again comes out the same. -/
theorem tagStream_run (polls polls₁ polls₂ : Polls) (name : Option String)
    (orders₁ orders₂ : TagOrders) (w w₁ w₂ : PartialWrites) (calls : List StatusCall)
    (tags tags' : List TagCommand) (hcalls : ∀ call ∈ calls, Encodable call.event)
    (htags : ∀ tag ∈ tags, NulFree tag.text) (hperm : tags'.Perm tags)
    (hfits : ∀ call ∈ admitted calls, Fits (tagged tags call.event)) :
    let original := (statusAll w {} calls).written
    let once := tagStream polls₁ orders₁ w₁ original tags'
    let twice := tagStream polls₂ orders₂ w₂ once.2.written tags'
    DecodesTo polls name original ((admitted calls).map fun call => delivered call.event)
    ∧ once.1 = .ok ()
    ∧ DecodesTo polls name once.2.written
        ((admitted calls).map fun call => tagged tags call.event)
    ∧ twice.1 = .ok ()
    ∧ DecodesTo polls name twice.2.written
        ((admitted calls).map fun call => tagged tags call.event) := by
  intro original once twice
  have hencodable : ∀ call ∈ admitted calls, Encodable (tagged tags call.event) := by
    intro call hcall
    exact Encodable.tagged htags (hcalls call (List.mem_of_mem_filter hcall))
  have honce := fun polls name => tagStream_decodes polls₁ polls orders₁ w₁ name tags'
    (run_statusAll w polls₁ (some "stdout") calls hcalls) (by
      intro e he
      obtain ⟨call, hcall, rfl⟩ := List.mem_map.mp he
      rw [tagged_perm hperm, tagged_delivered]
      exact ⟨hencodable call hcall, hfits call hcall⟩)
  simp only [tagged_perm hperm, List.map_map, Function.comp_def, tagged_delivered] at honce
  have htwice := tagStream_decodes polls₂ polls orders₂ w₂ name tags'
    (honce polls₂ (some "stdout")).2 (by
      intro e he
      obtain ⟨call, hcall, rfl⟩ := List.mem_map.mp he
      rw [tagged_perm hperm, tagged_tagged]
      exact ⟨hencodable call hcall, hfits call hcall⟩)
  simp only [tagged_perm hperm, List.map_map, Function.comp_def, tagged_tagged] at htwice
  exact ⟨run_statusAll w polls name calls hcalls, (honce polls name).1, (honce polls name).2,
    htwice.1, htwice.2⟩

/-- One order of iteration: downwards. -/
def sortedOrders : TagOrders where
  order _ tags := tags.sort (· ≥ ·)
  enumerates _ tags := tags.sort_eq (· ≥ ·)

/-- A name that is added and one that is removed. -/
def quux : List TagCommand := [⟨"quux", by decide⟩, ⟨"-x", by decide⟩]

/-- The events of a test, with the commands in the other order. -/
theorem tagStream_run_passed :
    let original := (statusAll byteByByte {} testCalls).written
    let once := tagStream inMemory sortedOrders byteByByte original quux.reverse
    let twice := tagStream inMemory sortedOrders byteByByte once.2.written quux.reverse
    DecodesTo inMemory none original (testCalls.map fun call => delivered call.event)
    ∧ once.1 = .ok ()
    ∧ DecodesTo inMemory none once.2.written (testCalls.map fun call => tagged quux call.event)
    ∧ twice.1 = .ok ()
    ∧ DecodesTo inMemory none twice.2.written (testCalls.map fun call => tagged quux call.event) := by
  have h := tagStream_run inMemory inMemory inMemory none sortedOrders sortedOrders byteByByte
    byteByByte byteByByte testCalls quux quux.reverse encodable_testCalls (by decide)
    quux.reverse_perm (fun call hcall => by
      rw [admitted_testCalls] at hcall
      simp only [testCalls, List.mem_cons, List.not_mem_nil, or_false] at hcall
      unfold Fits
      rcases hcall with rfl | rfl | rfl <;> decide +kernel)
  rw [admitted_testCalls] at h
  exact h

end Pysubunit.V2
