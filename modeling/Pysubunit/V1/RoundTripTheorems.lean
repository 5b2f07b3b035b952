/-
Pysubunit.V1.RoundTripTheorems — what `TestProtocolClient` writes,
`TestProtocolServer` reads.

Each call of the client is read on its own: notes (tags and progress) in any
state outside a details region, the start of a test, and an outcome with its
details (`reads_note`, `reads_startTest`, `readBack_outcome`). `ReadBack` says
that what some calls write leads to the calls that should be received; the run
of a well-bracketed list is put together from such facts (`calls_roundTrip`).
-/
import Pysubunit.V1.NoteTheorems
import Pysubunit.V1.RegionTheorems

namespace Pysubunit.V1

open ByteLib

/-! ## Calls that can be sent -/

/-- A test id that the line protocol can carry. -/
def IdOk (test : RemotedTestCase) : Prop :=
  '\n' ∉ test.description.toList ∧ HasWord test.description.toList

instance (test : RemotedTestCase) : Decidable (IdOk test) := inferInstanceAs (Decidable (_ ∧ _))

/-- A call within the conditions of the round trip. -/
inductive Sendable : Call → Prop where
  | startTest {test : RemotedTestCase} (h : IdOk test) : Sendable (.startTest test)
  | stopTest {test : RemotedTestCase} : Sendable (.stopTest test)
  | withDetails {label : Outcome} {test : RemotedTestCase} {details : Details} (h : IdOk test)
      (hd : DetailsOk details) : Sendable (.outcome label test (some details))
  | withoutDetails {label : Outcome} {test : RemotedTestCase} (h : IdOk test)
      (hlabel : label = .success ∨ label = .uxsuccess) : Sendable (.outcome label test none)
  | tags {newTags goneTags : Finset String} (hnew : ∀ t ∈ newTags, IsWord t.toList)
      (hdash : ∀ t ∈ newTags, t.toList.head? ≠ some '-') (hgone : ∀ t ∈ goneTags, IsWord t.toList) :
      Sendable (.tags newTags goneTags)
  | progressCur {n : Int} : Sendable (.progress (some n) .cur)
  | progressSet {n : Int} (h : 0 ≤ n) : Sendable (.progress (some n) .set)
  | progressPush {offset : Option Int} : Sendable (.progress offset .push)
  | progressPop {offset : Option Int} : Sendable (.progress offset .pop)

/-- Tags and progress, which may come anywhere but between an outcome and the
end of its test. -/
def IsNote : Call → Prop
  | .tags _ _ => True
  | .progress _ _ => True
  | _ => False

/-- Tests one after the other, each with its outcome, and notes. -/
inductive WellBracketed : List Call → Prop where
  | nil : WellBracketed []
  | note {call : Call} {calls : List Call} (hcall : IsNote call) (h : WellBracketed calls) :
      WellBracketed (call :: calls)
  | test {test : RemotedTestCase} {notes calls : List Call} {label : Outcome}
      {details : Option Details} (hnotes : ∀ c ∈ notes, IsNote c) (h : WellBracketed calls) :
      WellBracketed (.startTest test :: notes
        ++ .outcome label test details :: .stopTest test :: calls)

/-! ## What is received -/

/-- What the client of the server receives for a call that is sent. -/
inductive Delivers : Call → List Call → Prop where
  | startTest {test : RemotedTestCase} : Delivers (.startTest test) [.startTest test]
  | stopTest {test : RemotedTestCase} : Delivers (.stopTest test) [.stopTest test]
  | withDetails {label : Outcome} {test : RemotedTestCase} {sent got : Details}
      (h : SameDetails sent got) :
      Delivers (.outcome label test (some sent)) [.outcome label test (some got)]
  | withoutDetails {label : Outcome} {test : RemotedTestCase} :
      Delivers (.outcome label test none) [.outcome label test label.noDetails]
  | noTags : Delivers (.tags ∅ ∅) []
  | tags {newTags goneTags : Finset String} (h : ¬ (newTags = ∅ ∧ goneTags = ∅)) :
      Delivers (.tags newTags goneTags) [.tags newTags goneTags]
  | progressCur {n : Int} : Delivers (.progress (some n) .cur) [.progress (some n) .cur]
  | progressSet {n : Int} : Delivers (.progress (some n) .set) [.progress (some n) .set]
  | progressPush {offset : Option Int} : Delivers (.progress offset .push) [.progress none .push]
  | progressPop {offset : Option Int} : Delivers (.progress offset .pop) [.progress none .pop]

/-! ## Notes -/

section Notes

variable {parseDate : Bytes → Except Error DateTime} {s : Server}

/-- **A note is read wherever a directive can stand.** -/
theorem reads_note (hs : TakesCommands s) {setOrder : Finset Bytes → List Bytes}
    (horder : ∀ tags, (setOrder tags).toFinset = tags) (traceback : String → List Bytes)
    {call : Call} (hnote : IsNote call) (hsend : Sendable call) :
    ∃ written os, Client.write setOrder traceback call = .ok written
      ∧ Reads parseDate s written os s ∧ Delivers call (received os) := by
  cases hsend with
  | startTest h => cases hnote
  | stopTest => cases hnote
  | withDetails h hd => cases hnote
  | withoutDetails h hlabel => cases hnote
  | @tags newTags goneTags hnew hdash hgone =>
    by_cases hne : newTags = ∅ ∧ goneTags = ∅
    · obtain ⟨rfl, rfl⟩ := hne
      exact ⟨[], [], by simp [Client.write, Client.tags], .nil parseDate s, .noTags⟩
    · obtain ⟨line, hreads⟩ := @reads_tags parseDate s hs setOrder horder _ _ hne hnew hdash
        fun t ht => (hgone t ht).2
      exact ⟨_, _, rfl, hreads, .tags hne⟩
  | @progressCur n =>
    by_cases hn : -1 < n
    · refine ⟨_, _, by simp only [Client.write, Client.progress, if_pos hn],
        reads_progress hs (by simp) ?_ (progressOf_plus hn), .progressCur⟩
      intro b hb
      rcases List.mem_cons.mp hb with rfl | hb
      · decide
      · exact noSpace_decimal n b hb
    · exact ⟨_, _, by simp only [Client.write, Client.progress, if_neg hn],
        reads_progress hs (decimal_ne_nil n) (noSpace_decimal n) (progressOf_minus hn), .progressCur⟩
  | progressSet h =>
    exact ⟨_, _, rfl, reads_progress hs (decimal_ne_nil _) (noSpace_decimal _) (progressOf_set h),
      .progressSet⟩
  | progressPush =>
    exact ⟨_, _, rfl, reads_progress hs (by decide) (by decide) rfl, .progressPush⟩
  | progressPop =>
    exact ⟨_, _, rfl, reads_progress hs (by decide) (by decide) rfl, .progressPop⟩

end Notes

/-! ## Test lines -/

section TestLines

variable {parseDate : Bytes → Except Error DateTime} {s : Server}

/-- The start of a test. -/
theorem reads_startTest (hs : s.state = .outsideTest) {test : RemotedTestCase} (h : IdOk test) :
    ∃ line, Reads parseDate s (Client.startTest test) [.call (.startTest test), .subunit line]
      ⟨.inTest, some test, .some test.description⟩ := by
  obtain ⟨hdir, hdecode⟩ := @directive_text (ascii "test") .startTest (by decide) (by decide)
    test.description h.2
  refine ⟨ascii "test" ++ [58, 32] ++ Client.testId test ++ [10], ?_⟩
  show Reads parseDate s (ascii "test" ++ [58, 32] ++ Client.testId test ++ [10]) _ _
  refine Reads.line ?_ ?_
  · rw [List.mem_append, not_or]
    exact ⟨by decide, newline_not_mem_encode h.1⟩
  · unfold Server.lineReceived
    rw [hs]
    simp only [Server.commandReceived, Client.testId, hdir, Bool.false_eq_true, if_false,
      Server.startTest, hdecode]

/-- The name of an outcome on the wire. -/
def outcomeName : Outcome → String
  | .error => "error"
  | .failure => "failure"
  | .skip => "skip"
  | .success => "successful"
  | .xfail => "xfail"
  | .uxsuccess => "uxsuccess"

theorem outcomeName_command (label : Outcome) :
    IsName (ascii (outcomeName label))
      ∧ commandOf (ascii (outcomeName label)) = some (.outcome label)
      ∧ 10 ∉ ascii (outcomeName label) ++ [58, 32] := by
  cases label <;> decide

/-- The line of an outcome with a text. -/
def outcomeLine (label : Outcome) (text : String) : Bytes :=
  ascii (outcomeName label) ++ [58, 32] ++ Utf8.encode text.toList

/-- An outcome line inside a test, if its text is one the test answers to. -/
theorem reads_outcomeLine {label : Outcome} {test : RemotedTestCase} {text : String}
    (hline : '\n' ∉ text.toList) (htext : HasWord text.toList)
    {os : List Output} {s' : Server}
    (h : ∀ line offset, decodeLine (line.drop offset) = .ok text →
      Server.outcome ⟨.inTest, some test, .some test.description⟩ label offset line
        = { server := s', outputs := os ++ [.subunit line] }) :
    Reads parseDate ⟨.inTest, some test, .some test.description⟩ (outcomeLine label text ++ [10])
      (os ++ [.subunit (outcomeLine label text ++ [10])]) s' := by
  obtain ⟨hname, hcommand, hnewline⟩ := outcomeName_command label
  obtain ⟨hdir, hdecode⟩ := directive_text hname hcommand htext
  refine Reads.line ?_ ?_
  · rw [outcomeLine, List.mem_append, not_or]
    exact ⟨hnewline, newline_not_mem_encode hline⟩
  · simp only [Server.lineReceived, Server.commandReceived, outcomeLine, hdir, if_true,
      h _ _ hdecode]

/-- The line of an outcome without details. -/
theorem reads_outcome (label : Outcome) {test : RemotedTestCase} (h : IdOk test) :
    Reads parseDate ⟨.inTest, some test, .some test.description⟩
      (outcomeLine label test.description ++ [10])
      ([.call (.outcome label test label.noDetails), .call (.stopTest test)]
        ++ [.subunit (outcomeLine label test.description ++ [10])])
      ⟨.outsideTest, none, .none⟩ := by
  refine reads_outcomeLine h.1 h.2 fun line offset hdecode => ?_
  simp [Server.outcome, hdecode, Server.onCurrentTest]

theorem append_ne_self {s t : String} (h : t.toList ≠ []) : s ++ t ≠ s := by
  intro heq
  have := congrArg String.toList heq
  rw [String.toList_append] at this
  exact h (List.append_right_eq_self.mp this)

/-- A test id with more behind it is a line with a word. -/
theorem IdOk.append {test : RemotedTestCase} (h : IdOk test) {suffix : String}
    (hsuffix : '\n' ∉ suffix.toList) :
    '\n' ∉ (test.description ++ suffix).toList
      ∧ HasWord (test.description ++ suffix).toList := by
  obtain ⟨c, hc, hspace⟩ := h.2
  rw [String.toList_append, List.mem_append, not_or]
  exact ⟨⟨h.1, hsuffix⟩, c, List.mem_append_left _ hc, hspace⟩

/-- The line of an outcome that begins a multipart region. -/
theorem reads_beginMultipart (label : Outcome) {test : RemotedTestCase} (h : IdOk test) :
    Reads parseDate ⟨.inTest, some test, .some test.description⟩
      (outcomeLine label (test.description ++ Server.startMultipart) ++ [10])
      ([] ++ [.subunit (outcomeLine label (test.description ++ Server.startMultipart) ++ [10])])
      ⟨.readingDetails label .newMultipart, some test, .some test.description⟩ := by
  obtain ⟨hline, htext⟩ := @IdOk.append test h Server.startMultipart (by decide)
  have hplain : test.description ≠ test.description ++ Server.startMultipart :=
    (append_ne_self (by decide)).symm
  have hsimple : test.description ++ Server.startSimple
      ≠ test.description ++ Server.startMultipart := by
    intro heq
    have := congrArg String.toList heq
    rw [String.toList_append, String.toList_append] at this
    exact absurd (List.append_cancel_left this) (by decide)
  refine reads_outcomeLine hline htext fun line offset hdecode => ?_
  simp [Server.outcome, hdecode, hplain, hsimple]

end TestLines

/-! ## Outcomes -/

section Outcomes

variable {parseDate : Bytes → Except Error DateTime}

/-- A server inside a region hands its lines to the parser of the region. -/
theorem linesReceived_region {label : Outcome} {p p' : DetailsParser} {region : List Bytes}
    (h : Feeds p region p') (test : Option RemotedTestCase) (description : Attribute String) :
    Server.linesReceived parseDate ⟨.readingDetails label p, test, description⟩ region
      = { server := ⟨.readingDetails label p', test, description⟩, outputs := region.map .subunit } := by
  induction h with
  | nil => rfl
  | snoc h hline ih =>
    rw [linesReceived_append parseDate ih]
    simp [Server.linesReceived, Server.lineReceived, Server.detailsLineReceived, hline]

/-- The line that ends a region. -/
theorem reads_endMarker (label : Outcome) (details : Details) (test : RemotedTestCase) :
    Reads parseDate
      ⟨.readingDetails label (.multipart details .lookForContent), some test, .some test.description⟩
      (ascii "]" ++ [10])
      [.call (.outcome label test (some details)), .call (.stopTest test),
        .subunit (ascii "]" ++ [10])] ⟨.outsideTest, some test, .none⟩ := by
  have hend : ascii "]" ++ [10] = endMarker := by decide
  refine Reads.line (by decide) ?_
  simp [Server.lineReceived, Server.detailsLineReceived, DetailsParser.lineReceived,
    DetailsParser.lookForContent, hend, Server.endDetails, Server.onCurrentTest,
    DetailsParser.getDetails]

theorem latin1_outcomeName (label : Outcome) :
    Client.latin1 (outcomeName label ++ ": ") = .ok (ascii (outcomeName label) ++ [58, 32]) := by
  cases label <;> decide

/-- What an outcome with details writes. -/
theorem addOutcome_details (label : Outcome) (test : RemotedTestCase) {details : Details}
    {parts : Bytes} (hparts : Client.writeParts (Client.sortedItems details) = .ok parts)
    (errorPermitted : Bool) :
    Client.addOutcome (outcomeName label) test none (some details) errorPermitted
      = .ok ((outcomeLine label (test.description ++ Server.startMultipart) ++ [10])
          ++ parts ++ (ascii "]" ++ [10])) := by
  have hline : outcomeLine label (test.description ++ Server.startMultipart) ++ [10]
      = ascii (outcomeName label) ++ [58, 32] ++ Client.testId test ++ ascii " [ multipart\n" := by
    rw [outcomeLine, String.toList_append, Utf8.encode_append, Client.testId]
    simp only [List.append_assoc]
    rfl
  have hmarker : ascii "]\n" = ascii "]" ++ [10] := by decide
  have hbody : Client.outcomeBody none (some details) = .ok (ascii " [ multipart\n" ++ parts) := by
    rw [Client.outcomeBody, Client.writeDetails, hparts]
    rfl
  unfold Client.addOutcome
  rw [latin1_outcomeName, hbody, hline, ← hmarker]
  simp [bind, Except.bind, pure, Except.pure]

/-- What an outcome without details writes. -/
theorem addOutcome_plain (label : Outcome) (test : RemotedTestCase) :
    Client.addOutcome (outcomeName label) test none none false
      = .ok (outcomeLine label test.description ++ [10]) := by
  unfold Client.addOutcome
  rw [latin1_outcomeName]
  simp [Client.outcomeBody, outcomeLine, Client.testId, bind, Except.bind, pure, Except.pure]
  rfl

theorem write_details {setOrder : Finset Bytes → List Bytes} {traceback : String → List Bytes}
    (label : Outcome) (test : RemotedTestCase) (details : Details) :
    ∃ errorPermitted, Client.write setOrder traceback (.outcome label test (some details))
      = Client.addOutcome (outcomeName label) test none (some details) errorPermitted := by
  cases label
  · exact ⟨true, rfl⟩
  · exact ⟨true, rfl⟩
  · exact ⟨true, rfl⟩
  · exact ⟨false, rfl⟩
  · exact ⟨true, rfl⟩
  · exact ⟨false, rfl⟩

end Outcomes

/-! ## Whole runs -/

section Runs

variable (parseDate : Bytes → Except Error DateTime) (setOrder : Finset Bytes → List Bytes)
  (traceback : String → List Bytes)

/-- What the calls write, a server in state `s` reads, making the calls that it
should. -/
def ReadBack (s : Server) (calls : List Call) (s' : Server) : Prop :=
  ∃ written os blocks, Client.writeAll setOrder traceback calls = .ok written
    ∧ Reads parseDate s written os s' ∧ List.Forall₂ Delivers calls blocks
    ∧ received os = blocks.flatten

variable {parseDate setOrder traceback}

theorem ReadBack.nil (s : Server) : ReadBack parseDate setOrder traceback s [] s :=
  ⟨[], [], [], rfl, .nil parseDate s, .nil, rfl⟩

theorem writeAll_append {a b : List Call} {written written' : Bytes}
    (ha : Client.writeAll setOrder traceback a = .ok written)
    (hb : Client.writeAll setOrder traceback b = .ok written') :
    Client.writeAll setOrder traceback (a ++ b) = .ok (written ++ written') := by
  induction a generalizing written with
  | nil =>
    cases ha
    exact hb
  | cons call a ih =>
    rw [Client.writeAll] at ha
    rw [List.cons_append, Client.writeAll]
    cases hcall : Client.write setOrder traceback call with
    | error e =>
      rw [hcall] at ha
      cases ha
    | ok first =>
      rw [hcall] at ha
      cases hrest : Client.writeAll setOrder traceback a with
      | error e =>
        rw [hrest] at ha
        cases ha
      | ok rest =>
        rw [hrest] at ha
        cases ha
        rw [ih hrest]
        simp [bind, Except.bind, pure, Except.pure]

theorem ReadBack.append {s s' s'' : Server} {a b : List Call}
    (ha : ReadBack parseDate setOrder traceback s a s')
    (hb : ReadBack parseDate setOrder traceback s' b s'') :
    ReadBack parseDate setOrder traceback s (a ++ b) s'' := by
  obtain ⟨written, os, blocks, hwrite, hreads, hdelivers, hreceived⟩ := ha
  obtain ⟨written', os', blocks', hwrite', hreads', hdelivers', hreceived'⟩ := hb
  refine ⟨_, _, blocks ++ blocks', writeAll_append hwrite hwrite', hreads.append hreads',
    List.rel_append hdelivers hdelivers', ?_⟩
  rw [received_append, hreceived, hreceived', List.flatten_append]

/-- A single call. -/
theorem ReadBack.one {s s' : Server} {call : Call} {written : Bytes} {os : List Output}
    (hwrite : Client.write setOrder traceback call = .ok written)
    (hreads : Reads parseDate s written os s') (hdelivers : Delivers call (received os)) :
    ReadBack parseDate setOrder traceback s [call] s' := by
  refine ⟨written, os, [received os], ?_, hreads, .cons hdelivers .nil, by simp⟩
  rw [Client.writeAll, hwrite]
  simp [Client.writeAll, bind, Except.bind, pure, Except.pure]

variable (horder : ∀ tags, (setOrder tags).toFinset = tags)
include horder

theorem readBack_notes {s : Server} (hs : TakesCommands s) {notes : List Call}
    (hnotes : ∀ c ∈ notes, IsNote c) (hsend : ∀ c ∈ notes, Sendable c) :
    ReadBack parseDate setOrder traceback s notes s := by
  induction notes with
  | nil => exact .nil s
  | cons call notes ih =>
    obtain ⟨written, os, hwrite, hreads, hdelivers⟩ := reads_note hs horder traceback
      (hnotes call (by simp)) (hsend call (by simp))
    have hrest := ih (fun c hc => hnotes c (by simp [hc])) fun c hc => hsend c (by simp [hc])
    exact (ReadBack.one hwrite hreads hdelivers).append hrest

omit horder

theorem readBack_startTest {s : Server} (hs : s.state = .outsideTest) {test : RemotedTestCase}
    (h : IdOk test) :
    ReadBack parseDate setOrder traceback s [.startTest test]
      ⟨.inTest, some test, .some test.description⟩ := by
  obtain ⟨line, hreads⟩ := @reads_startTest parseDate s hs test h
  exact .one rfl hreads .startTest

/-- An outcome and the end of its test. -/
theorem readBack_outcome {label : Outcome} {test : RemotedTestCase} {details : Option Details}
    (hsend : Sendable (.outcome label test details)) :
    ∃ s', s'.state = .outsideTest
      ∧ ReadBack parseDate setOrder traceback ⟨.inTest, some test, .some test.description⟩
        [.outcome label test details, .stopTest test] s' := by
  cases hsend with
  | @withDetails _ _ details h hd =>
    have hitems : ∀ item ∈ Client.sortedItems details,
        AsciiLine item.1 ∧ PlainType item.2.contentType := by
      intro item hitem
      exact hd _ _ (mem_sortedItems.mp hitem)
    obtain ⟨parts, hparts, hterm, hfeeds⟩ := parts_read hitems
    obtain ⟨errorPermitted, hwrite⟩ := @write_details setOrder traceback label test details
    rw [addOutcome_details label test hparts] at hwrite
    have hregion : Reads parseDate
        ⟨.readingDetails label .newMultipart, some test, .some test.description⟩ parts
        ((lines parts).map .subunit)
        ⟨.readingDetails label (.multipart (insertAll ∅ (Client.sortedItems details))
          .lookForContent), some test, .some test.description⟩ :=
      ⟨hterm, linesReceived_region (hfeeds ∅) _ _⟩
    have hreads := ((reads_beginMultipart label h).append hregion).append
      (reads_endMarker label (insertAll ∅ (Client.sortedItems details)) test)
    refine ⟨_, rfl, _, _, [[.outcome label test (some _)], [.stopTest test]], ?_, hreads,
      .cons (.withDetails (sameDetails_insertAll details)) (.cons .stopTest .nil), ?_⟩
    · rw [Client.writeAll, hwrite]
      simp [Client.writeAll, Client.write, bind, Except.bind, pure, Except.pure]
    · have hquiet : received ((lines parts).map .subunit) = [] := by
        rw [received, List.filterMap_map, List.filterMap_eq_nil_iff]
        intro line _
        rfl
      rw [received_append, received_append, hquiet]
      rfl
  | withoutDetails h hlabel =>
    have hwrite : Client.write setOrder traceback (.outcome label test none)
        = .ok (outcomeLine label test.description ++ [10]) := by
      rcases hlabel with rfl | rfl
      · exact addOutcome_plain .success test
      · exact addOutcome_plain .uxsuccess test
    refine ⟨_, rfl, _, _, [[.outcome label test label.noDetails], [.stopTest test]], ?_,
      reads_outcome label h, .cons .withoutDetails (.cons .stopTest .nil), rfl⟩
    rw [Client.writeAll, hwrite]
    simp [Client.writeAll, Client.write, bind, Except.bind, pure, Except.pure]

include horder

theorem readBack_wellBracketed {calls : List Call} (hcalls : WellBracketed calls)
    (hsend : ∀ c ∈ calls, Sendable c) {s : Server} (hs : s.state = .outsideTest) :
    ∃ s', s'.state = .outsideTest ∧ ReadBack parseDate setOrder traceback s calls s' := by
  induction hcalls generalizing s with
  | nil => exact ⟨s, hs, .nil s⟩
  | @note call calls hcall h ih =>
    have hnotes : ∀ c ∈ [call], IsNote c := by simpa using hcall
    have hsends : ∀ c ∈ [call], Sendable c := by simpa using hsend call (by simp)
    have hnote : ReadBack parseDate setOrder traceback s [call] s :=
      readBack_notes horder (.inl hs) hnotes hsends
    obtain ⟨s', hs', hrest⟩ := ih (fun c hc => hsend c (by simp [hc])) hs
    exact ⟨s', hs', hnote.append hrest⟩
  | @test test notes calls label details hnotes h ih =>
    have hid : IdOk test := by
      cases hsend (.startTest test) (by simp) with
      | startTest hid => exact hid
    have hstart : ReadBack parseDate setOrder traceback s [.startTest test] _ :=
      readBack_startTest hs hid
    have hinside : ReadBack parseDate setOrder traceback
        ⟨.inTest, some test, .some test.description⟩ notes _ :=
      readBack_notes horder (.inr rfl) hnotes fun c hc => hsend c (by simp [hc])
    obtain ⟨s', hs', hend⟩ := @readBack_outcome parseDate setOrder traceback label test details
      (hsend _ (by simp))
    obtain ⟨s'', hs'', hrest⟩ := ih (fun c hc => hsend c (by simp [hc])) hs'
    refine ⟨s'', hs'', ?_⟩
    have hall := ((hstart.append hinside).append hend).append hrest
    simpa using hall

end Runs

/-- **The round trip.** What a client writes for a well-bracketed list of calls
reads back as the same calls: nothing raises, the end of the connection adds
nothing, and each call is received as `Delivers` says, with the same sets of
tags, the same offsets and details of the same names, types and bytes. -/
theorem calls_roundTrip (parseDate : Bytes → Except Error DateTime)
    (setOrder : Finset Bytes → List Bytes) (traceback : String → List Bytes)
    (horder : ∀ tags, (setOrder tags).toFinset = tags) {calls : List Call}
    (hcalls : WellBracketed calls) (hsend : ∀ c ∈ calls, Sendable c) :
    ∃ written, Client.writeAll setOrder traceback calls = .ok written
      ∧ (Server.readFrom parseDate {} written).raised = none
      ∧ ∃ blocks, List.Forall₂ Delivers calls blocks
        ∧ received (Server.readFrom parseDate {} written).outputs = blocks.flatten := by
  have hstart : Server.state {} = .outsideTest := rfl
  obtain ⟨s', hs', written, os, blocks, hwrite, hreads, hdelivers, hreceived⟩ :=
    @readBack_wellBracketed parseDate setOrder traceback horder calls hcalls hsend {} hstart
  have hread : Server.readFrom parseDate {} written = { server := s', outputs := os } := by
    simp [Server.readFrom, hreads.run, Server.lostConnection, hs']
  exact ⟨written, hwrite, by rw [hread], blocks, hdelivers, by rw [hread]; exact hreceived⟩

/-- A test whose name ends like a region begins. -/
def sampleTest : RemotedTestCase := ⟨"caf\u00e9 ["⟩

/-- Details that hold the end of a region, a directive and a chunk header. -/
def sampleDetails : Details :=
  Finmap.singleton "a log"
    ⟨⟨"text", "plain", []⟩, [ascii "]\nsuccess: x\n", [], ascii "0\r\n"]⟩

def sampleCalls : List Call :=
  [.tags {"new", "x"} ∅, .startTest sampleTest, .tags ∅ {"-x"}, .progress (some (-3)) .cur,
    .outcome .error sampleTest (some sampleDetails), .stopTest sampleTest, .progress (some 7) .push]

theorem sampleCalls_wellBracketed : WellBracketed sampleCalls := by
  have hend : WellBracketed [.progress (some 7) .push] := .note trivial .nil
  have htest := @WellBracketed.test sampleTest [.tags ∅ {"-x"}, .progress (some (-3)) .cur] _ .error
    (some sampleDetails) (by simp [IsNote]) hend
  exact .note trivial htest

theorem sampleCalls_sendable : ∀ c ∈ sampleCalls, Sendable c := by
  have hid : IdOk sampleTest := by decide
  have hdetails : DetailsOk sampleDetails := by
    intro name content h
    have hname : name = "a log" := (Finmap.mem_singleton _ _ _).mp (Finmap.mem_of_lookup_eq_some h)
    subst hname
    rw [sampleDetails, Finmap.lookup_singleton_eq] at h
    cases h
    decide
  intro c hc
  simp only [sampleCalls, List.mem_cons, List.not_mem_nil, or_false] at hc
  rcases hc with rfl | rfl | rfl | rfl | rfl | rfl | rfl
  · exact .tags (by decide) (by decide) (by decide)
  · exact .startTest hid
  · exact .tags (by decide) (by decide) (by decide)
  · exact .progressCur
  · exact .withDetails hid hdetails
  · exact .stopTest
  · exact .progressPush

theorem calls_roundTrip_sample :
    ∃ written, Client.writeAll Finset.toList (fun _ => []) sampleCalls = .ok written
      ∧ (Server.readFrom (fun _ => .error .other) {} written).raised = none
      ∧ ∃ blocks, List.Forall₂ Delivers sampleCalls blocks
        ∧ received (Server.readFrom (fun _ => .error .other) {} written).outputs = blocks.flatten :=
  calls_roundTrip _ _ _ Finset.toList_toFinset sampleCalls_wellBracketed sampleCalls_sendable

end Pysubunit.V1
