/-
Pysubunit.V1.SimpleRegionTheorems — texts in brackets.

A reason or a traceback is sent as a simple region, which the client writes as
it is. The server ends the region at a line `]` and takes a blank off in front
of a `]`, so that only an `Unbracketed` text arrives (`region_roundTrip_iff`).
A skip with a reason is written in Latin-1 and read as UTF-8, which agree on
ASCII alone; `skip_roundTrip_iff` and `error_roundTrip_iff` say what is left.
-/
import Pysubunit.V1.DirectiveTheorems
import Pysubunit.V1.RoundTripTheorems

namespace Pysubunit.V1

open ByteLib

/-! ## One test with a text -/

/-- A server has reported one test, started, with one outcome whose detail
`name` holds `content`, and stopped; nothing has been passed through. -/
structure OneTest (test : RemotedTestCase) (label : Outcome) (name : String) (content : Bytes)
    (read : Effect) : Prop where
  returned : read.raised = none
  calls : ∃ details c, received read.outputs
      = [.startTest test, .outcome label test (some details), .stopTest test]
    ∧ details.lookup name = some c ∧ c.iterBytes.flatten = content
  quiet : ∀ line, .stdOut line ∉ read.outputs

/-- The client writes an outcome in the test, and a server that reads the stream
reports the test with that outcome and its text. -/
def RoundTrip (parseDate : Bytes → Except Error DateTime) (test : RemotedTestCase)
    (written : Except Error Bytes) (label : Outcome) (name : String) (content : Bytes) : Prop :=
  ∃ bytes, written = .ok bytes
    ∧ OneTest test label name content
      (Server.readFrom parseDate {} (Client.startTest test ++ bytes))

/-- The calls that take an error, with the outcome each of them reports. -/
inductive TakesError :
    Outcome → (RemotedTestCase → Option (List Bytes) → Option Details → Except Error Bytes) → Prop where
  | error : TakesError .error Client.addError
  | failure : TakesError .failure Client.addFailure
  | xfail : TakesError .xfail Client.addExpectedFailure

/-- No line is a `]` or begins with ` ]`. -/
def Unbracketed (body : Bytes) : Prop :=
  ∀ line ∈ lines body, line ≠ endMarker ∧ line.take 2 ≠ quotedMarker

instance (body : Bytes) : Decidable (Unbracketed body) := List.decidableBAll _ _

/-- Every character is ASCII. -/
def IsAscii (s : String) : Prop := ∀ c ∈ s.toList, c.toNat < 0x80

instance (s : String) : Decidable (IsAscii s) := List.decidableBAll _ _

/-! ## Simple regions -/

/-- A line of a simple region, with a blank taken off in front of a `]`. -/
def unquoted (line : Bytes) : Bytes :=
  if line.take 2 = quotedMarker then line.drop 1 else line

theorem length_unquoted (line : Bytes) :
    (unquoted line).length ≤ line.length
      ∧ ((unquoted line).length = line.length → line.take 2 ≠ quotedMarker) := by
  unfold unquoted
  split
  · rename_i h
    have hlen := congrArg List.length h
    rw [List.length_take, show quotedMarker.length = 2 from rfl] at hlen
    rw [List.length_drop]
    exact ⟨by omega, fun heq => by omega⟩
  · rename_i h
    exact ⟨le_rfl, fun _ => h⟩

/-- Lines grow shorter when a blank is taken off, and only then. -/
theorem length_flatMap_unquoted (kept : List Bytes) :
    (kept.flatMap unquoted).length ≤ kept.flatten.length
      ∧ ((kept.flatMap unquoted).length = kept.flatten.length →
        ∀ line ∈ kept, line.take 2 ≠ quotedMarker) := by
  induction kept with
  | nil => simp
  | cons line kept ih =>
    obtain ⟨hle, hall⟩ := ih
    obtain ⟨hline, hself⟩ := length_unquoted line
    rw [List.flatMap_cons, List.flatten_cons, List.length_append, List.length_append]
    refine ⟨by omega, fun heq l hl => ?_⟩
    rcases List.mem_cons.mp hl with rfl | hl
    · exact hself (by omega)
    · exact hall (by omega) l hl

theorem flatMap_unquoted {kept : List Bytes} (h : ∀ line ∈ kept, line.take 2 ≠ quotedMarker) :
    kept.flatMap unquoted = kept.flatten := by
  induction kept with
  | nil => rfl
  | cons line kept ih =>
    rw [List.flatMap_cons, List.flatten_cons, ih fun l hl => h l (List.mem_cons_of_mem _ hl),
      unquoted, if_neg (h line List.mem_cons_self)]

theorem feeds_simple {kept : List Bytes} (h : endMarker ∉ kept) (message : Bytes) :
    Feeds (.simple message) kept (.simple (message ++ kept.flatMap unquoted)) := by
  induction kept generalizing message with
  | nil => simpa using Feeds.nil
  | cons line kept ih =>
    rw [List.mem_cons, not_or] at h
    have hline : DetailsParser.lineReceived (.simple message) line
        = ⟨.simple (message ++ unquoted line), .ok false⟩ := by
      rw [DetailsParser.lineReceived, DetailsParser.simpleLineReceived, if_neg (Ne.symm h.1), unquoted]
      split <;> rfl
    have hfeeds := (Feeds.one hline).trans (ih h.2 _)
    rwa [List.append_assoc] at hfeeds

/-- The detail that a simple region is read as. -/
def detailName : Outcome → String
  | .skip => "reason"
  | .success => "message"
  | _ => "traceback"

theorem simpleDetails_lookup (label : Outcome) (message : Bytes) :
    ∃ c, (DetailsParser.simpleDetails message label.style).lookup (detailName label) = some c
      ∧ c.iterBytes.flatten = message := by
  cases label <;> exact ⟨_, Finmap.lookup_singleton_eq, by simp⟩

section Region

variable {parseDate : Bytes → Except Error DateTime} {test : RemotedTestCase} {label : Outcome}

/-- The line of an outcome that begins a simple region. -/
theorem reads_beginSimple (label : Outcome) (h : IdOk test) :
    Reads parseDate ⟨.inTest, some test, .some test.description⟩
      (outcomeLine label (test.description ++ Server.startSimple) ++ [10])
      ([] ++ [.subunit (outcomeLine label (test.description ++ Server.startSimple) ++ [10])])
      ⟨.readingDetails label .newSimple, some test, .some test.description⟩ := by
  obtain ⟨hline, htext⟩ := @IdOk.append test h Server.startSimple (by decide)
  have hplain : test.description ≠ test.description ++ Server.startSimple :=
    (append_ne_self (by decide)).symm
  refine reads_outcomeLine hline htext fun line offset hdecode => ?_
  simp [Server.outcome, hdecode, hplain]

/-- An effect with other outputs made before it. -/
def Effect.after (outputs : List Output) (e : Effect) : Effect :=
  { e with outputs := outputs ++ e.outputs }

theorem Effect.after_after (os os' : List Output) (e : Effect) :
    (e.after os').after os = e.after (os ++ os') := by
  simp [Effect.after]

theorem linesReceived_after {s s' : Server} {a : List Bytes} {os : List Output}
    (h : s.linesReceived parseDate a = { server := s', outputs := os }) (b : List Bytes) :
    s.linesReceived parseDate (a ++ b) = (s'.linesReceived parseDate b).after os :=
  linesReceived_append parseDate h

/-- What a server has read when it comes to the first `]` of a region. -/
theorem linesReceived_simple (label : Outcome) (test : RemotedTestCase) {kept : List Bytes}
    (hkept : endMarker ∉ kept) (rest : List Bytes) :
    Server.linesReceived parseDate
        ⟨.readingDetails label .newSimple, some test, .some test.description⟩
        (kept ++ endMarker :: rest)
      = (Server.linesReceived parseDate ⟨.outsideTest, some test, .none⟩ rest).after
          (kept.map .subunit ++ [.call (.outcome label test
              (some (DetailsParser.simpleDetails (kept.flatMap unquoted) label.style))),
            .call (.stopTest test), .subunit endMarker]) := by
  have hregion : Server.linesReceived parseDate
      ⟨.readingDetails label .newSimple, some test, .some test.description⟩ kept = _ :=
    linesReceived_region (feeds_simple hkept []) (some test) (.some test.description)
  have hend : Server.linesReceived parseDate
      ⟨.readingDetails label (.simple ([] ++ kept.flatMap unquoted)), some test,
        .some test.description⟩ [endMarker]
      = { server := ⟨.outsideTest, some test, .none⟩
          outputs := [.call (.outcome label test
              (some (DetailsParser.simpleDetails (kept.flatMap unquoted) label.style))),
            .call (.stopTest test), .subunit endMarker] } := by
    simp [Server.linesReceived, Server.lineReceived, Server.detailsLineReceived,
      DetailsParser.lineReceived, DetailsParser.simpleLineReceived, Server.endDetails,
      Server.onCurrentTest, DetailsParser.getDetails]
  have hrest := linesReceived_after hend rest
  rw [linesReceived_after hregion, show endMarker :: rest = [endMarker] ++ rest from rfl, hrest,
    Effect.after_after]

/-- What a client writes of an outcome with a text. -/
def simpleRegion (label : Outcome) (test : RemotedTestCase) (body : Bytes) : Bytes :=
  outcomeLine label (test.description ++ Server.startSimple) ++ [10] ++ body ++ endMarker

theorem received_subunit (region : List Bytes) : received (region.map .subunit) = [] := by
  rw [received, List.filterMap_map, List.filterMap_eq_nil_iff]
  intro line _
  rfl

/-- What a server has read when it comes to the first `]` behind a test and an
outcome. -/
theorem linesReceived_simpleRegion (h : IdOk test) {body : Bytes} (hbody : Terminated body)
    {kept rest : List Bytes} (hkept : endMarker ∉ kept)
    (hlines : lines body ++ [endMarker] = kept ++ endMarker :: rest) :
    ∃ outputs, Server.linesReceived parseDate {}
          (lines (Client.startTest test ++ simpleRegion label test body))
        = (Server.linesReceived parseDate ⟨.outsideTest, some test, .none⟩ rest).after outputs
      ∧ received outputs = [.startTest test, .outcome label test
          (some (DetailsParser.simpleDetails (kept.flatMap unquoted) label.style)), .stopTest test]
      ∧ ∀ line, .stdOut line ∉ outputs := by
  obtain ⟨start, hstart⟩ := @reads_startTest parseDate {} rfl test h
  have hbegin := hstart.append (reads_beginSimple label h)
  have hall : lines (Client.startTest test ++ simpleRegion label test body)
      = lines (Client.startTest test
          ++ (outcomeLine label (test.description ++ Server.startSimple) ++ [10]))
        ++ (kept ++ endMarker :: rest) := by
    rw [← hlines, simpleRegion, List.append_assoc _ body, ← List.append_assoc,
      lines_append hbegin.terminated, lines_append hbody]
    rfl
  have hrun := linesReceived_after hbegin.run (kept ++ endMarker :: rest)
  rw [← hall, linesReceived_simple label test hkept, Effect.after_after] at hrun
  refine ⟨_, hrun, ?_, ?_⟩
  · rw [received_append, received_append, received_append, received_append, received_subunit]
    rfl
  · intro line
    simp

/-- The end of the connection adds to what has been read. -/
theorem readFrom_outputs (s : Server) (pipe : Bytes) :
    ∃ more, (s.readFrom parseDate pipe).outputs
      = (s.linesReceived parseDate (lines pipe)).outputs ++ more := by
  unfold Server.readFrom
  dsimp only
  split
  · exact ⟨[], by simp⟩
  · exact ⟨_, rfl⟩

/-- What a test with a text is read as, whatever comes behind its first `]`. -/
theorem OneTest.message {name : String} {content : Bytes} {read : Effect} {outputs more : List Output}
    {message : Bytes} (h : OneTest test label name content read)
    (hname : name = detailName label) (hread : read.outputs = outputs ++ more)
    (houtputs : received outputs = [.startTest test,
      .outcome label test (some (DetailsParser.simpleDetails message label.style)), .stopTest test]) :
    content = message := by
  obtain ⟨details, c, hcalls, hlookup, hcontent⟩ := h.calls
  rw [hread, received_append, houtputs] at hcalls
  simp only [List.cons_append, List.cons.injEq, Call.outcome.injEq, Option.some.injEq, true_and]
    at hcalls
  obtain ⟨hdetails, -⟩ := hcalls
  obtain ⟨c', hlookup', hcontent'⟩ := simpleDetails_lookup label message
  rw [hdetails, ← hname, hlookup] at hlookup'
  cases hlookup'
  rw [← hcontent, hcontent']

/-- Up to the first `]` there is no more than the text, and all of it only if
that is the last. -/
theorem rest_eq_nil {body : Bytes} {kept rest : List Bytes}
    (hlines : lines body ++ [endMarker] = kept ++ endMarker :: rest) :
    kept.flatten.length ≤ body.length
      ∧ (kept.flatten.length = body.length → kept = lines body) := by
  have hlen := congrArg (fun ls => ls.flatten.length) hlines
  simp only [List.flatten_append, List.flatten_cons, List.length_append, lines_flatten,
    List.flatten_nil, List.append_nil] at hlen
  refine ⟨by omega, fun heq => ?_⟩
  have hrest : rest.flatten = [] := List.length_eq_zero_iff.mp (by omega)
  rcases List.eq_nil_or_concat rest with rfl | ⟨rest', last, rfl⟩
  · exact (List.append_inj' hlines rfl).1.symm
  · -- The last line is a `]` too.
    have hlast := congrArg List.getLast? hlines
    simp only [List.concat_eq_append, ← List.cons_append, ← List.append_assoc,
      List.getLast?_append, List.getLast?_singleton, Option.some_or, Option.some.injEq] at hlast
    rw [List.concat_eq_append, List.flatten_append, List.flatten_singleton, ← hlast] at hrest
    exact absurd (List.append_eq_nil_iff.mp hrest).2 (by decide)

/-- **A text in brackets** arrives as `content` if it is that, and unbracketed. -/
theorem region_roundTrip_iff (h : IdOk test) {body content : Bytes} (hbody : Terminated body)
    (hle : body.length ≤ content.length) {name : String} (hname : name = detailName label) :
    OneTest test label name content
        (Server.readFrom parseDate {} (Client.startTest test ++ simpleRegion label test body))
      ↔ body = content ∧ Unbracketed body := by
  constructor
  · intro hone
    obtain ⟨kept, rest, hlines, hkept⟩ :=
      List.eq_append_cons_of_mem (List.mem_append_right (lines body) (List.mem_singleton_self endMarker))
    obtain ⟨outputs, hrun, houtputs, -⟩ :=
      @linesReceived_simpleRegion parseDate test label h body hbody kept rest hkept hlines
    obtain ⟨more, hmore⟩ := @readFrom_outputs parseDate {} (Client.startTest test
      ++ simpleRegion label test body)
    rw [hrun, Effect.after, List.append_assoc] at hmore
    have hcontent := hone.message hname hmore houtputs
    obtain ⟨hunquoted, hnone⟩ := length_flatMap_unquoted kept
    obtain ⟨hshort, hwhole⟩ := rest_eq_nil hlines
    rw [hcontent] at hle
    have hall := hwhole (by omega)
    have hplain := hnone (by omega)
    rw [flatMap_unquoted hplain, hall, lines_flatten] at hcontent
    refine ⟨hcontent.symm, fun line hline => ?_⟩
    rw [← hall] at hline
    exact ⟨fun heq => hkept (heq ▸ hline), hplain line hline⟩
  · rintro ⟨rfl, hplain⟩
    have hkept : endMarker ∉ lines body := fun hmem => (hplain _ hmem).1 rfl
    obtain ⟨outputs, hrun, houtputs, hquiet⟩ :=
      @linesReceived_simpleRegion parseDate test label h body hbody (lines body) [] hkept rfl
    have hread : Server.readFrom parseDate {} (Client.startTest test ++ simpleRegion label test body)
        = { server := ⟨.outsideTest, some test, .none⟩, outputs := outputs } := by
      rw [Server.readFrom, hrun]
      simp [Server.linesReceived, Effect.after, Server.lostConnection]
    rw [flatMap_unquoted fun line hline => (hplain line hline).2, lines_flatten] at houtputs
    obtain ⟨c, hlookup, hcontent⟩ := simpleDetails_lookup label body
    rw [hread]
    exact ⟨rfl, ⟨_, c, houtputs, hname ▸ hlookup, hcontent⟩, hquiet⟩

end Region

/-! ## Errors -/

theorem simpleRegion_eq (label : Outcome) (test : RemotedTestCase) (body : Bytes) :
    simpleRegion label test body
      = ascii (outcomeName label) ++ [58, 32] ++ Client.testId test ++ ascii " [\n" ++ body
        ++ ascii "]\n" := by
  have hbegin : Utf8.encode Server.startSimple.toList ++ [10] = ascii " [\n" := by decide
  rw [simpleRegion, outcomeLine, String.toList_append, Utf8.encode_append, Client.testId,
    ← List.append_assoc, List.append_assoc _ _ [10], hbegin]
  rfl

/-- What an outcome with an error writes. -/
theorem addOutcome_error (label : Outcome) (test : RemotedTestCase) (pieces : List Bytes) :
    Client.addOutcome (outcomeName label) test (some pieces) none true
      = .ok (simpleRegion label test pieces.flatten) := by
  unfold Client.addOutcome
  rw [latin1_outcomeName, simpleRegion_eq]
  simp [Client.outcomeBody, bind, Except.bind, pure, Except.pure]

/-- **A traceback** arrives if it is unbracketed. -/
theorem error_roundTrip_iff (parseDate : Bytes → Except Error DateTime) {test : RemotedTestCase}
    (h : IdOk test) {label : Outcome}
    {send : RemotedTestCase → Option (List Bytes) → Option Details → Except Error Bytes}
    (hsend : TakesError label send) {pieces : List Bytes} {text : List Char}
    (hpieces : pieces.flatten = Utf8.encode (text ++ ['\n'])) :
    RoundTrip parseDate test (send test (some pieces) none) label "traceback" pieces.flatten
      ↔ Unbracketed pieces.flatten := by
  have hterminated : Terminated pieces.flatten := by
    rw [hpieces, Utf8.encode_append]
    exact terminated_concat _
  have hwritten : send test (some pieces) none = .ok (simpleRegion label test pieces.flatten)
      ∧ detailName label = "traceback" := by
    cases hsend with
    | error => exact ⟨addOutcome_error .error test pieces, rfl⟩
    | failure => exact ⟨addOutcome_error .failure test pieces, rfl⟩
    | xfail => exact ⟨addOutcome_error .xfail test pieces, rfl⟩
  have hregion := @region_roundTrip_iff parseDate test label h _ _ hterminated le_rfl _
    hwritten.2.symm
  rw [RoundTrip, hwritten.1]
  constructor
  · rintro ⟨bytes, hbytes, hone⟩
    cases hbytes
    exact (hregion.mp hone).2
  · intro hplain
    exact ⟨_, rfl, hregion.mpr ⟨rfl, hplain⟩⟩

/-! ## Reasons -/

/-- Every character is in Latin-1. -/
def IsLatin1 (s : String) : Prop := ∀ c ∈ s.toList, c.toNat < 256

instance (s : String) : Decidable (IsLatin1 s) := List.decidableBAll _ _

theorem isLatin1_append {s t : String} : IsLatin1 (s ++ t) ↔ IsLatin1 s ∧ IsLatin1 t := by
  simp only [IsLatin1, String.toList_append, List.mem_append, or_imp, forall_and]

theorem IsAscii.isLatin1 {s : String} (h : IsAscii s) : IsLatin1 s := by
  intro c hc
  have := h c hc
  omega

theorem latin1_eq_ok {s : String} {b : Bytes} :
    Client.latin1 s = .ok b ↔ IsLatin1 s ∧ b = ascii s := by
  have hall : (s.toList.all fun c => decide (c.toNat < 256)) = true ↔ IsLatin1 s := by
    simp [IsLatin1]
  unfold Client.latin1
  by_cases h : (s.toList.all fun c => decide (c.toNat < 256)) = true
  · rw [if_pos h, Except.ok.injEq]
    exact ⟨fun heq => ⟨hall.mp h, heq.symm⟩, fun heq => heq.2.symm⟩
  · rw [if_neg h]
    exact iff_of_false (by simp) fun hok => h (hall.mpr hok.1)

theorem bind_eq_ok {α β : Type} {x : Except Error α} {f : α → Except Error β} {b : β} :
    x >>= f = .ok b ↔ ∃ a, x = .ok a ∧ f a = .ok b := by
  cases x <;> simp [bind, Except.bind]

theorem ascii_append (s t : String) : ascii (s ++ t) = ascii s ++ ascii t := by
  simp [ascii, String.toList_append]

theorem newline_not_mem_ascii {s : String} (h : IsLatin1 s) (hnewline : '\n' ∉ s.toList) :
    10 ∉ ascii s := by
  intro hmem
  obtain ⟨c, hc, hbyte⟩ := List.mem_map.mp hmem
  have hnat := congrArg UInt8.toNat hbyte
  rw [toNat_ofNat_lt (h c hc)] at hnat
  have heq : c = '\n' := Char.ext (UInt32.toNat_inj.mp hnat)
  exact hnewline (heq ▸ hc)

/-- Latin-1 has one octet beyond ASCII for each such character. -/
theorem countP_ascii {s : String} (h : IsLatin1 s) :
    (ascii s).countP (fun b => 0x80 ≤ b.toNat) = s.toList.countP fun c => 0x80 ≤ c.toNat := by
  rw [ascii, List.countP_map]
  refine List.countP_congr fun c hc => ?_
  have hc' : (UInt8.ofNat c.toNat).toNat = c.toNat := toNat_ofNat_lt (h c hc)
  rw [Function.comp_apply, hc']

/-- An id beyond ASCII, written in Latin-1, is not read as that id. -/
theorem isAscii_of_label {id text suffix behind : String} (hid : IsLatin1 id)
    (hbehind : IsAscii behind) (htext : text = id ++ suffix)
    (h : Utf8.encode text.toList = ascii id ++ ascii behind) : IsAscii id := by
  have hle := Utf8.two_mul_countP_le id.toList
  have hzero := Utf8.countP_eq_zero_iff.mpr hbehind
  rw [htext, String.toList_append, Utf8.encode_append] at h
  have hcount := congrArg (List.countP fun b : UInt8 => decide (0x80 ≤ b.toNat)) h
  rw [List.countP_append, List.countP_append, countP_ascii hid, countP_ascii hbehind.isLatin1, hzero] at hcount
  exact Utf8.countP_eq_zero_iff.mp (by omega)

section Reasons

variable {parseDate : Bytes → Except Error DateTime} {test : RemotedTestCase}

/-- The line of a skip with a reason. -/
def skipLine (test : RemotedTestCase) : Bytes :=
  ascii "skip: " ++ ascii (test.description ++ " [") ++ [10]

/-- The bytes of a skip with a reason. -/
def skipBytes (test : RemotedTestCase) (text : String) : Bytes :=
  skipLine test ++ (ascii text ++ [10]) ++ endMarker

theorem addSkip_reason {text : String} {bytes : Bytes} :
    Client.addSkip test none (some text) = .ok bytes
      ↔ IsLatin1 test.description ∧ IsLatin1 text ∧ bytes = skipBytes test text := by
  have hhead : ascii ("skip: " ++ test.description ++ " [\n")
      = skipLine test := by
    rw [skipLine, ascii_append, ascii_append, ascii_append, List.append_assoc, List.append_assoc,
      List.append_assoc]
    rfl
  have htext : ascii (text ++ "\n") = ascii text ++ [10] := ascii_append text "\n"
  have hid : IsLatin1 ("skip: " ++ test.description ++ " [\n") ↔ IsLatin1 test.description := by
    rw [isLatin1_append, isLatin1_append]
    exact ⟨fun h => h.1.2, fun h => ⟨⟨by decide, h⟩, by decide⟩⟩
  have hreason : IsLatin1 (text ++ "\n") ↔ IsLatin1 text := by
    rw [isLatin1_append]
    exact ⟨fun h => h.1, fun h => ⟨h, by decide⟩⟩
  have hbytes : skipBytes test text = ascii ("skip: " ++ test.description ++ " [\n")
      ++ ascii (text ++ "\n") ++ ascii "]\n" := by
    rw [hhead, htext]
    rfl
  simp only [Client.addSkip, bind_eq_ok, latin1_eq_ok, pure, Except.pure, Except.ok.injEq, hid,
    hreason]
  constructor
  · rintro ⟨head, ⟨hok, rfl⟩, body, ⟨hok', rfl⟩, rfl⟩
    exact ⟨hok, hok', hbytes.symm⟩
  · rintro ⟨hok, hok', rfl⟩
    exact ⟨_, ⟨hok, rfl⟩, _, ⟨hok', rfl⟩, hbytes.symm⟩

/-- A skip line whose id is not ASCII is not taken for one of its test. -/
theorem isAscii_of_skipLine (hid : IsLatin1 test.description)
    (hok : (Server.lineReceived parseDate ⟨.inTest, some test, .some test.description⟩
      (skipLine test)).raised = none)
    (hquiet : .stdOut (skipLine test) ∉ (Server.lineReceived parseDate
      ⟨.inTest, some test, .some test.description⟩ (skipLine test)).outputs) :
    IsAscii test.description := by
  have hdirective : directive (skipLine test) = some (.outcome .skip, 6) := by
    have hrest : NotBlank (ascii (test.description ++ " [") ++ [10]) := by
      refine ⟨91, ?_, by decide⟩
      rw [ascii_append]
      simp [ascii]
    rw [skipLine, List.append_assoc]
    exact @directive_line (ascii "skip") _ (by decide) hrest
  have hdrop : dropLastBytes ((skipLine test).drop 6) 1
      = ascii test.description ++ ascii " [" := by
    rw [skipLine, List.append_assoc, List.drop_left' (by decide), ← ascii_append]
    exact dropLastBytes_append _ [10]
  have hline : Server.lineReceived parseDate ⟨.inTest, some test, .some test.description⟩ (skipLine test)
      = Server.outcome ⟨.inTest, some test, .some test.description⟩ .skip 6 (skipLine test) := by
    simp [Server.lineReceived, Server.commandReceived, hdirective]
  rw [hline] at hok hquiet
  cases hdecode : decodeLine ((skipLine test).drop 6) with
  | error e =>
    rw [Server.outcome, hdecode] at hok
    cases hok
  | ok text =>
    have htext : Utf8.encode text.toList = ascii test.description ++ ascii " [" :=
      (encode_of_decodeLine hdecode).trans hdrop
    by_contra hno
    have hpassed := (@outcome_eq_stdOut ⟨.inTest, some test, .some test.description⟩ (skipLine test)
      6 .skip text hdecode rfl).mpr ⟨by simp, ?_⟩
    · rw [hpassed] at hquiet
      exact hquiet (List.mem_singleton_self _)
    · rintro ⟨_, _, hdescription, hlabel, hmatch⟩
      cases hdescription
      cases hdecode.symm.trans hlabel
      refine hno ?_
      rcases hmatch with heq | heq | heq
      · exact isAscii_of_label hid (by decide) (heq.trans String.append_empty.symm) htext
      · exact isAscii_of_label hid (by decide) heq htext
      · exact isAscii_of_label hid (by decide) heq htext

theorem newline_not_mem_skipLine (h : IdOk test) (hid : IsLatin1 test.description) :
    10 ∉ ascii "skip: " ++ ascii (test.description ++ " [") := by
  rw [ascii_append, List.mem_append, List.mem_append, not_or, not_or]
  exact ⟨by decide, newline_not_mem_ascii hid h.1, by decide⟩

/-- Only a skip with an ASCII id is reported in its test. -/
theorem isAscii_of_oneTest (h : IdOk test) (hid : IsLatin1 test.description) {name : String}
    {content more : Bytes} (hone : OneTest test .skip name content
      (Server.readFrom parseDate {} (Client.startTest test ++ (skipLine test ++ more)))) :
    IsAscii test.description := by
  obtain ⟨start, hstart⟩ := @reads_startTest parseDate {} rfl test h
  have hlines : lines (Client.startTest test ++ (skipLine test ++ more))
      = lines (Client.startTest test) ++ skipLine test :: lines more := by
    rw [lines_append hstart.terminated, skipLine, ← List.append_cons,
      lines_line (newline_not_mem_skipLine h hid)]
  have hrun := linesReceived_after hstart.run (skipLine test :: lines more)
  have hok : (Server.linesReceived parseDate {}
      (lines (Client.startTest test ++ (skipLine test ++ more)))).raised = none := by
    have hreturned := hone.returned
    rw [Server.readFrom] at hreturned
    dsimp only at hreturned
    split at hreturned
    · exact hreturned
    · assumption
  rw [hlines, hrun] at hok
  obtain ⟨hfirst, hrest⟩ := linesReceived_cons parseDate hok
  refine isAscii_of_skipLine hid hfirst fun hpassed => ?_
  obtain ⟨behind, hread⟩ := @readFrom_outputs parseDate {} (Client.startTest test ++ (skipLine test ++ more))
  refine hone.quiet (skipLine test) ?_
  rw [hread, hlines, hrun, hrest]
  simp [Effect.after, hpassed]

/-- **A reason** arrives if all is ASCII and it is unbracketed. -/
theorem skip_roundTrip_iff (parseDate : Bytes → Except Error DateTime) (h : IdOk test)
    (text : String) :
    RoundTrip parseDate test (Client.addSkip test none (some text)) .skip "reason"
        (Utf8.encode text.toList ++ [10])
      ↔ IsAscii test.description ∧ IsAscii text ∧ Unbracketed (Utf8.encode text.toList ++ [10]) := by
  have hregion : IsAscii test.description →
      skipBytes test text = simpleRegion .skip test (ascii text ++ [10]) := by
    intro hid
    have hlabel : IsAscii (test.description ++ Server.startSimple) := by
      intro c hc
      rw [String.toList_append, List.mem_append] at hc
      have hstart : IsAscii Server.startSimple := by decide
      exact hc.elim (hid c) (hstart c)
    rw [skipBytes, skipLine, simpleRegion, outcomeLine, Utf8.encode_ascii hlabel]
    rfl
  constructor
  · rintro ⟨bytes, hbytes, hone⟩
    obtain ⟨hid, htext, rfl⟩ := addSkip_reason.mp hbytes
    have hascii : IsAscii test.description := by
      rw [skipBytes, List.append_assoc] at hone
      exact isAscii_of_oneTest h hid hone
    have hlen := Utf8.length_encode text.toList
    have hbytesLen : (ascii text).length = text.toList.length := by simp [ascii]
    rw [hregion hascii] at hone
    obtain ⟨hcontent, hplain⟩ := (region_roundTrip_iff h (terminated_concat _)
      (by simp only [List.length_append]; omega) rfl).mp hone
    have hcount := congrArg List.length hcontent
    simp only [List.length_append] at hcount
    exact ⟨hascii, Utf8.countP_eq_zero_iff.mp (by omega), hcontent ▸ hplain⟩
  · rintro ⟨hid, htext, hplain⟩
    refine ⟨_, addSkip_reason.mpr ⟨hid.isLatin1, htext.isLatin1, rfl⟩, ?_⟩
    rw [hregion hid, ← Utf8.encode_ascii htext]
    exact (region_roundTrip_iff h (terminated_concat _) le_rfl rfl).mpr ⟨rfl, hplain⟩

end Reasons

/-- **Texts in brackets.** A skip with a reason, and an outcome with a
traceback, are read as they were sent exactly when their text is unbracketed and,
for the skip, all of it is ASCII, the id included. -/
theorem text_roundTrip_iff (parseDate : Bytes → Except Error DateTime) {test : RemotedTestCase}
    (h : IdOk test) :
    (∀ text : String,
      RoundTrip parseDate test (Client.addSkip test none (some text)) .skip "reason"
          (Utf8.encode text.toList ++ [10])
        ↔ IsAscii test.description ∧ IsAscii text
          ∧ Unbracketed (Utf8.encode text.toList ++ [10]))
    ∧ ∀ label send pieces text, TakesError label send →
      pieces.flatten = Utf8.encode (text ++ ['\n']) →
        (RoundTrip parseDate test (send test (some pieces) none) label "traceback" pieces.flatten
          ↔ Unbracketed pieces.flatten) := by
  refine ⟨skip_roundTrip_iff parseDate h, ?_⟩
  intro label send pieces text hsend hpieces
  exact error_roundTrip_iff parseDate h hsend hpieces

/-- A test and two texts that can be sent. -/
theorem text_roundTrip_sample :
    IdOk ⟨"a"⟩ ∧ TakesError .failure Client.addFailure
    ∧ (RoundTrip (fun _ => .error .other) ⟨"a"⟩ (Client.addSkip ⟨"a"⟩ none (some "no ]")) .skip
          "reason" (Utf8.encode "no ]".toList ++ [10])
        ↔ IsAscii "a" ∧ IsAscii "no ]" ∧ Unbracketed (Utf8.encode "no ]".toList ++ [10]))
    ∧ (RoundTrip (fun _ => .error .other) ⟨"a"⟩
          (Client.addFailure ⟨"a"⟩ (some [ascii "E: ", ascii "x\n"]) none) .failure "traceback"
          [ascii "E: ", ascii "x\n"].flatten
        ↔ Unbracketed [ascii "E: ", ascii "x\n"].flatten) := by
  have hid : IdOk ⟨"a"⟩ := by decide
  obtain ⟨hskip, herror⟩ := text_roundTrip_iff (fun _ => .error .other) hid
  have hpieces : [ascii "E: ", ascii "x\n"].flatten
      = Utf8.encode (['E', ':', ' ', 'x'] ++ ['\n']) := by decide
  exact ⟨hid, .failure, hskip "no ]", herror .failure Client.addFailure _ _ .failure hpieces⟩

/-- A `]` in a line of its own ends the region, a blank in front of it is taken
off, and a reason beyond ASCII is not UTF-8. -/
theorem bracketed_text_lost :
    IdOk ⟨"a"⟩
    ∧ ¬ RoundTrip (fun _ => .error .other) ⟨"a"⟩ (Client.addSkip ⟨"a"⟩ none (some "]")) .skip
        "reason" (Utf8.encode "]".toList ++ [10])
    ∧ ¬ RoundTrip (fun _ => .error .other) ⟨"a"⟩ (Client.addSkip ⟨"a"⟩ none (some "\u00e9")) .skip
        "reason" (Utf8.encode "\u00e9".toList ++ [10])
    ∧ ¬ RoundTrip (fun _ => .error .other) ⟨"a"⟩
        (Client.addError ⟨"a"⟩ (some [ascii " ]\n"]) none) .error "traceback"
        [ascii " ]\n"].flatten := by
  have hid : IdOk ⟨"a"⟩ := by decide
  have hpieces : [ascii " ]\n"].flatten = Utf8.encode ([' ', ']'] ++ ['\n']) := by decide
  refine ⟨hid, fun h => ?_, fun h => ?_, fun h => ?_⟩
  · exact absurd ((skip_roundTrip_iff _ hid _).mp h).2.2 (by decide)
  · exact absurd ((skip_roundTrip_iff _ hid _).mp h).2.1 (by decide)
  · exact absurd ((error_roundTrip_iff _ hid .error hpieces).mp h) (by decide)

end Pysubunit.V1
