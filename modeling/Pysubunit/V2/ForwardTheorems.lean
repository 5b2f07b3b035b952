/-
Pysubunit.V2.ForwardTheorems — events on their way through an encoder and a
decoder.

`status_decodes_iff` is about whatever the encoder writes: it is decoded again
exactly when no text in it holds U+0000, which the encoder does not look for
and the decoder refuses. `run_forwards_iff` is about whatever the decoder
emits, passed on to an encoder. An event that was decoded takes no more room
the second time (`covers_fields`), so what can go wrong is a time stamp carried
past the last second of its word, the report of a packet that was too long
already, or the name given to the text.
-/
import Pysubunit.V2.PacketStreamTheorems
import Pysubunit.V2.SizeTheorems

namespace Pysubunit.V2

open ByteLib

/-! ## What the encoder writes -/

/-- A call that returns has written its packet. -/
theorem written_of_status {w : PartialWrites} {out : OutputStream} {call : StatusCall}
    (h : (status w out call).1 = .ok ()) :
    Written call ∧ (status w out call).2.written = out.written ++ packetBytes call := by
  unfold status at h ⊢
  split at h
  · cases h
  · rename_i data hdata
    have hwritten := written_of_ok hdata
    cases hdata.symm.trans hwritten
    exact ⟨hwritten, writeLoop_written w (packetBytes call) out 0⟩

/-- The run over one written packet. -/
theorem run_written (polls : Polls) (name : Option String) {call : StatusCall} (h : Written call) :
    (run polls name (packetBytes call)).result = .ok []
    ∧ (run polls name (packetBytes call)).events name = packetEvents call := by
  have hrun := @run_packetBytes polls name {} rfl call h []
  rw [List.append_nil, runFrom_nil] at hrun
  rw [run_eq_runFrom, hrun]
  refine ⟨rfl, ?_⟩
  rw [RunResult.events, List.flatMap_singleton, packetAction_events h]

/-- The bytes `data` are decoded as exactly one event. -/
def DecodesToOne (polls : Polls) (name : Option String) (data : Bytes) : Prop :=
  (run polls name data).result = .ok [] ∧ ∃ event, (run polls name data).events name = [event]

/-- A packet is decoded as one event if its texts can be read back. -/
theorem decodesToOne_iff (polls : Polls) (name : Option String) {call : StatusCall}
    (h : Written call) : DecodesToOne polls name (packetBytes call) ↔ Readable call.event := by
  obtain ⟨hresult, hevents⟩ := run_written polls name h
  unfold DecodesToOne
  rw [hresult, hevents]
  constructor
  · rintro ⟨-, event, hone⟩
    by_contra hr
    obtain ⟨message, hreport⟩ := packetEvents_not_readable h hr
    rw [hreport] at hone
    simp [parserErrors] at hone
  · intro hr
    exact ⟨rfl, _, packetEvents_readable h hr⟩

/-- **Encoder soundness** holds of a call exactly when none of its texts holds
U+0000. -/
theorem status_decodes_iff (w : PartialWrites) (polls : Polls) (name : Option String)
    (out : OutputStream) (call : StatusCall) (h : (status w out call).1 = .ok ()) :
    ∃ data, (status w out call).2.written = out.written ++ data
      ∧ (DecodesToOne polls name data ↔ Readable call.event) := by
  obtain ⟨hwritten, hdata⟩ := written_of_status h
  exact ⟨packetBytes call, hdata, decodesToOne_iff polls name hwritten⟩

theorem status_decodes_passed :
    ∃ data, (status byteByByte {} passed).2.written = [] ++ data
      ∧ (DecodesToOne inMemory none data ↔ Readable passed.event) :=
  status_decodes_iff byteByByte inMemory none {} passed
    (by rcases status_written byteByByte {} encodable_passed.writable with h | h
        · exact h.2.1
        · exact absurd packetLength_passed (Nat.not_le_of_lt h.1))

/-- A test id that is U+0000. -/
def nulId : StatusCall where
  event := { testId := some "\x00", testStatus := some .success }
  tagOrder := []
  tagOrder_enumerates := noTags_enumerates

/-- It is written, and reported when it is read. -/
theorem status_writes_nul :
    (status byteByByte {} nulId).1 = .ok ()
    ∧ ¬ DecodesToOne inMemory none (status byteByByte {} nulId).2.written := by
  have hok : (status byteByByte {} nulId).1 = .ok () := by decide +kernel
  obtain ⟨hwritten, hdata⟩ := written_of_status hok
  refine ⟨hok, ?_⟩
  rw [hdata, List.nil_append, decodesToOne_iff inMemory none hwritten]
  intro hr
  exact absurd (hr.testId "\x00" rfl) (by decide)

/-! ## Passing an event on -/

/-- An event as it comes back: an empty tag set and an empty MIME type are
absent. -/
def normalised (e : StatusEvent) : StatusEvent :=
  { e with
    testTags := e.testTags.filter (· ≠ ∅)
    mimeType := e.mimeType.filter (· ≠ "") }

/-- However the event is passed on, it is accepted, and what is written comes
back as the event. -/
def Forwards (e : StatusEvent) : Prop :=
  ∀ (w : PartialWrites) (out : OutputStream) (call : StatusCall), call.event = e →
    (status w out call).1 = .ok ()
    ∧ ∃ data, (status w out call).2.written = out.written ++ data
      ∧ ∀ polls name, (run polls name data).result = .ok []
        ∧ (run polls name data).events name = [normalised e]

/-- Every event has a call. -/
theorem exists_call (e : StatusEvent) : ∃ call : StatusCall, call.event = e :=
  ⟨⟨e, (e.testTags.getD ∅).toList, Finset.coe_toList _⟩, rfl⟩

theorem carried_eq_normalised {e : StatusEvent} (h : e.fileName.isSome ↔ e.fileBytes.isSome) :
    carried e = normalised e := by
  have hfile : (if e.fileName.isSome then e.fileBytes else none) = e.fileBytes := by
    split
    · rfl
    · rename_i hname
      rw [h] at hname
      exact (Option.not_isSome_iff_eq_none.mp hname).symm
  rw [carried, normalised, hfile]

/-- What it takes to be passed on. -/
theorem forwards_iff {e : StatusEvent} (h : e.fileName.isSome ↔ e.fileBytes.isSome) :
    Forwards e ↔ Readable e ∧ Writable e ∧ wholeLength (7 + fieldsSize e) ≤ maxPacketLength := by
  constructor
  · intro hall
    obtain ⟨call, rfl⟩ := exists_call e
    obtain ⟨hok, data, hdata, hrun⟩ := hall byteByByte {} call rfl
    obtain ⟨hwritten, hdata'⟩ := written_of_status hok
    rw [hdata', List.append_cancel_left_eq] at hdata
    obtain ⟨hwritable, hfits⟩ := written_iff.mp hwritten
    rw [packetLength_eq] at hfits
    refine ⟨?_, hwritable, hfits⟩
    refine (decodesToOne_iff inMemory none hwritten).mp ?_
    rw [hdata]
    exact ⟨(hrun inMemory none).1, _, (hrun inMemory none).2⟩
  · rintro ⟨hreadable, hwritable, hfits⟩ w out call rfl
    rw [← packetLength_eq] at hfits
    have hwritten : Written call := written_iff.mpr ⟨hwritable, hfits⟩
    rcases status_written w out hwritable with ⟨-, hok, hdata⟩ | ⟨hlong, -⟩
    · refine ⟨hok, packetBytes call, hdata, fun polls name => ?_⟩
      obtain ⟨hresult, hevents⟩ := run_written polls name hwritten
      refine ⟨hresult, ?_⟩
      rw [hevents, packetEvents_readable hwritten hreadable, carried_eq_normalised h]
    · omega

/-! ## Decoded packets -/

/-- A decoded event fits a packet. -/
theorem fits_of_decodes {source : Bytes} {length consumed : Nat} {e : StatusEvent} {left : Bytes}
    (h : Decodes source length consumed e left) :
    Decoded e ∧ wholeLength (7 + fieldsSize e) ≤ maxPacketLength := by
  obtain ⟨hnumber, hlow, hhigh⟩ := number_of_declaredLength h.declared
  have hwidth := (covers_number _ _ hnumber).2
  obtain ⟨b, hb, hsplit⟩ := (scans_fields _ _ _ _).mp h.fields
  obtain ⟨hdecoded, hsize⟩ := covers_fields _ _ _ hb
  refine ⟨hdecoded, ?_⟩
  have hlen := congrArg List.length hsplit
  simp only [fieldsOf, dropLastBytes, List.length_drop, List.length_take,
    List.length_append] at hlen hwidth
  have hlength := h.low
  have hsource := h.high
  unfold numberWidth at hwidth
  unfold wholeLength maxPacketLength
  split_ifs at hwidth ⊢ <;> omega

/-- The time stamp stands in the first fields. -/
theorem timestamp_of_fields {flags : Nat} {rem left : Bytes} {e : StatusEvent}
    (h : Grammar.fields flags rem = .ok (e, left)) :
    (hasFlag flags flagTimestamp = false ∧ e.timestamp = none)
    ∨ (hasFlag flags flagTimestamp = true ∧ ∃ nanoseconds rest,
        Grammar.number (rem.drop 4) = .ok (nanoseconds, rest)
        ∧ e.timestamp = some ⟨beNat (rem.take 4) * 1000000 + roundedThousandth nanoseconds⟩) := by
  obtain ⟨b, hb, rfl⟩ := (scans_fields _ _ _ _).mp h
  obtain ⟨t, b₁, b₂, ht, htail, rfl⟩ := hb
  have he : e.timestamp = t := by
    obtain ⟨_, _, _, _, ⟨_, _, _, _, ⟨_, _, _, _, ⟨_, _, _, _, ⟨_, _, _, _, ⟨rfl, _⟩, _⟩, _⟩, _⟩,
      _⟩, _⟩ := htail
    rfl
  rw [he]
  cases hflag : hasFlag flags flagTimestamp with
  | false =>
    rw [hflag] at ht
    exact .inl ⟨rfl, ht.1⟩
  | true =>
    rw [hflag] at ht
    obtain ⟨t', b₃, b₄, ⟨seconds, b₅, b₆, ⟨rfl, h4⟩, ⟨n, b₇, b₈, hn, ⟨rfl, rfl⟩, rfl⟩, rfl⟩,
      ⟨rfl, rfl⟩, rfl⟩ := ht
    refine .inr ⟨rfl, n, b₂ ++ left, ?_, ?_⟩
    · simp only [List.append_assoc, List.append_nil]
      rw [List.drop_left' h4]
      simpa using scans_number.scan hn (b₂ ++ left)
    · simp only [List.append_assoc]
      rw [List.take_left' h4]

/-- The packet is decoded, and its time stamp is the last second that the word
holds and so many nanoseconds that they round to one more. -/
def RoundsPastEnd (source : Bytes) : Prop :=
  ∃ length consumed e left, Decodes source length consumed e left
    ∧ hasFlag (beNat (source.take 2)) flagTimestamp = true
    ∧ ∃ nanoseconds rest,
      beNat ((fieldsOf (source.take (length - 1)) consumed).take 4) = 4294967295
      ∧ Grammar.number ((fieldsOf (source.take (length - 1)) consumed).drop 4)
        = .ok (nanoseconds, rest)
      ∧ 999999500 ≤ nanoseconds

theorem roundedThousandth_second (n : Nat) : 1000000 ≤ roundedThousandth n ↔ 999999500 ≤ n := by
  unfold roundedThousandth
  split <;> omega

theorem roundsPastEnd_iff {source : Bytes} {length consumed : Nat} {e : StatusEvent}
    {left : Bytes} (h : Decodes source length consumed e left) :
    RoundsPastEnd source ↔ ∃ t ∈ e.timestamp, 4294967296 * 1000000 ≤ t.micros := by
  constructor
  · rintro ⟨length', consumed', e', left', hdec, hflag, n, rest, hend, hn, hround⟩
    obtain ⟨rfl, rfl, -, -⟩ := h.unique hdec
    rcases timestamp_of_fields h.fields with ⟨hnone, -⟩ | ⟨-, n', rest', hn', hsome⟩
    · rw [hflag] at hnone
      cases hnone
    · rw [hn] at hn'
      cases hn'
      have := (roundedThousandth_second n).mpr hround
      refine ⟨_, hsome, ?_⟩
      dsimp only
      omega
  · rintro ⟨t, ht, hpast⟩
    rcases timestamp_of_fields h.fields with ⟨-, hnone⟩ | ⟨hflag, n, rest, hn, hsome⟩
    · rw [hnone] at ht
      cases ht
    · rw [hsome] at ht
      cases ht
      have hseconds : beNat ((fieldsOf (source.take (length - 1)) consumed).take 4) < 256 ^ 4 :=
        Nat.lt_of_lt_of_le (beNat_lt _)
          (Nat.pow_le_pow_right (by omega) (by rw [List.length_take]; omega))
      obtain ⟨b, hb, -⟩ := (scans_number _ _ _).mp hn
      have hn30 := (covers_number _ _ hb).1
      have hround := roundedThousandth_le n
      dsimp only at hpast
      refine ⟨length, consumed, e, left, h, hflag, n, rest, ?_, hn, ?_⟩
      · omega
      · rw [← roundedThousandth_second]
        omega

/-- A decoded event can be passed on unless its time stamp has left the word. -/
theorem forwards_decoded_iff {source : Bytes} {length consumed : Nat} {e : StatusEvent}
    {left : Bytes} (h : Decodes source length consumed e left) :
    Forwards e ↔ ¬ RoundsPastEnd source := by
  obtain ⟨⟨hreadable, hfile, htimestamp⟩, hfits⟩ := fits_of_decodes h
  rw [forwards_iff hfile, roundsPastEnd_iff h]
  constructor
  · rintro ⟨-, hwritable, -⟩ ⟨t, ht, hpast⟩
    have := (hwritable.timestamp t ht).2
    omega
  · intro hround
    refine ⟨hreadable, ⟨hfile.mp, fun t ht => ⟨htimestamp t ht, ?_⟩⟩, hfits⟩
    by_contra hpast
    exact hround ⟨t, ht, by omega⟩

/-! ## Reported packets -/

/-- A report can be passed on if what it holds leaves room for the rest of it. -/
theorem forwards_report_iff {status : Option TestStatus} {name mime : String} (content : Bytes)
    (hname : NulFree name) (hmime : NulFree mime) (hne : mime ≠ "")
    (hsize : textSize name + textSize mime = 37) :
    Forwards { testId := some "subunit.parser", testStatus := status, eof := true
               fileName := some name, fileBytes := some content, mimeType := some mime }
      ↔ content.length ≤ 4194238 := by
  have hid : textSize "subunit.parser" = 15 := by decide
  have hfields : fieldsSize { testId := some "subunit.parser", testStatus := status, eof := true
                              fileName := some name, fileBytes := some content
                              mimeType := some mime } = 52 + contentSize content := by
    simp only [fieldsSize, fileSize, tagsSize, Option.filter_some, hne, Option.elim_some,
      Option.elim_none, Option.getD_none, decide_not, decide_false, Bool.not_false, if_true]
    omega
  rw [forwards_iff (by simp), hfields]
  unfold contentSize wholeLength numberWidth maxPacketLength
  constructor
  · rintro ⟨-, -, hfits⟩
    split_ifs at hfits <;> omega
  · intro hle
    refine ⟨⟨?_, by simp, ?_, ?_, by simp⟩, ⟨by simp, by simp⟩, by split_ifs <;> omega⟩
    · rintro s ⟨⟩
      decide
    · rintro s ⟨⟩
      exact hmime
    · rintro s ⟨⟩
      exact hname

/-- A report of a packet can be passed on if both its parts can. -/
theorem forwards_parserErrors_iff (packet : List Bytes) (message : String) :
    (∀ e ∈ parserErrors packet message, Forwards e)
      ↔ (join packet).length ≤ 4194238 ∧ messageSize message ≤ 4194238 := by
  rw [parserErrors, List.forall_mem_cons, List.forall_mem_singleton,
    forwards_report_iff (join packet) (by decide) (by decide) (by decide) (by decide),
    forwards_report_iff (utf8Bytes message) (by decide) (by decide) (by decide) (by decide),
    messageSize]

/-- The packet is all there, it is too long to be reported, and it is not
decoded. -/
def TooLongToReport (source : Bytes) : Prop :=
  ∃ length consumed, declaredLength source = some (length, consumed)
    ∧ 4194238 < length ∧ length ≤ source.length + 1
    ∧ ¬ ∃ e left, Decodes source length consumed e left

/-- The length is too small, and the number of bytes thrown away has more digits
than a packet has room for. -/
def TooManyToCount (source : Bytes) : Prop :=
  DeclaresTooLittle source ∧ 4194198 < (Nat.toDigits 10 (source.length - 5)).length

/-- The bytes after a signature make a packet whose events can be passed on. -/
def PacketPassesOn (source : Bytes) : Prop :=
  ¬ RoundsPastEnd source ∧ ¬ TooLongToReport source ∧ ¬ TooManyToCount source

/-- A report is too long where its packet is. -/
theorem length_join_packet {source : Bytes} {message : String}
    (h : (parse source).result = .error (.parseError message)) :
    4194238 < (join (parse source).packet).length ↔ TooLongToReport source := by
  have hnotDecoded : ¬ ∃ length consumed e left, Decodes source length consumed e left := by
    rintro ⟨length, consumed, e, left, hdec⟩
    have hok := parse_ok_iff.mpr ⟨length, consumed, left, hdec⟩
    rw [h] at hok
    cases hok
  have hp := parse_cases source
  generalize parse source = r at hp
  cases hp with
  | shortHeader message hlen =>
    refine iff_of_false ?_ ?_
    · simp [join]
      omega
    · rintro ⟨length, consumed, hd, -⟩
      have := length_of_declaredLength hd
      omega
  | longLength message hlen hd =>
    refine iff_of_false ?_ ?_
    · simp [join]
    · rintro ⟨length, consumed, hd', -⟩
      rw [hd] at hd'
      cases hd'
  | shortRemainder message length consumed hlen hd hout =>
    refine iff_of_false ?_ ?_
    · simp [join]
    · rintro ⟨length', consumed', hd', hlong, hhigh, -⟩
      rw [hd] at hd'
      cases hd'
      omega
  | whole length consumed hlen hd hlow hhigh =>
    have hjoin : (join (wholeResult (beNat (source.take 2)) consumed (source.take (length - 1))
        (source.drop (length - 1))).packet).length = length := by
      rw [join_wholeResult_packet, List.length_cons, List.length_take]
      omega
    rw [hjoin]
    constructor
    · intro hlong
      refine ⟨length, consumed, hd, hlong, hhigh, ?_⟩
      rintro ⟨e, left, hdec⟩
      exact hnotDecoded ⟨length, consumed, e, left, hdec⟩
    · rintro ⟨length', consumed', hd', hlong, -⟩
      rw [hd] at hd'
      cases hd'
      exact hlong

/-- What a packet gives can be passed on exactly where nothing goes too far. -/
theorem forwards_parse_iff {source : Bytes} (h : (parse source).raised = none) :
    (∀ e ∈ (parse source).events, Forwards e) ↔ PacketPassesOn source := by
  rcases reports_of_not_raised h with ⟨e, hok, hevents⟩ | ⟨message, he, hevents⟩
  · obtain ⟨length, consumed, left, hdec⟩ := parse_ok_iff.mp hok
    rw [hevents, List.forall_mem_singleton, forwards_decoded_iff hdec]
    have hreport : ¬ TooLongToReport source := by
      rintro ⟨length', consumed', hd, -, -, hnot⟩
      rw [hdec.declared] at hd
      cases hd
      exact hnot ⟨e, left, hdec⟩
    have hcount : ¬ TooManyToCount source := by
      rintro ⟨⟨-, length', consumed', hd, hlt⟩, -⟩
      have hlow := hdec.low
      rw [hdec.declared] at hd
      cases hd
      omega
    exact ⟨fun hround => ⟨hround, hreport, hcount⟩, And.left⟩
  · have hround : ¬ RoundsPastEnd source := by
      rintro ⟨length, consumed, e, left, hdec, -⟩
      have hok := parse_ok_iff.mpr ⟨length, consumed, left, hdec⟩
      rw [he] at hok
      cases hok
    have hlong := length_join_packet he
    rw [hevents, forwards_parserErrors_iff]
    unfold PacketPassesOn
    rw [← hlong]
    rcases parse_message_size source with ⟨hlittle, hshort⟩ | ⟨hlittle, message', he', hsize⟩
    · have := hshort _ he message rfl
      have hcount : ¬ TooManyToCount source := fun hcount => hlittle hcount.1
      simp only [hround, hcount, not_false_eq_true, true_and, and_true, Nat.not_lt]
      omega
    · rw [he] at he'
      cases he'
      have hcount : TooManyToCount source ↔ 4194238 < messageSize message := by
        unfold TooManyToCount
        rw [hsize]
        constructor
        · rintro ⟨-, hmany⟩
          omega
        · intro hmany
          exact ⟨hlittle, by omega⟩
      simp only [hround, hcount, not_false_eq_true, true_and, Nat.not_lt]

/-! ## Runs -/

/-- In state `s` the run takes up a packet, which it has come to or takes the
last byte of a text for; `rest` is what follows its signature. -/
def TakesUp (polls : Polls) (s : RunState) (rest : Bytes) : Prop :=
  ComesToPacket polls s rest
    ∨ (RepeatsSignature polls s ∧ (textPiece polls s.codec 0 s.source).2 = rest)

/-- The text `piece` can be passed on under the name `n`. -/
def TextPassesOn (n : String) (piece : Bytes) : Prop :=
  NulFree n ∧ wholeLength (7 + (textSize n + contentSize piece)) ≤ maxPacketLength

/-- Whatever a pass from `s` emits can be passed on. -/
structure PassesOn (polls : Polls) (n : String) (s : RunState) : Prop where
  text : (textPiece polls s.codec 0 s.source).1 ≠ [] →
    TextPassesOn n (textPiece polls s.codec 0 s.source).1
  packet : ∀ rest, TakesUp polls s rest → PacketPassesOn rest

theorem forwards_content_iff (n : String) (piece : Bytes) :
    Forwards { fileName := some n, fileBytes := some piece } ↔ TextPassesOn n piece := by
  have hfields : fieldsSize { fileName := some n, fileBytes := some piece }
      = textSize n + contentSize piece := by
    simp [fieldsSize, fileSize, tagsSize]
  rw [forwards_iff (by simp), hfields]
  constructor
  · rintro ⟨hreadable, -, hfits⟩
    exact ⟨hreadable.fileName n rfl, hfits⟩
  · rintro ⟨hn, hfits⟩
    refine ⟨⟨by simp, by simp, by simp, ?_, by simp⟩, ⟨by simp, by simp⟩, hfits⟩
    rintro s ⟨⟩
    exact hn

section Pass

variable {polls : Polls} {n : String} {s : RunState} {piece rest : Bytes}

theorem takesUp_iff (h : textPiece polls s.codec 0 s.source = (piece, rest)) {rest' : Bytes} :
    TakesUp polls s rest'
      ↔ (rest = signature :: rest'
          ∧ (piece = [] ∨ polls.cuts piece.length (rest'.length + 1) = false))
        ∨ ((piece.getLast? = some signature ∧ (s.codec.feedAll piece).midCharacter = false
          ∧ polls.cuts piece.length rest.length = true) ∧ rest = rest') := by
  unfold TakesUp ComesToPacket RepeatsSignature
  rw [h]

/-- A pass whose text ends before a signature takes up the packet there. -/
theorem takesUp_at_packet (h : textPiece polls s.codec 0 s.source = (piece, signature :: rest))
    (hgo : piece = [] ∨ polls.cuts piece.length (rest.length + 1) = false) (rest' : Bytes) :
    TakesUp polls s rest' ↔ rest' = rest := by
  rw [takesUp_iff h]
  constructor
  · intro htakes
    rcases htakes with ⟨htail, -⟩ | ⟨⟨hlast, -, hcut⟩, -⟩
    · cases htail
      rfl
    · rcases hgo with rfl | hgo
      · cases hlast
      · rw [List.length_cons, hgo] at hcut
        cases hcut
  · intro hrest
    subst hrest
    exact .inl ⟨rfl, hgo⟩

/-- A pass that is cut behind a signature in its text takes up what follows. -/
theorem takesUp_repeated (h : textPiece polls s.codec 0 s.source = (piece, rest))
    (hcut : polls.cuts piece.length rest.length = true)
    (hmid : (s.codec.feedAll piece).midCharacter = false)
    (hlast : piece.getLast? = some signature) (rest' : Bytes) :
    TakesUp polls s rest' ↔ rest' = rest := by
  rw [takesUp_iff h]
  constructor
  · intro htakes
    rcases htakes with ⟨rfl, hnil | hgo⟩ | ⟨-, hrest⟩
    · subst hnil
      cases hlast
    · rw [List.length_cons, hgo] at hcut
      cases hcut
    · exact hrest.symm
  · intro hrest
    exact .inr ⟨⟨hlast, hmid, hcut⟩, hrest.symm⟩

/-- What a pass that takes up no packet emits. -/
theorem passesOn_text (h : textPiece polls s.codec 0 s.source = (piece, rest)) (hne : piece ≠ [])
    (hno : ∀ rest', ¬ TakesUp polls s rest') :
    PassesOn polls n s ↔ TextPassesOn n piece := by
  constructor
  · intro hpass
    have := hpass.text (by rw [h]; exact hne)
    rwa [h] at this
  · intro htext
    refine ⟨fun _ => by rw [h]; exact htext, fun rest' htakes => absurd htakes (hno rest')⟩

/-- What a pass that takes up a packet emits. -/
theorem passesOn_packet {rest' : Bytes} (h : textPiece polls s.codec 0 s.source = (piece, rest'))
    (htakes : ∀ rest'', TakesUp polls s rest'' ↔ rest'' = rest) :
    PassesOn polls n s ↔ (piece ≠ [] → TextPassesOn n piece) ∧ PacketPassesOn rest := by
  constructor
  · rintro ⟨htext, hpacket⟩
    rw [h] at htext
    exact ⟨htext, hpacket rest ((htakes rest).mpr rfl)⟩
  · rintro ⟨htext, hpacket⟩
    refine ⟨by rw [h]; exact htext, fun rest'' hrest => ?_⟩
    rw [(htakes rest'').mp hrest]
    exact hpacket

end Pass

/-- What a pass that goes on emits. -/
theorem forwards_dispatch {before : List Action} {codec : Codec} {rest : Bytes} {name : Option String}
    (h : ∀ e, (dispatch before codec rest).2 ≠ .raise e) :
    (∀ e ∈ (dispatch before codec rest).1.flatMap (Action.events name), Forwards e)
      ↔ (∀ e ∈ before.flatMap (Action.events name), Forwards e) ∧ PacketPassesOn rest := by
  have hraised : (parse rest).raised = none := by
    cases hr : (parse rest).raised with
    | none => rfl
    | some e =>
      refine absurd ?_ (h e)
      rw [dispatch_snd, hr]
  rw [dispatch_fst, List.flatMap_append, List.forall_mem_append, List.flatMap_singleton,
    ← forwards_parse_iff hraised]
  rfl

/-- What a pass emits. -/
theorem forwards_pass_iff {polls : Polls} {n : String} {s : RunState}
    (h : ∀ e, (runPass polls (some n) s).2 ≠ .raise e) :
    (∀ e ∈ (runPass polls (some n) s).1.flatMap (Action.events (some n)), Forwards e)
      ↔ PassesOn polls n s := by
  have htext : ∀ piece : Bytes, (∀ e ∈ [Action.content s.source piece].flatMap
      (Action.events (some n)), Forwards e) ↔ TextPassesOn n piece := by
    intro piece
    rw [List.flatMap_singleton, Action.events, List.forall_mem_singleton, forwards_content_iff]
  have hp := pass_cases polls (some n) s
  generalize runPass polls (some n) s = r at hp h
  cases hp with
  | stop hs =>
    have hpiece : textPiece polls s.codec 0 s.source = ([], []) := by rw [hs]; rfl
    refine iff_of_true (by simp) ⟨fun hne => absurd (by rw [hpiece]) hne, ?_⟩
    intro rest htakes
    rw [takesUp_iff hpiece] at htakes
    simp at htakes
  | packet rest hs hmid =>
    have hpiece : textPiece polls s.codec 0 s.source = ([], signature :: rest) := by
      rw [hs, textPiece, Codec.starts_iff.mpr ⟨hmid, rfl⟩]
      simp
    have htakes := takesUp_at_packet hpiece (.inl rfl)
    rw [forwards_dispatch h, passesOn_packet hpiece htakes]
    simp
  | refused b hname => cases hname
  | cut piece rest hpiece hne hcut hlast =>
    rw [htext, passesOn_text hpiece hne]
    intro rest' htakes
    rw [takesUp_iff hpiece] at htakes
    rcases htakes with ⟨rfl, hnil | hgo⟩ | ⟨⟨hsig, hmid, -⟩, -⟩
    · exact hne hnil
    · rw [List.length_cons, hgo] at hcut
      cases hcut
    · rcases hlast with hlast | hlast
      · rw [hlast] at hmid
        cases hmid
      · exact hlast hsig
  | atEnd piece hpiece hne hcut =>
    rw [htext, passesOn_text hpiece hne]
    intro rest' htakes
    rw [takesUp_iff hpiece] at htakes
    simp [hcut] at htakes
  | atPacket piece rest hpiece hne hcut hmid =>
    have htakes := takesUp_at_packet hpiece (.inr hcut)
    rw [forwards_dispatch h, htext, passesOn_packet hpiece htakes]
    simp [hne]
  | repeated piece rest hpiece hcut hmid hlast =>
    have hne : piece ≠ [] := by
      rintro rfl
      cases hlast
    have htakes := takesUp_repeated hpiece hcut hmid hlast
    rw [forwards_dispatch h, htext, passesOn_packet hpiece htakes]
    simp [hne]

/-- **Forwardability.** Of a run that returns, every event can be passed on and
comes back the same exactly when every pass keeps to what can be passed on: the
texts and their name fit a packet, no decoded time stamp rounds past the last
second of its word, and no packet is reported that leaves no room for the
report. -/
theorem run_forwards_iff (polls : Polls) (n : String) (input : Bytes)
    (h : ∃ unread, (run polls (some n) input).result = .ok unread) :
    (∀ e ∈ (run polls (some n) input).events (some n), Forwards e)
      ↔ ∀ s, Loop.Reaches (runLoop polls (some n)) { source := input } s →
          PassesOn polls n s := by
  have hpass : ∀ s, (∀ e, (runPass polls (some n) s).2 ≠ .raise e) →
      ((∀ e ∈ ((runLoop polls (some n)).body s).1.flatMap (Action.events (some n)), Forwards e)
        ↔ PassesOn polls n s) := fun s hs => forwards_pass_iff hs
  refine Loop.run_iff_forall_reaches (L := runLoop polls (some n))
    (P := fun _ actions => ∀ e ∈ actions.flatMap (Action.events (some n)), Forwards e) ?_ ?_ ?_
  · intro s hs
    refine hpass s fun e he => ?_
    rw [runLoop_body, he] at hs
    cases hs
  · intro s s' hs
    rw [List.flatMap_append, List.forall_mem_append, hpass s]
    intro e he
    rw [runLoop_body, he] at hs
    cases hs
  · obtain ⟨unread, hret⟩ := h
    unfold run at hret
    cases hrun : ((runLoop polls (some n)).run { source := input }).2 with
    | error e => simp [hrun, Except.map] at hret
    | ok t => exact ⟨t, rfl⟩

/-- Packets between texts, from a source that always has more to read. -/
theorem run_forwards_text :
    let polls : Polls := { selectable := true, readable := fun _ => true }
    let input := utf8Bytes "a³" ++ testCalls.flatMap packetBytes ++ utf8Bytes "€\n"
      ++ packetBytes passed
    (∀ e ∈ (run polls (some "stdout") input).events (some "stdout"), Forwards e)
      ↔ ∀ s, Loop.Reaches (runLoop polls (some "stdout")) { source := input } s →
          PassesOn polls "stdout" s := by
  intro polls input
  exact run_forwards_iff polls "stdout" input ⟨[], by decide +kernel⟩

/-- A packet with the last second of the word, and nanoseconds that round to one
more. -/
def lastSecond : Bytes :=
  [0xB3, 0x22, 0x00, 0x10, 0xFF, 0xFF, 0xFF, 0xFF, 0xFB, 0x9A, 0xC8, 0x0C, 0x3B, 0x3E, 0xA4, 0x67]

/-- The packet is decoded, and its event cannot be passed on. -/
theorem run_rounds_past_end :
    (run inMemory (some "stdout") lastSecond).result = .ok []
    ∧ ¬ ∀ e ∈ (run inMemory (some "stdout") lastSecond).events (some "stdout"), Forwards e := by
  refine ⟨by decide +kernel, fun hall => ?_⟩
  have hevents : (run inMemory (some "stdout") lastSecond).events (some "stdout")
      = [{ timestamp := some ⟨4294967296000000⟩, runnable := false }] := by decide +kernel
  rw [hevents, List.forall_mem_singleton, forwards_iff (by simp)] at hall
  have hlate := (hall.2.1.timestamp _ rfl).2
  dsimp only at hlate
  omega

end Pysubunit.V2
