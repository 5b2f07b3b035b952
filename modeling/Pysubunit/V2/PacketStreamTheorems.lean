/-
Pysubunit.V2.PacketStreamTheorems — streams of packets, whole, damaged and
cut short.

Every result here is `run_packet`, one pass over one packet, folded along
the stream. A packet is self-delimiting: `parse_unsigned` decodes it whatever
follows, and `parse_bad` and `parse_cut` are its two failures, a checksum that
does not match and an end of input before the declared end.
-/
import Pysubunit.V2.ParserTheorems
import Pysubunit.V2.Run

namespace Pysubunit.V2

open ByteLib

/-! ## One packet -/

/-- The run from a given state of the decoder. -/
def runFrom (polls : Polls) (name : Option String) (codec : Codec) (source : Bytes) :
    List Action × Except Error RunState :=
  (runLoop polls name).run { codec, source }

section Run

variable {polls : Polls} {name : Option String} {codec : Codec}

theorem run_eq_runFrom (input : Bytes) :
    run polls name input
      = { actions := (runFrom polls name {} input).1
          result := (runFrom polls name {} input).2.map (·.source) } := rfl

theorem runFrom_nil (polls : Polls) (name : Option String) (codec : Codec) :
    runFrom polls name codec [] = ([], .ok { codec, source := [] }) :=
  Loop.run_stop (L := runLoop polls name) (s := { codec, source := [] }) rfl

/-- A signature between characters starts a packet. -/
theorem runPass_signature (hmid : codec.midCharacter = false) (source : Bytes) :
    runPass polls name { codec, source := signature :: source } = dispatch [] codec source := by
  unfold runPass
  dsimp only
  rw [hmid]
  rfl

theorem dispatch_of_not_raised {before : List Action} {source : Bytes}
    (h : (parse source).raised = none) :
    dispatch before codec source
      = (before ++ [.packet (signature :: source) (parse source)],
          .again { codec, source := (parse source).unread }) :=
  Prod.ext (dispatch_fst _ _ _) (by rw [dispatch_snd, h])

/-- One pass over a packet, decoded or reported. -/
theorem run_packet (polls : Polls) (name : Option String) (hmid : codec.midCharacter = false)
    {source : Bytes} (h : (parse source).raised = none) :
    runFrom polls name codec (signature :: source)
      = (.packet (signature :: source) (parse source)
            :: (runFrom polls name codec (parse source).unread).1,
          (runFrom polls name codec (parse source).unread).2) := by
  have hpass : (runLoop polls name).body { codec, source := signature :: source }
      = ([.packet (signature :: source) (parse source)],
          .again { codec, source := (parse source).unread }) := by
    rw [runLoop_body, runPass_signature hmid, dispatch_of_not_raised h, List.nil_append]
  unfold runFrom
  rw [Loop.run_again (congrArg Prod.snd hpass), hpass]
  rfl

end Run

/-- What a written packet makes the run do. -/
def packetAction (call : StatusCall) (rest : Bytes) : Action :=
  .packet (packetBytes call ++ rest) (parse (unsigned call ++ rest))

/-- A passing test with a tag, in one packet. -/
def passed : StatusCall where
  event := { testId := some "t", testStatus := some .success, testTags := some {"x"} }
  tagOrder := ["x"]
  tagOrder_enumerates := rfl

theorem encodable_passed : Encodable passed.event := by
  constructor <;> simp [passed, NulFree]

theorem packetLength_passed : packetLength passed ≤ maxPacketLength := by decide

theorem written_passed : Written passed :=
  written_iff.mpr ⟨encodable_passed.writable, packetLength_passed⟩

theorem admitted_passed : admitted [passed] = [passed] :=
  List.filter_cons_of_pos (by simpa using packetLength_passed)

/-- The start of the test. -/
def started : StatusCall where
  event := { testId := some "t", testStatus := some .inprogress,
             timestamp := some ⟨1400000000123456⟩ }
  tagOrder := []
  tagOrder_enumerates := noTags_enumerates

/-- A file of the test. -/
def attached (content : Bytes) : StatusCall where
  event := { testId := some "t", fileName := some "log", fileBytes := some content, eof := true,
             mimeType := some "text/plain", routeCode := some "0" }
  tagOrder := []
  tagOrder_enumerates := noTags_enumerates

theorem encodable_started : Encodable started.event := by
  constructor <;> simp [started, NulFree]

theorem encodable_attached (content : Bytes) : Encodable (attached content).event := by
  constructor <;> simp [attached, NulFree]

/-- A file that is longer than a packet may be is refused. -/
theorem admitted_attached {content : Bytes} (h : maxPacketLength < content.length)
    (calls : List StatusCall) : admitted (attached content :: calls) = admitted calls := by
  have hwhole := wholeLength_eq (7 + (fieldsBytes (attached content)).length)
  have hcontent : content.length ≤ (fieldsBytes (attached content)).length := by
    simp only [fieldsBytes, attached, fileFieldBytes, optionBytes, fileContentBytes,
      List.length_append]
    omega
  have hlong : maxPacketLength < packetLength (attached content) := by
    unfold packetLength
    omega
  exact List.filter_cons_of_neg (by simpa using hlong)

/-- A test from its start to its status. -/
def testCalls : List StatusCall := [started, attached (ascii "done\n"), passed]

theorem encodable_testCalls : ∀ call ∈ testCalls, Encodable call.event := by
  simp [testCalls, encodable_started, encodable_attached, encodable_passed]

theorem admitted_testCalls : admitted testCalls = testCalls := by
  refine List.filter_eq_self.mpr fun call hcall => ?_
  simp only [testCalls, List.mem_cons, List.not_mem_nil, or_false] at hcall
  rcases hcall with rfl | rfl | rfl <;> decide +kernel

/-- An output stream that accepts one byte at a time. -/
def byteByByte : PartialWrites where
  accept _ offered := min 1 offered
  accepts_one _ _ h := Nat.le_min.mpr ⟨Nat.le_refl 1, h⟩
  accepts_at_most _ _ := Nat.min_le_right _ _

theorem packetAction_events {call : StatusCall} (h : Written call) (name : Option String)
    (rest : Bytes) : (packetAction call rest).events name = packetEvents call :=
  events_unsigned h rest

/-- One pass over a written packet. -/
theorem run_packetBytes {polls : Polls} {name : Option String} {codec : Codec}
    (hmid : codec.midCharacter = false) {call : StatusCall} (h : Written call) (rest : Bytes) :
    runFrom polls name codec (packetBytes call ++ rest)
      = (packetAction call rest :: (runFrom polls name codec rest).1,
          (runFrom polls name codec rest).2) := by
  obtain ⟨-, hunread, -⟩ := parse_unsigned h rest
  have hrun := run_packet polls name hmid (raised_unsigned h rest)
  rw [hunread] at hrun
  rw [packetBytes_eq, List.cons_append, hrun, packetAction, packetBytes_eq, List.cons_append]

/-- A run of written packets, and then the rest. -/
theorem run_packets (polls : Polls) (name : Option String) {codec : Codec}
    (hmid : codec.midCharacter = false) (calls : List StatusCall)
    (h : ∀ call ∈ calls, Written call ∧ Encodable call.event) (rest : Bytes) :
    (runFrom polls name codec (calls.flatMap packetBytes ++ rest)).1.flatMap (Action.events name)
        = calls.map (fun call => delivered call.event)
          ++ (runFrom polls name codec rest).1.flatMap (Action.events name)
    ∧ (runFrom polls name codec (calls.flatMap packetBytes ++ rest)).2
        = (runFrom polls name codec rest).2 := by
  induction calls with
  | nil => exact ⟨rfl, rfl⟩
  | cons call calls ih =>
    obtain ⟨ih1, ih2⟩ := ih fun c hc => h c (by simp [hc])
    obtain ⟨hcall, he⟩ := h call (by simp)
    rw [List.flatMap_cons, List.append_assoc, run_packetBytes hmid hcall]
    refine ⟨?_, ih2⟩
    rw [List.flatMap_cons, ih1, packetAction_events hcall, packetEvents_encodable hcall he]
    rfl

/-- The calls of a sequence that write a packet. -/
theorem written_of_mem_admitted {calls : List StatusCall}
    (h : ∀ call ∈ calls, Encodable call.event) :
    ∀ call ∈ admitted calls, Written call ∧ Encodable call.event := by
  intro call hcall
  obtain ⟨hmem, hle⟩ := List.mem_filter.mp hcall
  exact ⟨written_iff.mpr ⟨(h call hmem).writable, by simpa using hle⟩, h call hmem⟩

/-! ## The round trip -/

/-- The run over everything that some calls write. -/
theorem run_statusAll (w : PartialWrites) (polls : Polls) (name : Option String)
    (calls : List StatusCall) (h : ∀ call ∈ calls, Encodable call.event) :
    (run polls name (statusAll w {} calls).written).result = .ok []
    ∧ (run polls name (statusAll w {} calls).written).events name
        = (admitted calls).map fun call => delivered call.event := by
  have hwritten := statusAll_written w {} calls fun call hcall => (h call hcall).writable
  rw [List.nil_append] at hwritten
  obtain ⟨hevents, hresult⟩ := run_packets polls name
    (rfl : ({} : Codec).midCharacter = false) _ (written_of_mem_admitted h) []
  rw [List.append_nil, runFrom_nil] at hevents hresult
  rw [hwritten, run_eq_runFrom, RunResult.events, hevents, hresult]
  exact ⟨rfl, List.append_nil _⟩

/-- **The round trip.** A call is refused with `ValueError` and writes
nothing exactly when its packet would exceed the policy, and otherwise
appends one packet that declares its own length; the run over everything
written emits the events of the calls that were not refused, in order, and
nothing else. -/
theorem statusAll_run (w : PartialWrites) (polls : Polls) (name : Option String)
    (calls : List StatusCall) (h : ∀ call ∈ calls, Encodable call.event) :
    (∀ call ∈ calls, ∀ out,
      (((∃ m, (status w out call).1 = .error (.valueError m)) ∧ (status w out call).2 = out)
          ↔ maxPacketLength < packetLength call)
      ∧ (packetLength call ≤ maxPacketLength →
          (status w out call).1 = .ok ()
          ∧ ∃ whole, (status w out call).2.written = out.written ++ signature :: whole
            ∧ (declaredLength whole).map (·.1) = some (signature :: whole).length))
    ∧ (run polls name (statusAll w {} calls).written).result = .ok []
    ∧ (run polls name (statusAll w {} calls).written).events name
        = (admitted calls).map fun call => delivered call.event := by
  refine ⟨fun call hcall out => ?_, run_statusAll w polls name calls h⟩
  have hspec := status_written w out (h call hcall).writable
  refine ⟨⟨?_, ?_⟩, fun hle => ?_⟩
  · rintro ⟨⟨m, he⟩, -⟩
    rcases hspec with ⟨-, hok, -⟩ | ⟨hlt, -⟩
    · rw [hok] at he
      cases he
    · exact hlt
  · intro hlt
    rcases hspec with ⟨hle, -⟩ | ⟨-, he, hout⟩
    · omega
    · exact ⟨he, hout⟩
  · rcases hspec with ⟨-, hok, hw⟩ | ⟨hlt, -⟩
    · refine ⟨hok, unsigned call, by rw [hw, packetBytes_eq], ?_⟩
      rw [declaredLength_unsigned hle, List.length_cons, length_unsigned]
      rfl
    · omega

/-- A file that is refused, and a test behind it. -/
theorem statusAll_run_passed :
    let calls := attached (List.replicate 4194304 0) :: testCalls
    (run inMemory none (statusAll byteByByte {} calls).written).result = .ok []
    ∧ (run inMemory none (statusAll byteByByte {} calls).written).events none
        = [started.event, (attached (ascii "done\n")).event, passed.event] := by
  intro calls
  have hrefused : admitted calls = testCalls :=
    (admitted_attached (by rw [List.length_replicate]; decide) testCalls).trans admitted_testCalls
  have h := (statusAll_run byteByByte inMemory none calls (List.forall_mem_cons.mpr
    ⟨encodable_attached _, encodable_testCalls⟩)).2
  rw [hrefused] at h
  exact h

/-! ## One byte damaged -/

/-- The checksum of a written packet is that of what stands before it. -/
theorem crc32_sumBytes (call : StatusCall) :
    (Crc32.crc32 (signature :: (headBytes call ++ fieldsBytes call)) 0).toNat
      = beNat (sumBytes call) := by
  rw [sumBytes, beNat_beBytes 4 _ (Nat.lt_of_lt_of_eq (BitVec.isLt _) (by decide))]
  rfl

/-- A substituted byte changes the checksum of what it stands in. -/
theorem crc32_set_ne {front : Bytes} {k : Nat} {x : UInt8} (hk : k < front.length)
    (hx : front[k]? ≠ some x) :
    (Crc32.crc32 (signature :: front.set k x) 0).toNat
      ≠ (Crc32.crc32 (signature :: front) 0).toNat := by
  have hset : signature :: front.set k x
      = (signature :: front.take k) ++ x :: front.drop (k + 1) := by
    rw [List.set_eq_take_append_cons_drop, if_pos hk, List.cons_append]
  have hsplit : signature :: front
      = (signature :: front.take k) ++ front[k] :: front.drop (k + 1) := by
    rw [List.cons_append, List.getElem_cons_drop, List.take_append_drop]
  have hne : x ≠ front[k] := by
    rintro rfl
    exact hx (List.getElem?_eq_getElem hk)
  intro he
  rw [hset, hsplit] at he
  exact Crc32.crc32_substitute _ _ _ hne (BitVec.toNat_inj.mp he)

/-- A substituted byte changes the number that a word spells. -/
theorem beNat_set_ne {sum : Bytes} {k : Nat} {x : UInt8} (hk : k < sum.length)
    (hx : sum[k]? ≠ some x) : beNat sum ≠ beNat (sum.set k x) := by
  intro he
  have hset := beNat_injective (List.length_set).symm he
  have hget : (sum.set k x)[k]? = some x := by rw [List.getElem?_set_self hk]
  rw [← hset] at hget
  exact hx hget

/-- A substitution outside the length field leaves the declared length. -/
theorem declaredLength_set {call : StatusCall} (hlen : packetLength call ≤ maxPacketLength)
    {k : Nat} {x : UInt8} (hlength : k < 2 ∨ 2 + numberWidth (packetLength call) ≤ k)
    (rest : Bytes) :
    declaredLength ((unsigned call).set k x ++ rest)
      = some (packetLength call, numberWidth (packetLength call)) := by
  have hge := packetLength_ge call
  have hul := length_unsigned call
  have hshape : unsigned call = beBytes 2 (packetFlags call)
      ++ (numberBytes (packetLength call) ++ (fieldsBytes call ++ sumBytes call)) := by
    simp only [unsigned, headBytes, List.append_assoc]
  have h5 : 5 ≤ ((unsigned call).set k x ++ rest).length := by
    rw [List.length_append, List.length_set]
    omega
  rcases hlength with hk | hk
  · have hset : (unsigned call).set k x ++ rest = (beBytes 2 (packetFlags call)).set k x
        ++ (numberBytes (packetLength call) ++ (fieldsBytes call ++ sumBytes call ++ rest)) := by
      rw [hshape, List.set_append_left _ _ (by rw [length_beBytes]; exact hk)]
      simp only [List.append_assoc]
    rw [hset] at h5 ⊢
    exact declaredLength_of_head (by rw [List.length_set, length_beBytes]) hlen h5
  · have hset : (unsigned call).set k x ++ rest = beBytes 2 (packetFlags call)
        ++ (numberBytes (packetLength call)
          ++ ((fieldsBytes call ++ sumBytes call).set
            (k - 2 - numberWidth (packetLength call)) x ++ rest)) := by
      rw [hshape, List.set_append_right _ _ (by rw [length_beBytes]; omega), length_beBytes,
        List.set_append_right _ _ (by rw [length_numberBytes]; omega), length_numberBytes]
      simp only [List.append_assoc]
    rw [hset] at h5 ⊢
    exact declaredLength_of_head (length_beBytes _ _) hlen h5

/-- **A substituted byte is found out.** Outside the length field it is
covered by the checksum or belongs to it. -/
theorem parse_substituted {call : StatusCall} (hlen : packetLength call ≤ maxPacketLength)
    {k : Nat} {x : UInt8} (hk : k < (unsigned call).length) (hx : (unsigned call)[k]? ≠ some x)
    (hlength : k < 2 ∨ 2 + numberWidth (packetLength call) ≤ k) (rest : Bytes) :
    (∃ message, (parse ((unsigned call).set k x ++ rest)).result = .error (.parseError message))
    ∧ (parse ((unsigned call).set k x ++ rest)).unread = rest
    ∧ join (parse ((unsigned call).set k x ++ rest)).packet
        = signature :: (unsigned call).set k x := by
  have hd := declaredLength_set hlen (x := x) hlength rest
  have hul := length_unsigned call
  have hsum := length_sumBytes call
  have hpacket : (headBytes call ++ fieldsBytes call).length + 5 = packetLength call := by
    rw [unsigned, List.length_append] at hul
    omega
  have hfront : 5 ≤ (headBytes call ++ fieldsBytes call).length
      ∨ (1 ≤ (headBytes call ++ fieldsBytes call).length
        ∧ numberWidth (packetLength call) ≠ 3) := by
    have := length_headBytes call
    rw [List.length_append]
    omega
  rcases Nat.lt_or_ge k (headBytes call ++ fieldsBytes call).length with hkf | hkf
  · have hset : (unsigned call).set k x
        = (headBytes call ++ fieldsBytes call).set k x ++ sumBytes call := by
      rw [unsigned, List.set_append_left _ _ hkf]
    have hget : (unsigned call)[k]? = (headBytes call ++ fieldsBytes call)[k]? := by
      rw [unsigned, List.getElem?_append_left hkf]
    rw [hset] at hd ⊢
    refine parse_bad (by rw [List.length_set, hpacket]; exact hd) hsum
      (by rw [List.length_set]; exact hfront) ?_
    rw [← crc32_sumBytes]
    exact crc32_set_ne hkf (by rwa [hget] at hx)
  · have hks : k - (headBytes call ++ fieldsBytes call).length < (sumBytes call).length := by
      rw [unsigned, List.length_append] at hk
      omega
    have hset : (unsigned call).set k x = (headBytes call ++ fieldsBytes call)
        ++ (sumBytes call).set (k - (headBytes call ++ fieldsBytes call).length) x := by
      rw [unsigned, List.set_append_right _ _ hkf]
    have hget : (unsigned call)[k]?
        = (sumBytes call)[k - (headBytes call ++ fieldsBytes call).length]? := by
      rw [unsigned, List.getElem?_append_right hkf]
    rw [hset] at hd ⊢
    refine parse_bad (by rw [hpacket]; exact hd) (by rw [List.length_set, hsum]) hfront ?_
    rw [crc32_sumBytes]
    exact beNat_set_ne hks (by rwa [hget] at hx)

/-- The events that report a packet do not depend on how it is cut into
fragments. -/
theorem parserErrors_congr {packet packet' : List Bytes} (h : join packet = join packet')
    (message : String) : parserErrors packet message = parserErrors packet' message := by
  unfold parserErrors
  rw [h]

/-- **Damage containment.** A byte of any packet of the stream other than its
signature and its length field replaced by another turns that packet into the
two error events, with the damaged packet as the packet data, and leaves
every other packet its event. -/
theorem run_damaged (w : PartialWrites) (polls : Polls) (name : Option String)
    (calls before after : List StatusCall) (call : StatusCall) (k : Nat) (x : UInt8)
    (h : ∀ call ∈ calls, Encodable call.event)
    (hcalls : admitted calls = before ++ call :: after)
    (hk : k < (packetBytes call).length) (hx : (packetBytes call)[k]? ≠ some x)
    (hsignature : k ≠ 0) (hlength : ¬ (3 ≤ k ∧ k < 3 + numberWidth (packetLength call))) :
    ∃ message,
      (run polls name ((statusAll w {} calls).written.set
          ((before.flatMap packetBytes).length + k) x)).result = .ok []
      ∧ (run polls name ((statusAll w {} calls).written.set
          ((before.flatMap packetBytes).length + k) x)).events name
        = before.map (fun call => delivered call.event)
          ++ parserErrors [(packetBytes call).set k x] message
          ++ after.map (fun call => delivered call.event) := by
  have hwritten := written_of_mem_admitted h
  rw [hcalls] at hwritten
  obtain ⟨j, rfl⟩ : ∃ j, k = j + 1 := ⟨k - 1, by omega⟩
  simp only [packetBytes_eq, List.length_cons, List.getElem?_cons_succ] at hk hx
  have hstream : (statusAll w {} calls).written.set ((before.flatMap packetBytes).length + (j + 1)) x
      = before.flatMap packetBytes
        ++ signature :: ((unsigned call).set j x ++ after.flatMap packetBytes) := by
    rw [statusAll_written w {} calls fun call hcall => (h call hcall).writable, hcalls]
    simp only [List.nil_append, List.flatMap_append, List.flatMap_cons, packetBytes_eq]
    rw [List.set_append_right _ _ (by omega), Nat.add_sub_cancel_left, List.cons_append,
      List.set_cons_succ, List.set_append_left _ _ (by omega)]
  obtain ⟨⟨message, herr⟩, hunread, hjoin⟩ := parse_substituted
    (written_iff.mp (hwritten call (by simp)).1).2 (by omega) hx (by omega)
    (after.flatMap packetBytes)
  have hraised : (parse ((unsigned call).set j x ++ after.flatMap packetBytes)).raised = none := by
    rw [ParseResult.raised, herr]
  have herrors : parserErrors
        (parse ((unsigned call).set j x ++ after.flatMap packetBytes)).packet message
      = parserErrors [(packetBytes call).set (j + 1) x] message := by
    refine parserErrors_congr ?_ message
    rw [hjoin, packetBytes_eq, List.set_cons_succ, join, List.flatten_singleton]
  obtain ⟨hev1, hres1⟩ := run_packets polls name
    (rfl : ({} : Codec).midCharacter = false) before (fun c hc => hwritten c (by simp [hc]))
    (signature :: ((unsigned call).set j x ++ after.flatMap packetBytes))
  obtain ⟨hev2, hres2⟩ := run_packets polls name
    (rfl : ({} : Codec).midCharacter = false) after (fun c hc => hwritten c (by simp [hc])) []
  rw [List.append_nil, runFrom_nil] at hev2 hres2
  rw [run_packet polls name rfl hraised, hunread] at hev1 hres1
  refine ⟨message, ?_⟩
  rw [hstream, run_eq_runFrom, RunResult.events, hev1, hres1, hres2]
  refine ⟨rfl, ?_⟩
  rw [List.flatMap_cons, hev2, Action.events, ParseResult.events, herr]
  dsimp only
  rw [herrors, List.flatMap_nil, List.append_nil, List.append_assoc]

/-- A byte of a file changed on the way, between two packets that arrive. -/
theorem run_damaged_passed :
    let file := attached (ascii "done\n")
    ∃ message,
      (run inMemory none ((statusAll byteByByte {} testCalls).written.set
          (([started].flatMap packetBytes).length + 22) 0x44)).result = .ok []
      ∧ (run inMemory none ((statusAll byteByByte {} testCalls).written.set
          (([started].flatMap packetBytes).length + 22) 0x44)).events none
        = [started].map (fun call => delivered call.event)
          ++ parserErrors [(packetBytes file).set 22 0x44] message
          ++ [passed].map (fun call => delivered call.event) :=
  run_damaged byteByByte inMemory none testCalls [started] [passed] (attached (ascii "done\n")) 22
    0x44 encodable_testCalls admitted_testCalls (by decide +kernel) (by decide +kernel) (by decide)
    (by decide +kernel)

/-! ## The end cut off -/

/-- The calls whose packets lie wholly inside the first `n` bytes. -/
def inside : List StatusCall → Nat → List StatusCall
  | [], _ => []
  | call :: calls, n =>
    if packetLength call ≤ n then call :: inside calls (n - packetLength call) else []

/-- A run over the first `n` bytes of some packets. -/
theorem run_take {polls : Polls} {name : Option String} {calls : List StatusCall}
    (h : ∀ call ∈ calls, Written call ∧ Encodable call.event) (n : Nat) :
    ∃ packet message,
      (run polls name ((calls.flatMap packetBytes).take n)).result = .ok []
      ∧ (run polls name ((calls.flatMap packetBytes).take n)).events name
        = (inside calls n).map (fun call => delivered call.event)
          ++ (if (inside calls n).flatMap packetBytes = (calls.flatMap packetBytes).take n then []
            else parserErrors packet message) := by
  induction calls generalizing n with
  | nil => exact ⟨[], "", by simp [run_eq_runFrom, runFrom_nil, inside, RunResult.events,
      Except.map]⟩
  | cons call calls ih =>
    obtain ⟨hcall, he⟩ := h call (by simp)
    rw [List.flatMap_cons, inside]
    split
    · rename_i hle
      obtain ⟨packet, message, hres, hev⟩ := ih (fun c hc => h c (by simp [hc]))
        (n - packetLength call)
      refine ⟨packet, message, ?_⟩
      rw [List.take_append, length_packetBytes,
        List.take_of_length_le (by rw [length_packetBytes]; exact hle), run_eq_runFrom,
        run_packetBytes rfl hcall]
      rw [run_eq_runFrom] at hres hev
      refine ⟨hres, ?_⟩
      simp only [RunResult.events, List.flatMap_cons, packetAction_events hcall,
        packetEvents_encodable hcall he] at hev ⊢
      rw [hev, List.map_cons]
      simp only [List.append_cancel_left_eq, List.cons_append, List.nil_append]
    · rename_i hlt
      have hul := length_unsigned call
      rw [List.take_append_of_le_length (by rw [length_packetBytes]; omega), packetBytes_eq]
      cases n with
      | zero => exact ⟨[], "", by simp [run_eq_runFrom, runFrom_nil, RunResult.events,
          Except.map]⟩
      | succ n =>
        rw [List.take_succ_cons]
        have hd := declaredLength_unsigned (written_iff.mp hcall).2
        rw [← hul] at hd
        obtain ⟨⟨message, herr⟩, hunread⟩ := parse_cut hd (n := n) (by omega)
        have hraised : (parse ((unsigned call).take n)).raised = none := by
          rw [ParseResult.raised, herr]
        refine ⟨(parse ((unsigned call).take n)).packet, message, ?_⟩
        rw [run_eq_runFrom, run_packet polls name rfl hraised, hunread, runFrom_nil]
        refine ⟨rfl, ?_⟩
        rw [if_neg (by simp)]
        simp only [RunResult.events, List.flatMap_cons, List.flatMap_nil, Action.events,
          ParseResult.events, herr, List.append_nil, List.map_nil, List.nil_append]

/-- **Truncation.** Cut anywhere, the stream still yields the events of the
packets that lie wholly before the cut, and then the two error events unless
the cut falls between packets. -/
theorem run_truncated (w : PartialWrites) (polls : Polls) (name : Option String)
    (calls : List StatusCall) (h : ∀ call ∈ calls, Encodable call.event) (n : Nat) :
    ∃ packet message,
      (run polls name ((statusAll w {} calls).written.take n)).result = .ok []
      ∧ (run polls name ((statusAll w {} calls).written.take n)).events name
        = (inside (admitted calls) n).map (fun call => delivered call.event)
          ++ (if (inside (admitted calls) n).flatMap packetBytes
                = (statusAll w {} calls).written.take n then []
            else parserErrors packet message) := by
  have hstream := statusAll_written w {} calls fun call hcall => (h call hcall).writable
  rw [List.nil_append] at hstream
  rw [hstream]
  exact run_take (written_of_mem_admitted h) n

/-- The file of a test cut short: the start of the test is there, its status is not. -/
theorem run_truncated_passed :
    ∃ packet message,
      (run inMemory none ((statusAll byteByByte {} testCalls).written.take 40)).result = .ok []
      ∧ (run inMemory none ((statusAll byteByByte {} testCalls).written.take 40)).events none
        = [started.event] ++ parserErrors packet message := by
  obtain ⟨packet, message, hresult, hevents⟩ :=
    run_truncated byteByByte inMemory none testCalls encodable_testCalls 40
  have hinside : inside (admitted testCalls) 40 = [started] := by
    rw [admitted_testCalls, testCalls, inside, if_pos (by decide +kernel), inside,
      if_neg (by decide +kernel)]
  have hcut : [started].flatMap packetBytes ≠ (statusAll byteByByte {} testCalls).written.take 40 := by
    decide +kernel
  rw [hinside, if_neg hcut] at hevents
  exact ⟨packet, message, hresult, hevents⟩

end Pysubunit.V2
