/-
Pysubunit.V2.BurstTheorems — a stream whose packets arrive damaged by bursts.

A burst replaces at most thirty-two consecutive bits of a packet. Signature
and length field are what the parser finds the packet by, so they are taken
to arrive as they were written. The checksum is stored most significant octet
first, so across its border the bits do not follow one another as it counts
them, and a burst lies before the checksum or inside it. `Arrives` says all
this of one packet, intact or damaged, and `run_received` folds one pass over
one packet along the stream.
-/
import Pysubunit.V2.PacketStreamTheorems
import Pysubunit.ByteLib.Burst

namespace Pysubunit.V2

open ByteLib

/-! ## What arrives in the place of a packet -/

/-- `received` is the packet of `call`, or that packet with a burst in it. -/
structure Arrives (call : StatusCall) (received : Bytes) : Prop where
  burst : Crc32.Burst 32 (packetBytes call) received
  keepsSignature : received.head? = some signature
  keepsLength :
    slice received 3 (numberWidth (packetLength call)) = numberBytes (packetLength call)
  oneSide : lastBytes received 4 = lastBytes (packetBytes call) 4
    ∨ dropLastBytes received 4 = dropLastBytes (packetBytes call) 4

/-- The report on a packet whose checksum does not match. -/
def checksumMessage (received : Bytes) : String :=
  "Bad checksum - calculated (0x" ++ hex (Crc32.crc32 (dropLastBytes received 4) 0).toNat
    ++ "), stored (0x" ++ hex (beNat (lastBytes received 4)) ++ ")"

/-- The events of what arrived in the place of a packet. -/
def receivedEvents (call : StatusCall) (received : Bytes) : List StatusEvent :=
  if received = packetBytes call then [delivered call.event]
  else parserErrors [received] (checksumMessage received)

/-! ## The report -/

theorem parseBody_message {flags pos : Nat} {before : List Bytes} {last received : Bytes}
    (h : 4 ≤ last.length) (hsum : packetChecksum before last ≠ beNat (lastBytes last 4))
    (hfront : dropLastBytes received 4 = join before ++ dropLastBytes last 4)
    (hlast : lastBytes received 4 = lastBytes last 4) :
    parseBody flags before last pos = .error (.parseError (checksumMessage received)) := by
  unfold parseBody checksumMessage
  rw [structUnpack_of_length (length_lastBytes h), ok_bind, if_pos hsum, packetChecksum_eq, hfront,
    hlast]
  rfl

/-- A whole packet whose checksum does not match is reported with the checksum
it should have had and the one it has. -/
theorem wholeResult_message {consumed : Nat} {whole : Bytes} (flags : Nat) (unread : Bytes)
    (h5 : 5 ≤ whole.length) (hlen : consumed = 3 → 9 ≤ whole.length)
    (hsum : ¬ SumMatches whole) :
    (wholeResult flags consumed whole unread).result
      = .error (.parseError (checksumMessage (signature :: whole))) := by
  have hfront : dropLastBytes (signature :: whole) 4 = [signature] ++ dropLastBytes whole 4 :=
    dropLastBytes_append_of_le (b := whole) [signature] (by omega)
  have hlast : lastBytes (signature :: whole) 4 = lastBytes whole 4 :=
    lastBytes_append_of_le (b := whole) [signature] (by omega)
  unfold wholeResult
  by_cases h3 : consumed ≠ 3
  · rw [if_pos h3]
    exact parseBody_message (by omega) (mt checksum_one.mp hsum) hfront hlast
  · have h9 := hlen (not_not.mp h3)
    rw [if_neg h3]
    refine parseBody_message (by rw [List.length_drop]; omega) (mt (checksum_two h9).mp hsum) ?_ ?_
    · rw [hfront, (lastFragment h9).2]
      simp [join]
    · rw [hlast, (lastFragment h9).1]

/-! ## The checksum decides -/

section Arrives

variable {call : StatusCall} {whole : Bytes}

theorem Arrives.length_whole (h : Arrives call (signature :: whole)) :
    whole.length = (unsigned call).length := by
  have hlen := h.burst.length_eq
  rw [packetBytes_eq, List.length_cons, List.length_cons] at hlen
  omega

/-- The length field says how long the packet is, whatever follows it. -/
theorem Arrives.declaredLength (h : Arrives call (signature :: whole))
    (hlen : packetLength call ≤ maxPacketLength) (rest : Bytes) :
    declaredLength (whole ++ rest) = some (packetLength call, numberWidth (packetLength call)) := by
  have hwhole := h.length_whole
  have hul := length_unsigned call
  have hge := packetLength_ge call
  have hfield : slice whole 2 (numberWidth (packetLength call))
      = numberBytes (packetLength call) := h.keepsLength
  have hcut : whole.drop 2 = numberBytes (packetLength call)
      ++ whole.drop (2 + numberWidth (packetLength call)) := by
    rw [← hfield, slice, ← List.drop_drop, List.take_append_drop]
  have hshape : whole ++ rest = whole.take 2 ++ (numberBytes (packetLength call)
      ++ (whole.drop (2 + numberWidth (packetLength call)) ++ rest)) := by
    rw [← List.append_assoc (numberBytes _), ← hcut, ← List.append_assoc,
      List.take_append_drop]
  have h5 : 5 ≤ (whole ++ rest).length := by
    rw [List.length_append]
    omega
  rw [hshape] at h5 ⊢
  exact declaredLength_of_head (by rw [List.length_take]; omega) hlen h5

/-- **The checksum matches exactly when the packet is intact.** -/
theorem Arrives.sumMatches_iff (h : Arrives call (signature :: whole)) :
    SumMatches whole ↔ whole = unsigned call := by
  have hwhole := h.length_whole
  have hul := length_unsigned call
  have hge := packetLength_ge call
  have hintact : SumMatches (unsigned call) :=
    (sumMatches_append (length_sumBytes call)).mpr (crc32_sumBytes call)
  refine ⟨fun hmatches => ?_, fun he => he ▸ hintact⟩
  by_contra hne
  have hside := h.oneSide
  rw [packetBytes_eq, ← List.singleton_append, ← List.singleton_append (l := unsigned call),
    lastBytes_append_of_le _ (by omega), lastBytes_append_of_le _ (by omega),
    dropLastBytes_append_of_le _ (by omega), dropLastBytes_append_of_le _ (by omega),
    List.append_cancel_left_eq] at hside
  have hsplit : ∀ b : Bytes, signature :: dropLastBytes b 4 ++ lastBytes b 4 = signature :: b :=
    fun b => congrArg (signature :: ·) (List.take_append_drop _ b)
  unfold SumMatches at hmatches hintact
  rcases hside with hlast | hfront
  · rw [hlast, ← hintact] at hmatches
    have hcrc := BitVec.toNat_inj.mp hmatches
    refine Crc32.crc32_burst h.burst ?_ 0 ?_
    · rw [packetBytes_eq]
      exact fun he => hne (List.cons.inj he).2.symm
    · rw [packetBytes_eq, ← hsplit whole, ← hsplit (unsigned call), ← Crc32.crc32_append,
        ← Crc32.crc32_append, hcrc, hlast]
  · rw [hfront, hintact] at hmatches
    have hlast := beNat_injective
      (by rw [length_lastBytes (by omega), length_lastBytes (by omega)]) hmatches
    have hwholes := congrArg₂ (fun a b : Bytes => signature :: a ++ b) hfront hlast.symm
    rw [hsplit, hsplit] at hwholes
    exact hne (List.cons.inj hwholes).2

/-- A packet with a burst in it is reported whole, with both checksums. -/
theorem Arrives.parse_damaged (h : Arrives call (signature :: whole))
    (hlen : packetLength call ≤ maxPacketLength) (hne : whole ≠ unsigned call) (rest : Bytes) :
    (parse (whole ++ rest)).result
        = .error (.parseError (checksumMessage (signature :: whole)))
    ∧ (parse (whole ++ rest)).unread = rest
    ∧ join (parse (whole ++ rest)).packet = signature :: whole := by
  have hwhole := h.length_whole
  have hul := length_unsigned call
  have hge := packetLength_ge call
  have hparts : (unsigned call).length
      = (headBytes call).length + (fieldsBytes call).length + (sumBytes call).length := by
    rw [unsigned, List.length_append, List.length_append]
  rw [length_headBytes, length_sumBytes] at hparts
  have hsub : packetLength call - 1 = whole.length := by omega
  rw [parse_whole (by rw [List.length_append]; omega) (h.declaredLength hlen rest) (by omega)
    (by rw [List.length_append]; omega), hsub, List.take_left' rfl, List.drop_left' rfl]
  refine ⟨?_, wholeResult_unread, join_wholeResult_packet⟩
  exact wholeResult_message _ _ (by omega) (fun h3 => by omega) (mt h.sumMatches_iff.mp hne)

end Arrives

/-! ## The stream -/

/-- One pass over what arrived in the place of a packet. -/
theorem run_arrives (polls : Polls) (name : Option String) {codec : Codec}
    (hmid : codec.midCharacter = false) {call : StatusCall} {received : Bytes}
    (hwritten : Written call) (he : Encodable call.event) (h : Arrives call received)
    (rest : Bytes) :
    (runFrom polls name codec (received ++ rest)).1.flatMap (Action.events name)
        = receivedEvents call received
          ++ (runFrom polls name codec rest).1.flatMap (Action.events name)
    ∧ (runFrom polls name codec (received ++ rest)).2 = (runFrom polls name codec rest).2 := by
  obtain ⟨whole, rfl⟩ : ∃ whole, received = signature :: whole := by
    cases received with
    | nil => cases h.keepsSignature
    | cons b whole =>
      cases h.keepsSignature
      exact ⟨whole, rfl⟩
  unfold receivedEvents
  by_cases hintact : signature :: whole = packetBytes call
  · rw [if_pos hintact, hintact]
    have hrun := run_packets polls name hmid [call] (by simpa using ⟨hwritten, he⟩) rest
    simpa using hrun
  · have hne : whole ≠ unsigned call := by
      rw [packetBytes_eq] at hintact
      exact fun hw => hintact (congrArg (signature :: ·) hw)
    obtain ⟨hresult, hunread, hjoin⟩ :=
      h.parse_damaged (written_iff.mp hwritten).2 hne rest
    have hraised : (parse (whole ++ rest)).raised = none := by rw [ParseResult.raised, hresult]
    rw [if_neg hintact, List.cons_append, run_packet polls name hmid hraised, hunread,
      List.flatMap_cons, Action.events, ParseResult.events, hresult]
    refine ⟨?_, rfl⟩
    have hpacket : join (parse (whole ++ rest)).packet = join [signature :: whole] := by
      rw [hjoin]
      simp [join]
    dsimp only
    rw [parserErrors_congr hpacket]

/-- The run over a stream of packets, each intact or with a burst in it. -/
theorem run_received (polls : Polls) (name : Option String) {codec : Codec}
    (hmid : codec.midCharacter = false) {calls : List StatusCall} {received : List Bytes}
    (hwritten : ∀ call ∈ calls, Written call ∧ Encodable call.event)
    (h : List.Forall₂ Arrives calls received) :
    (runFrom polls name codec received.flatten).1.flatMap (Action.events name)
        = (List.zipWith receivedEvents calls received).flatten
    ∧ (runFrom polls name codec received.flatten).2 = .ok { codec, source := [] } := by
  induction h with
  | nil => rw [List.flatten_nil, runFrom_nil]; exact ⟨rfl, rfl⟩
  | @cons call piece calls received harrives h ih =>
    obtain ⟨ihEvents, ihResult⟩ := ih fun c hc => hwritten c (by simp [hc])
    obtain ⟨hcall, he⟩ := hwritten call (by simp)
    obtain ⟨hevents, hresult⟩ := run_arrives polls name hmid hcall he harrives received.flatten
    rw [List.flatten_cons, List.zipWith_cons_cons, List.flatten_cons, hevents, hresult, ihEvents,
      ihResult]
    exact ⟨rfl, rfl⟩

/-- **Bursts are contained.** Every packet of a written stream may arrive with
its own burst of at most thirty-two damaged bits, wholly in front of the
checksum or wholly inside it, and outside signature and length. An intact packet
gives its event; a damaged one gives the two error events, with all of it as the
packet data and both checksums in the message. Nothing is lost or gained around
it. -/
theorem run_bursts (w : PartialWrites) (polls : Polls) (name : Option String)
    (calls : List StatusCall) (h : ∀ call ∈ calls, Encodable call.event) (received : List Bytes)
    (harrives : List.Forall₂ Arrives (admitted calls) received) :
    (statusAll w {} calls).written = ((admitted calls).map packetBytes).flatten
    ∧ (run polls name received.flatten).result = .ok []
    ∧ (run polls name received.flatten).events name
        = (List.zipWith receivedEvents (admitted calls) received).flatten := by
  have hwritten := statusAll_written w {} calls fun call hcall => (h call hcall).writable
  obtain ⟨hevents, hresult⟩ := run_received polls name (rfl : ({} : Codec).midCharacter = false)
    (written_of_mem_admitted h) harrives
  rw [run_eq_runFrom, RunResult.events, hevents, hresult]
  refine ⟨?_, rfl, rfl⟩
  rw [hwritten, List.nil_append, List.flatMap_def]

/-- The packet of `passed` with its id and the lengths in its tags overwritten. -/
def overwritten : Bytes :=
  [0xB3, 0x29, 0x83, 0x0D, 0xFF, 0xFF, 0xFF, 0xFF, 0x78, 0xEB, 0x83, 0xCE, 0x39]

theorem packetBytes_passed : packetBytes passed
    = [0xB3, 0x29, 0x83, 0x0D, 0x01, 0x74, 0x01, 0x01, 0x78, 0xEB, 0x83, 0xCE, 0x39] := by
  decide +kernel

theorem arrives_overwritten : Arrives passed overwritten where
  burst := by
    rw [packetBytes_passed]
    exact @Crc32.burst_bytes 32 [0xB3, 0x29, 0x83, 0x0D] [0x01, 0x74, 0x01, 0x01]
      [0xFF, 0xFF, 0xFF, 0xFF] [0x78, 0xEB, 0x83, 0xCE, 0x39] rfl (by decide)
  keepsSignature := rfl
  keepsLength := by decide
  oneSide := by
    rw [packetBytes_passed]
    exact .inl rfl

/-- Nothing is damaged. -/
theorem arrives_intact (call : StatusCall) : Arrives call (packetBytes call) where
  burst := by simpa using @Crc32.burst_bytes 32 (packetBytes call) [] [] [] rfl (by decide)
  keepsSignature := by rw [packetBytes_eq, List.head?_cons]
  keepsLength := by
    have hdrop : (packetBytes call).drop 3 = numberBytes (packetLength call)
        ++ (fieldsBytes call ++ beBytes 4 (Crc32.crc32 (packetContent call) 0).toNat) := by
      simp [packetBytes, packetContent, length_beBytes]
    rw [slice, hdrop, List.take_left' (length_numberBytes _)]
  oneSide := .inl rfl

/-- The last packet of a test is damaged. -/
theorem run_bursts_passed :
    let received := [packetBytes started, packetBytes (attached (ascii "done\n")), overwritten]
    (statusAll byteByByte {} testCalls).written = ((admitted testCalls).map packetBytes).flatten
    ∧ (run inMemory none received.flatten).result = .ok []
    ∧ (run inMemory none received.flatten).events none
        = (List.zipWith receivedEvents (admitted testCalls) received).flatten := by
  intro received
  refine run_bursts byteByByte inMemory none testCalls encodable_testCalls received ?_
  rw [admitted_testCalls]
  exact .cons (arrives_intact _) (.cons (arrives_intact _) (.cons arrives_overwritten .nil))

end Pysubunit.V2
