/-
ByteLib.Burst — the CRC-32 of data with a burst of damaged bits.

A reflected checksum takes the bits of each byte least significant first
(`bits`). Up to thirty-two bits taken one at a time leave what one word of
them, added to the register at once, leaves (`bitSteps_word`), because a
shift is linear and a bit that enters early only moves down until its turn
(`shift_shiftLeft_word`). So two windows of at most thirty-two bits that leave
one register are equal, and data that differ by such a burst have different
checksums (`crc32_burst`).
-/
import Pysubunit.ByteLib.Crc32

namespace ByteLib.Crc32

/-! ## Bits in the order of the checksum -/

/-- The bits of a byte, least significant first. -/
def byteBits (b : UInt8) : List Bool := (List.range 8).map b.toBitVec.getLsbD

/-- The bits of a byte string, in the order in which the register takes them. -/
def bits (data : Bytes) : List Bool := data.flatMap byteBits

@[simp] theorem length_byteBits (b : UInt8) : (byteBits b).length = 8 := by simp [byteBits]

theorem byteBits_injective {b c : UInt8} (h : byteBits b = byteBits c) : b = c := by
  apply UInt8.toBitVec_inj.mp
  apply BitVec.eq_of_getLsbD_eq
  intro i hi
  have hget := congrArg (fun l => l[i]?) h
  simpa [byteBits, hi] using hget

@[simp] theorem bits_append (x y : Bytes) : bits (x ++ y) = bits x ++ bits y :=
  List.flatMap_append

theorem length_bits (data : Bytes) : (bits data).length = 8 * data.length := by
  induction data with
  | nil => rfl
  | cons b data ih =>
    rw [bits, List.flatMap_cons, List.length_append, length_byteBits, ← bits, ih,
      List.length_cons]
    omega

theorem bits_injective {x y : Bytes} (h : bits x = bits y) : x = y := by
  induction x generalizing y with
  | nil =>
    have hlen := congrArg List.length h
    rw [length_bits, length_bits, List.length_nil] at hlen
    exact (List.eq_nil_of_length_eq_zero (by omega)).symm
  | cons b x ih =>
    cases y with
    | nil => simp [bits, byteBits] at h
    | cons c y =>
      simp only [bits, List.flatMap_cons] at h
      obtain ⟨hb, hx⟩ := List.append_inj h (by simp)
      rw [byteBits_injective hb, ih hx]

/-! ## The register, bit by bit -/

/-- One bit of data through the register. -/
def bitStep (s : BitVec 32) (b : Bool) : BitVec 32 := shift (s ^^^ (BitVec.ofBool b).setWidth 32)

/-- Bits of data through the register, the first one first. -/
def bitSteps (s : BitVec 32) (l : List Bool) : BitVec 32 := l.foldl bitStep s

/-- The word that some bits spell, the first one least significant. -/
def word : List Bool → BitVec 32
  | [] => 0
  | b :: l => (BitVec.ofBool b).setWidth 32 ^^^ word l <<< 1

theorem getLsbD_word (l : List Bool) (i : Nat) (hi : i < 32) :
    (word l).getLsbD i = l.getD i false := by
  induction l generalizing i with
  | nil => simp [word]
  | cons b l ih =>
    cases i with
    | zero => simp [word]
    | succ i => simpa [word, hi, show i < 32 by omega] using ih i (by omega)

/-- A shift is linear in exclusive or. -/
theorem shift_xor (s t : BitVec 32) : shift (s ^^^ t) = shift s ^^^ shift t := by
  have hcancel : ∀ a b : BitVec 32, a ^^^ polynomial ^^^ (b ^^^ polynomial) = a ^^^ b := by
    intro a b
    rw [BitVec.xor_comm b, BitVec.xor_assoc, ← BitVec.xor_assoc polynomial, BitVec.xor_self,
      BitVec.zero_xor]
  unfold shift
  rw [BitVec.getLsbD_xor, BitVec.ushiftRight_xor_distrib]
  cases s.getLsbD 0 with
  | false => cases t.getLsbD 0 <;> simp [BitVec.xor_assoc]
  | true =>
    cases t.getLsbD 0 with
    | false => simp [BitVec.xor_assoc, BitVec.xor_comm polynomial]
    | true => simp [hcancel]

/-- A word of fewer than thirty-two bits moves down whole. -/
theorem shift_shiftLeft_word {l : List Bool} (h : l.length < 32) :
    shift (word l <<< 1) = word l := by
  unfold shift
  rw [if_neg (by simp)]
  apply BitVec.eq_of_getLsbD_eq
  intro i hi
  rw [BitVec.getLsbD_ushiftRight, BitVec.getLsbD_shiftLeft]
  rcases Nat.lt_or_ge (1 + i) 32 with hlt | hge
  · simp [hlt]
  · have : i = 31 := by omega
    subst this
    have htop : (word l).getLsbD 31 = false := by
      rw [getLsbD_word l 31 hi, List.getD_eq_getElem?_getD, List.getElem?_eq_none (by omega)]
      rfl
    simpa using htop

/-- Bits taken one by one leave what their word leaves, added at once. -/
theorem bitSteps_word {l : List Bool} (h : l.length ≤ 32) (s : BitVec 32) :
    bitSteps s l = shifts l.length (s ^^^ word l) := by
  induction l generalizing s with
  | nil => simp [bitSteps, word, shifts]
  | cons b l ih =>
    rw [List.length_cons] at h
    calc bitSteps s (b :: l)
        = bitSteps (bitStep s b) l := rfl
      _ = shifts l.length (bitStep s b ^^^ word l) := ih (by omega) _
      _ = shifts l.length (bitStep s b ^^^ shift (word l <<< 1)) := by
          rw [shift_shiftLeft_word (by omega)]
      _ = shifts l.length (shift (s ^^^ word (b :: l))) := by
          rw [bitStep, ← shift_xor, word, BitVec.xor_assoc]
      _ = shifts (b :: l).length (s ^^^ word (b :: l)) := rfl

theorem word_byteBits (b : UInt8) : word (byteBits b) = b.toBitVec.setWidth 32 := by
  apply BitVec.eq_of_getLsbD_eq
  intro i hi
  rw [getLsbD_word _ i hi, BitVec.getLsbD_setWidth]
  rcases Nat.lt_or_ge i 8 with hlt | hge
  · simp [byteBits, hlt, hi]
  · rw [BitVec.getLsbD_of_ge b.toBitVec i hge, Bool.and_false, List.getD_eq_getElem?_getD,
      List.getElem?_eq_none (by simpa using hge)]
    rfl

/-- A byte goes through the register as its bits do. -/
theorem byteStep_eq_bitSteps (s : BitVec 32) (b : UInt8) :
    byteStep s b = bitSteps s (byteBits b) := by
  rw [bitSteps_word (by simp), length_byteBits, word_byteBits, byteStep]

theorem update_eq_bitSteps (s : BitVec 32) (data : Bytes) :
    update s data = bitSteps s (bits data) := by
  induction data generalizing s with
  | nil => rfl
  | cons b data ih =>
    calc update s (b :: data)
        = update (byteStep s b) data := rfl
      _ = bitSteps (bitSteps s (byteBits b)) (bits data) := by rw [byteStep_eq_bitSteps, ih]
      _ = bitSteps s (bits (b :: data)) := by
          rw [bitSteps, bitSteps, ← List.foldl_append]
          rfl

/-! ## Bursts -/

theorem bitSteps_injective_register (l : List Bool) {s t : BitVec 32}
    (h : bitSteps s l = bitSteps t l) : s = t := by
  induction l generalizing s t with
  | nil => exact h
  | cons b l ih => exact (BitVec.xor_left_inj _).mp (shift_injective (ih h))

/-- The register keeps apart any two windows of at most thirty-two bits. -/
theorem bitSteps_injective_window {s : BitVec 32} {l m : List Bool} (hlen : l.length = m.length)
    (h32 : l.length ≤ 32) (h : bitSteps s l = bitSteps s m) : l = m := by
  rw [bitSteps_word h32, bitSteps_word (hlen ▸ h32), ← hlen] at h
  have hword : word l = word m := (BitVec.xor_right_inj s).mp (shifts_injective _ h)
  apply List.ext_getElem hlen
  intro i hl hm
  have hget := congrArg (fun w => w.getLsbD i) hword
  simpa [getLsbD_word _ i (show i < 32 by omega), hl, hm] using hget

/-- The two byte strings differ in at most `n` consecutive bits. -/
def Burst (n : Nat) (x y : Bytes) : Prop :=
  ∃ before window window' after,
    bits x = before ++ window ++ after ∧ bits y = before ++ window' ++ after
      ∧ window.length = window'.length ∧ window.length ≤ n

/-- Whole bytes replaced are a burst. -/
theorem burst_bytes {n : Nat} (before : Bytes) {window window' : Bytes} (after : Bytes)
    (hlen : window.length = window'.length) (hn : 8 * window.length ≤ n) :
    Burst n (before ++ window ++ after) (before ++ window' ++ after) :=
  ⟨bits before, bits window, bits window', bits after, by simp, by simp,
    by rw [length_bits, length_bits, hlen], by rwa [length_bits]⟩

theorem Burst.length_eq {n : Nat} {x y : Bytes} (h : Burst n x y) : x.length = y.length := by
  obtain ⟨before, window, window', after, hx, hy, hlen, -⟩ := h
  have hbits : (bits x).length = (bits y).length := by
    rw [hx, hy]
    simp [hlen]
  rw [length_bits, length_bits] at hbits
  omega

/-- **Every burst of at most thirty-two bits changes the checksum.** -/
theorem crc32_burst {x y : Bytes} (h : Burst 32 x y) (hne : x ≠ y) (value : BitVec 32) :
    crc32 x value ≠ crc32 y value := by
  obtain ⟨before, window, window', after, hx, hy, hlen, h32⟩ := h
  intro he
  have hupdate : update (~~~value) x = update (~~~value) y := BitVec.not_inj.mp he
  rw [update_eq_bitSteps, update_eq_bitSteps, hx, hy] at hupdate
  simp only [bitSteps, List.foldl_append] at hupdate
  have hwindow : window = window' :=
    bitSteps_injective_window hlen h32 (bitSteps_injective_register after hupdate)
  exact hne (bits_injective (by rw [hx, hy, hwindow]))

end ByteLib.Crc32
