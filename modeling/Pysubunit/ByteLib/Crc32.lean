/-
ByteLib.Crc32 — the standard CRC-32 (reflected, polynomial 0xEDB88320).

`crc32 data value` continues a checksum: `value` is the checksum of what
came before, zero at the start. `crc32_append` says that summing fragment by
fragment is summing their concatenation. The register is shifted by an
injective map (`shift_injective`: the polynomial's top bit records the bit
shifted out), so a substitution of one byte anywhere in the data changes
the checksum (`crc32_substitute`).
-/
import Pysubunit.ByteLib.Bytes

namespace ByteLib.Crc32

/-- The reflected generator polynomial. -/
def polynomial : BitVec 32 := 0xEDB88320#32

/-- One bit through the register. -/
def shift (s : BitVec 32) : BitVec 32 :=
  if s.getLsbD 0 then (s >>> 1) ^^^ polynomial else s >>> 1

/-- `n` bits through the register. -/
def shifts : Nat → BitVec 32 → BitVec 32
  | 0, s => s
  | n + 1, s => shifts n (shift s)

/-- One byte through the register. -/
def byteStep (s : BitVec 32) (b : UInt8) : BitVec 32 :=
  shifts 8 (s ^^^ b.toBitVec.setWidth 32)

/-- A byte string through the register. -/
def update (s : BitVec 32) (data : Bytes) : BitVec 32 := data.foldl byteStep s

/-- The checksum of `data`, continued from the checksum `value`. -/
def crc32 (data : Bytes) (value : BitVec 32) : BitVec 32 := ~~~(update (~~~value) data)

/-- Summing two fragments is summing their concatenation. -/
theorem crc32_append (a b : Bytes) (value : BitVec 32) :
    crc32 b (crc32 a value) = crc32 (a ++ b) value := by
  rw [crc32, crc32, crc32, BitVec.not_not, update, update, update, List.foldl_append]

/-! ## One byte changed -/

/-- The top bit of the shifted register is the bit shifted out. -/
theorem getLsbD_shift_top (s : BitVec 32) : (shift s).getLsbD 31 = s.getLsbD 0 := by
  have htop : (s >>> 1).getLsbD 31 = false := by
    rw [BitVec.getLsbD_ushiftRight]
    exact BitVec.getLsbD_of_ge s 32 (Nat.le_refl 32)
  have hpoly : polynomial.getLsbD 31 = true := by decide
  unfold shift
  cases h : s.getLsbD 0 with
  | true => rw [if_pos rfl, BitVec.getLsbD_xor, htop, hpoly]; rfl
  | false => rw [if_neg (by simp), htop]

theorem shift_injective {s t : BitVec 32} (h : shift s = shift t) : s = t := by
  have hbit : s.getLsbD 0 = t.getLsbD 0 := by
    rw [← getLsbD_shift_top s, h, getLsbD_shift_top t]
  have hshift : s >>> 1 = t >>> 1 := by
    unfold shift at h
    rw [hbit] at h
    cases hb : t.getLsbD 0 with
    | true =>
      rw [hb, if_pos rfl, if_pos rfl] at h
      exact (BitVec.xor_left_inj polynomial).mp h
    | false => rwa [hb, if_neg (by simp), if_neg (by simp)] at h
  apply BitVec.eq_of_getLsbD_eq
  intro i hi
  match i with
  | 0 => exact hbit
  | i + 1 =>
    have := congrArg (fun v => BitVec.getLsbD v i) hshift
    simpa [BitVec.getLsbD_ushiftRight, Nat.add_comm] using this

theorem shifts_injective (n : Nat) {s t : BitVec 32} (h : shifts n s = shifts n t) : s = t := by
  induction n generalizing s t with
  | zero => exact h
  | succ n ih => exact shift_injective (ih h)

theorem byteStep_injective_register {s t : BitVec 32} {b : UInt8}
    (h : byteStep s b = byteStep t b) : s = t :=
  (BitVec.xor_left_inj _).mp (shifts_injective 8 h)

theorem byteStep_injective_byte {s : BitVec 32} {b c : UInt8}
    (h : byteStep s b = byteStep s c) : b = c := by
  have hw : b.toBitVec.setWidth 32 = c.toBitVec.setWidth 32 :=
    (BitVec.xor_right_inj s).mp (shifts_injective 8 h)
  apply UInt8.toBitVec_inj.mp
  apply BitVec.eq_of_toNat_eq
  have := congrArg BitVec.toNat hw
  have hb := b.toNat_lt
  have hc := c.toNat_lt
  simp only [BitVec.toNat_setWidth, UInt8.toNat_toBitVec] at this ⊢
  omega

theorem update_injective (data : Bytes) {s t : BitVec 32} (h : update s data = update t data) :
    s = t := by
  induction data generalizing s t with
  | nil => exact h
  | cons b data ih => exact byteStep_injective_register (ih h)

/-- **A substituted byte changes the checksum**, wherever it stands. -/
theorem crc32_substitute (a : Bytes) {x y : UInt8} (b : Bytes) (value : BitVec 32) (h : x ≠ y) :
    crc32 (a ++ x :: b) value ≠ crc32 (a ++ y :: b) value := by
  intro he
  simp only [crc32, update, List.foldl_append, List.foldl_cons] at he
  exact h (byteStep_injective_byte (update_injective b (BitVec.not_inj.mp he)))

example : crc32 (ascii "123456789") 0 = 0xCBF43926#32 := by decide +kernel

end ByteLib.Crc32
