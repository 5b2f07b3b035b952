/-
ByteLib.Bytes — byte strings as lists, slices, and big-endian words.

A byte string is a `List UInt8`. A slice is cut the way a dynamic language
cuts it: a bound past the end shortens the result and never fails. A word
of `w` octets is written most significant octet first by `beBytes` and
read back by `beNat`; `beNat_beBytes` and `beBytes_beNat` are the round trips
and `beNat_lt` the bound on what `w` octets can hold.
-/
import Mathlib.Algebra.Ring.Int.Defs
import Mathlib.Algebra.Ring.Nat
import Mathlib.Data.List.Induction
import Mathlib.Tactic.Common

namespace ByteLib

/-- A byte string. -/
abbrev Bytes := List UInt8

/-- The bytes of an ASCII literal. -/
def ascii (s : String) : Bytes := s.toList.map fun c => UInt8.ofNat c.toNat

/-- `b[pos:pos+len]`: shorter than `len` where the string ends first. -/
def slice (b : Bytes) (pos len : Nat) : Bytes := (b.drop pos).take len

/-- The last `len` bytes, `b[-len:]`. -/
def lastBytes (b : Bytes) (len : Nat) : Bytes := b.drop (b.length - len)

/-- All but the last `len` bytes, `b[:-len]`. -/
def dropLastBytes (b : Bytes) (len : Nat) : Bytes := b.take (b.length - len)

theorem slice_of_drop {b enc rest : Bytes} {pos : Nat} (h : b.drop pos = enc ++ rest) :
    slice b pos enc.length = enc := by
  rw [slice, h, List.take_left']
  rfl

theorem drop_add_of_drop {b enc rest : Bytes} {pos : Nat} (h : b.drop pos = enc ++ rest) :
    b.drop (pos + enc.length) = rest := by
  rw [← List.drop_drop, h, List.drop_left']
  rfl

theorem dropLastBytes_append (a b : Bytes) : dropLastBytes (a ++ b) b.length = a := by
  rw [dropLastBytes, List.length_append, Nat.add_sub_cancel, List.take_left']
  rfl

theorem lastBytes_append (a b : Bytes) : lastBytes (a ++ b) b.length = b := by
  rw [lastBytes, List.length_append, Nat.add_sub_cancel, List.drop_left']
  rfl

theorem dropLastBytes_append_of_le {b : Bytes} {len : Nat} (a : Bytes) (h : len ≤ b.length) :
    dropLastBytes (a ++ b) len = a ++ dropLastBytes b len := by
  rw [dropLastBytes, dropLastBytes, List.length_append, Nat.add_sub_assoc h, List.take_append,
    List.take_of_length_le (Nat.le_add_right _ _), Nat.add_sub_cancel_left]

theorem lastBytes_append_of_le {b : Bytes} {len : Nat} (a : Bytes) (h : len ≤ b.length) :
    lastBytes (a ++ b) len = lastBytes b len := by
  rw [lastBytes, lastBytes, List.length_append, Nat.add_sub_assoc h, List.drop_append,
    List.drop_eq_nil_of_le (Nat.le_add_right _ _), Nat.add_sub_cancel_left, List.nil_append]

theorem length_lastBytes {b : Bytes} {len : Nat} (h : len ≤ b.length) :
    (lastBytes b len).length = len := by
  rw [lastBytes, List.length_drop]
  omega

/-! ## Big-endian words -/

/-- The low `w` octets of `n`, most significant first. -/
def beBytes : Nat → Nat → Bytes
  | 0, _ => []
  | w + 1, n => beBytes w (n / 256) ++ [UInt8.ofNat (n % 256)]

/-- The number a run of octets spells, most significant first. -/
def beNat (b : Bytes) : Nat := b.foldl (fun acc x => acc * 256 + x.toNat) 0

@[simp] theorem length_beBytes (w n : Nat) : (beBytes w n).length = w := by
  induction w generalizing n with
  | zero => rfl
  | succ w ih => simp [beBytes, ih]

theorem beNat_concat (b : Bytes) (x : UInt8) : beNat (b ++ [x]) = beNat b * 256 + x.toNat := by
  simp [beNat]

theorem toNat_ofNat_mod (n : Nat) : (UInt8.ofNat (n % 256)).toNat = n % 256 := by
  rw [UInt8.toNat_ofNat']
  omega

theorem toNat_ofNat_lt {n : Nat} (h : n < 256) : (UInt8.ofNat n).toNat = n := by
  rw [UInt8.toNat_ofNat']
  omega

/-- A number that fits in `w` octets is read back from them. -/
theorem beNat_beBytes (w n : Nat) (h : n < 256 ^ w) : beNat (beBytes w n) = n := by
  induction w generalizing n with
  | zero =>
    have : n = 0 := by simpa using h
    subst this; rfl
  | succ w ih =>
    have hdiv : n / 256 < 256 ^ w := by
      rw [Nat.pow_succ] at h
      exact Nat.div_lt_of_lt_mul (by omega)
    rw [beBytes, beNat_concat, ih _ hdiv, toNat_ofNat_mod]
    omega

/-- `w` octets spell a number below `256 ^ w`. -/
theorem beNat_lt (b : Bytes) : beNat b < 256 ^ b.length := by
  induction b using List.reverseRecOn with
  | nil => simp [beNat]
  | append_singleton b x ih =>
    have hx := x.toNat_lt
    rw [beNat_concat, List.length_append, List.length_singleton, Nat.pow_succ]
    omega

/-- The octets of a word are determined by the number they spell. -/
theorem beBytes_beNat (b : Bytes) : beBytes b.length (beNat b) = b := by
  induction b using List.reverseRecOn with
  | nil => rfl
  | append_singleton b x ih =>
    have hx := x.toNat_lt
    have hdiv : (beNat b * 256 + x.toNat) / 256 = beNat b := by omega
    have hmod : (beNat b * 256 + x.toNat) % 256 = x.toNat := by omega
    rw [beNat_concat, List.length_append, List.length_singleton, beBytes, hdiv, hmod, ih,
      UInt8.ofNat_toNat]

theorem beNat_injective {a b : Bytes} (hlen : a.length = b.length) (h : beNat a = beNat b) :
    a = b := by
  rw [← beBytes_beNat a, ← beBytes_beNat b, hlen, h]

theorem beNat_singleton (x : UInt8) : beNat [x] = x.toNat := by simp [beNat]

end ByteLib
