/-
ByteLib.Numeral — numerals in a base up to 36, written and read.

`numeral` writes a number with upper-case digits and no leading zero. `intOf`
reads an integer back: blanks around it, a sign in front and single
underscores between its digits are accepted, a base prefix is not.
`intOf_numeral` and `intOf_signed` are the round trips. `mem_numeral` says
that a numeral consists of digits, so no separator occurs in one.
-/
import Mathlib.Data.Nat.Digits.Lemmas
import Pysubunit.ByteLib.Words

namespace ByteLib

/-- The byte of a digit. -/
def digitByte (d : Nat) : UInt8 :=
  if d < 10 then UInt8.ofNat (48 + d) else UInt8.ofNat (55 + d)

/-- The digit that a byte stands for, in either case. -/
def digitValue (base : Nat) (b : UInt8) : Option Nat :=
  let n := b.toNat
  let value :=
    if 48 ≤ n ∧ n ≤ 57 then some (n - 48)
    else if 65 ≤ n ∧ n ≤ 90 then some (n - 55)
    else if 97 ≤ n ∧ n ≤ 122 then some (n - 87)
    else none
  value.filter fun d => d < base

/-- The numeral of `n`. -/
def numeral (base n : Nat) : Bytes :=
  if n = 0 then [48] else ((Nat.digits base n).map digitByte).reverse

/-- Read digits behind the number `acc`; `digit` says whether the byte before
was one. -/
def readDigits (base : Nat) : Nat → Bool → Bytes → Option Nat
  | acc, digit, [] => if digit then some acc else none
  | acc, digit, b :: bs =>
    match digitValue base b with
    | some d => readDigits base (acc * base + d) true bs
    | none => if b = 95 ∧ digit then readDigits base acc false bs else none

/-- `int(b, base)` of Python 3.6; before that, underscores are refused. -/
def intOf (base : Nat) (b : Bytes) : Option Int :=
  match strip b with
  | 43 :: ds => (readDigits base 0 false ds).map fun n => (n : Int)
  | 45 :: ds => (readDigits base 0 false ds).map fun n => -(n : Int)
  | ds => (readDigits base 0 false ds).map fun n => (n : Int)

/-! ## Digits -/

theorem digitValue_digitByte {base d : Nat} (hd : d < base) (hbase : base ≤ 36) :
    digitValue base (digitByte d) = some d := by
  have htable : ∀ e < 36, (let n := (digitByte e).toNat
      if 48 ≤ n ∧ n ≤ 57 then some (n - 48)
      else if 65 ≤ n ∧ n ≤ 90 then some (n - 55)
      else if 97 ≤ n ∧ n ≤ 122 then some (n - 87)
      else none) = some e := by decide
  rw [digitValue]
  rw [htable d (by omega)]
  simp [hd]

theorem isSpace_digitByte {d : Nat} (hd : d < 36) : isSpace (digitByte d) = false := by
  have htable : ∀ e < 36, isSpace (digitByte e) = false := by decide
  exact htable d hd

/-- A digit is no sign. -/
theorem digitByte_ne_sign {d : Nat} (hd : d < 36) : digitByte d ≠ 43 ∧ digitByte d ≠ 45 := by
  have htable : ∀ e < 36, digitByte e ≠ 43 ∧ digitByte e ≠ 45 := by decide
  exact htable d hd

theorem mem_numeral {base n : Nat} (hbase : 1 < base) {b : UInt8} (h : b ∈ numeral base n) :
    ∃ d < base, b = digitByte d := by
  unfold numeral at h
  split at h
  · rw [List.mem_singleton] at h
    exact ⟨0, by omega, h⟩
  · rw [List.mem_reverse, List.mem_map] at h
    obtain ⟨d, hd, rfl⟩ := h
    exact ⟨d, Nat.digits_lt_base hbase hd, rfl⟩

theorem numeral_ne_nil (base n : Nat) : numeral base n ≠ [] := by
  unfold numeral
  split
  · simp
  · rename_i hn
    rw [ne_eq, List.reverse_eq_nil_iff, List.map_eq_nil_iff]
    exact Nat.digits_ne_nil_iff_ne_zero.mpr hn

/-! ## Round trips -/

/-- Reading the bytes of digits. -/
theorem readDigits_map {base : Nat} (hbase : base ≤ 36) (ds : List Nat) (hds : ∀ d ∈ ds, d < base)
    (acc : Nat) {digit : Bool} (hsome : digit = true ∨ ds ≠ []) :
    readDigits base acc digit (ds.map digitByte)
      = some (ds.foldl (fun acc d => acc * base + d) acc) := by
  induction ds generalizing acc digit with
  | nil =>
    have hdigit : digit = true := by simpa using hsome
    simp [readDigits, hdigit]
  | cons d ds ih =>
    have hd : d < base := hds d (by simp)
    rw [List.map_cons, readDigits, digitValue_digitByte hd hbase]
    exact ih (fun e he => hds e (by simp [he])) _ (.inl rfl)

theorem readDigits_numeral {base : Nat} (hbase : 1 < base) (hle : base ≤ 36) (n : Nat) :
    readDigits base 0 false (numeral base n) = some n := by
  unfold numeral
  split
  · rename_i hn
    subst hn
    have hzero : readDigits base 0 false [digitByte 0] = some (0 * base + 0) :=
      readDigits_map hle [0] (by simp; omega) 0 (.inr (by simp))
    rw [Nat.zero_mul] at hzero
    exact hzero
  · rename_i hn
    rw [← List.map_reverse, readDigits_map hle _ _ 0 (.inr _), List.foldl_reverse]
    · have hvalue := Nat.ofDigits_digits base n
      rw [Nat.ofDigits_eq_foldr] at hvalue
      simpa [Nat.mul_comm, Nat.add_comm] using hvalue
    · intro d hd
      exact Nat.digits_lt_base hbase (List.mem_reverse.mp hd)
    · rw [ne_eq, List.reverse_eq_nil_iff]
      exact Nat.digits_ne_nil_iff_ne_zero.mpr hn

theorem strip_of_no_space {b : Bytes} (h : NoSpace b) : strip b = b := by
  have hdrop : b.dropWhile isSpace = b := by
    cases b with
    | nil => rfl
    | cons x b => simp [h x (by simp)]
  rw [strip, hdrop, List.rdropWhile_eq_self_iff]
  intro hne hlast
  rw [h _ (List.getLast_mem hne)] at hlast
  cases hlast

theorem noSpace_numeral {base n : Nat} (hbase : 1 < base) (hle : base ≤ 36) :
    NoSpace (numeral base n) := by
  intro b hb
  obtain ⟨d, hd, rfl⟩ := mem_numeral hbase hb
  exact isSpace_digitByte (by omega)

theorem intOf_numeral {base : Nat} (hbase : 1 < base) (hle : base ≤ 36) (n : Nat) :
    intOf base (numeral base n) = some (n : Int) := by
  have hstrip := strip_of_no_space (@noSpace_numeral base n hbase hle)
  have hread := readDigits_numeral hbase hle n
  obtain ⟨b, bs, hb⟩ := List.exists_cons_of_ne_nil (numeral_ne_nil base n)
  obtain ⟨d, hd, hdb⟩ := mem_numeral hbase (b := b) (n := n) (by simp [hb])
  have hsign := @digitByte_ne_sign d (by omega)
  rw [← hdb] at hsign
  unfold intOf
  rw [hstrip]
  split
  · rename_i hplus
    rw [hb] at hplus
    exact absurd (List.cons.inj hplus).1 hsign.1
  · rename_i hminus
    rw [hb] at hminus
    exact absurd (List.cons.inj hminus).1 hsign.2
  · rw [hread]
    rfl

/-- Without a minus sign no number is below zero. -/
theorem intOf_nonneg {base : Nat} {b : Bytes} {n : Int} (h : intOf base b = some n)
    (hb : (strip b).head? ≠ some 45) : 0 ≤ n := by
  unfold intOf at h
  split at h
  · rename_i ds hstrip
    cases hread : readDigits base 0 false ds <;> simp [hread] at h
    omega
  · rename_i hstrip
    rw [hstrip] at hb
    exact absurd rfl hb
  · cases hread : readDigits base 0 false (strip b) <;> simp [hread] at h
    omega

/-- A numeral behind a sign. -/
theorem intOf_signed {base : Nat} (hbase : 1 < base) (hle : base ≤ 36) {sign : UInt8}
    (h : sign = 43 ∨ sign = 45) (n : Nat) :
    intOf base (sign :: numeral base n) = some (if sign = 45 then -(n : Int) else n) := by
  have hsign : isSpace sign = false := by
    rcases h with rfl | rfl <;> rfl
  have hstrip : strip (sign :: numeral base n) = sign :: numeral base n :=
    strip_of_no_space (List.forall_mem_cons.mpr ⟨hsign, noSpace_numeral hbase hle⟩)
  rcases h with rfl | rfl <;> simp [intOf, hstrip, readDigits_numeral hbase hle n]

example : numeral 16 65536 = ascii "10000" := by decide
example : intOf 10 (ascii " -1_0\n") = some (-10) := by decide

end ByteLib
