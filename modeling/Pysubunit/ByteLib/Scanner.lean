/-
ByteLib.Scanner — scanners that consume a byte string from the front, and
readers that follow them.

A `Scanner α` takes a value off the front of a byte string and returns what
is left; it fails because the bytes ran out (`ranOut`) or because it refuses
what it saw (`refused`). It knows no offsets, so it is how a grammar is
written down. A positional reader `Follows` a scanner when, from every
offset, it reads the same value, stops where the same bytes are left and
fails for the same reason. `Follows.bind`, `Follows.optionally` and
`Follows.replicate` compose such facts field by field.
-/
import Pysubunit.ByteLib.Reader

namespace ByteLib

/-- Why a scanner fails. -/
inductive Refusal where
  | ranOut
  | refused
  deriving DecidableEq, Repr

/-- A scanner: a value off the front of a byte string and what is left. -/
def Scanner (α : Type) := Bytes → Except Refusal (α × Bytes)

namespace Scanner

variable {α β : Type}

protected def pure (v : α) : Scanner α := fun rem => .ok (v, rem)

protected def bind (s : Scanner α) (f : α → Scanner β) : Scanner β := fun rem =>
  match s rem with
  | .error x => .error x
  | .ok (v, rem') => f v rem'

instance : Monad Scanner where
  pure := Scanner.pure
  bind := Scanner.bind

/-- The next `n` bytes, if there are so many; `lack` says what it means if
there are not. -/
def take (lack : Refusal) (n : Nat) : Scanner Bytes := fun rem =>
  if n ≤ rem.length then .ok (rem.take n, rem.drop n) else .error lack

/-- Scan with `s` where the field is announced, and nothing elsewhere. -/
def optionally (announced : Bool) (s : Scanner α) : Scanner (Option α) :=
  if announced then s.bind fun v => Scanner.pure (some v) else Scanner.pure none

/-- Scan `n` items one after the other. -/
def replicate (s : Scanner α) : Nat → Scanner (List α)
  | 0 => Scanner.pure []
  | n + 1 => s.bind fun v => (replicate s n).bind fun vs => Scanner.pure (v :: vs)

end Scanner

/-- `r` reads from every offset what `s` scans from the bytes there, and fails
with an error that means the same. -/
def Follows {ε α : Type} (Means : ε → Refusal → Prop) (r : Reader ε α) (s : Scanner α) : Prop :=
  ∀ (body : Bytes) (pos : Nat),
    match s (body.drop pos) with
    | .ok (v, rem) => ∃ pos', r body pos = .ok (v, pos') ∧ body.drop pos' = rem
    | .error x => ∃ e, r body pos = .error e ∧ Means e x

namespace Follows

variable {ε α β : Type} {Means : ε → Refusal → Prop}

protected theorem pure (v : α) : Follows Means (Reader.pure v) (Scanner.pure v) :=
  fun _ pos => ⟨pos, rfl, rfl⟩

/-- Two fields in a row. -/
protected theorem bind {r : Reader ε α} {s : Scanner α} {f : α → Reader ε β} {g : α → Scanner β}
    (h : Follows Means r s) (hf : ∀ v, Follows Means (f v) (g v)) :
    Follows Means (Reader.bind r f) (Scanner.bind s g) := by
  intro body pos
  have h' := h body pos
  cases hs : s (body.drop pos) with
  | error x =>
    rw [hs] at h'
    obtain ⟨e, hr, hm⟩ := h'
    simp only [Scanner.bind, Reader.bind, hs, hr]
    exact ⟨e, rfl, hm⟩
  | ok p =>
    obtain ⟨v, rem⟩ := p
    rw [hs] at h'
    obtain ⟨pos', hr, hrem⟩ := h'
    have h'' := hf v body pos'
    rw [hrem] at h''
    simp only [Scanner.bind, Reader.bind, hs, hr]
    exact h''

theorem optionally (announced : Bool) {r : Reader ε α} {s : Scanner α} (h : Follows Means r s) :
    Follows Means (Reader.optionally announced r) (Scanner.optionally announced s) := by
  cases announced with
  | true => exact h.bind fun v => Follows.pure (some v)
  | false => exact Follows.pure none

theorem replicate {r : Reader ε α} {s : Scanner α} (h : Follows Means r s) (n : Nat) :
    Follows Means (Reader.replicate r n) (Scanner.replicate s n) := by
  induction n with
  | zero => exact Follows.pure []
  | succ n ih => exact h.bind fun v => ih.bind fun vs => Follows.pure (v :: vs)

end Follows

end ByteLib
