/-
ByteLib.Format — byte formats as relations, and the scanners that decide them.

A `Format α` says which byte strings spell which values; it is how a document
states a grammar, with no order of reading and no errors. `Format.bind` puts one
format behind another, which may depend on the value in front of it. A scanner
`Scans` a format when it takes off the front of its input exactly the strings
of the format, whatever follows them; such facts are composed field by field
(`Scans.bind`, `Scans.optionally`, `Scans.replicate`), and a scanner that scans a
format makes the format unambiguous (`Scans.unique`).

`Covers F size good` says what any string of a format owes to its value: it is
no shorter than `size`, and the value is `good`. It is composed in the same way;
behind a field, only the rest of the size is still to be covered.
-/
import Pysubunit.ByteLib.Scanner

namespace ByteLib

/-- A format: which byte strings spell which values. -/
def Format (α : Type) := α → Bytes → Prop

namespace Format

variable {α β : Type}

/-- Nothing at all, for the value `v`. -/
protected def pure (v : α) : Format α := fun w b => w = v ∧ b = []

/-- One format behind another. -/
protected def bind (F : Format α) (G : α → Format β) : Format β := fun w b =>
  ∃ v b₁ b₂, F v b₁ ∧ G v w b₂ ∧ b = b₁ ++ b₂

instance : Monad Format where
  pure := Format.pure
  bind := Format.bind

/-- Any `n` bytes, for themselves. -/
def take (n : Nat) : Format Bytes := fun w b => w = b ∧ b.length = n

/-- The format `F` where the field is announced, and nothing elsewhere. -/
def optionally (announced : Bool) (F : Format α) : Format (Option α) :=
  if announced then F.bind fun v => Format.pure (some v) else Format.pure none

/-- The format `F`, `n` times. -/
def replicate (F : Format α) : Nat → Format (List α)
  | 0 => Format.pure []
  | n + 1 => F.bind fun v => (replicate F n).bind fun vs => Format.pure (v :: vs)

end Format

/-- `s` takes off the front of its input exactly the strings of `F`. -/
def Scans {α : Type} (s : Scanner α) (F : Format α) : Prop :=
  ∀ rem v rest, s rem = .ok (v, rest) ↔ ∃ b, F v b ∧ rem = b ++ rest

namespace Scans

variable {α β : Type} {s : Scanner α} {F : Format α}

/-- A string of the format is scanned, whatever follows it. -/
theorem scan (h : Scans s F) {v : α} {b : Bytes} (hb : F v b) (rest : Bytes) :
    s (b ++ rest) = .ok (v, rest) := (h _ _ _).mpr ⟨b, hb, rfl⟩

/-- A string spells one value. -/
theorem unique (h : Scans s F) {v w : α} {b : Bytes} (hv : F v b) (hw : F w b) : v = w := by
  have hscan := h.scan hv []
  rw [h.scan hw []] at hscan
  cases hscan
  rfl

protected theorem pure (v : α) : Scans (Scanner.pure v) (Format.pure v) := by
  intro rem w rest
  constructor
  · intro h
    cases h
    exact ⟨[], ⟨rfl, rfl⟩, rfl⟩
  · rintro ⟨b, ⟨rfl, rfl⟩, rfl⟩
    rfl

/-- One format behind another. -/
protected theorem bind {t : α → Scanner β} {G : α → Format β} (h : Scans s F)
    (ht : ∀ v, Scans (t v) (G v)) : Scans (Scanner.bind s t) (Format.bind F G) := by
  intro rem w rest
  constructor
  · intro hbind
    unfold Scanner.bind at hbind
    cases hs : s rem with
    | error x =>
      rw [hs] at hbind
      cases hbind
    | ok p =>
      obtain ⟨v, rem'⟩ := p
      rw [hs] at hbind
      obtain ⟨b₁, hb₁, rfl⟩ := (h _ _ _).mp hs
      obtain ⟨b₂, hb₂, rfl⟩ := (ht v _ _ _).mp hbind
      exact ⟨b₁ ++ b₂, ⟨v, b₁, b₂, hb₁, hb₂, rfl⟩, (List.append_assoc _ _ _).symm⟩
  · rintro ⟨b, ⟨v, b₁, b₂, hb₁, hb₂, rfl⟩, rfl⟩
    unfold Scanner.bind
    rw [List.append_assoc, h.scan hb₁]
    exact (ht v).scan hb₂ rest

theorem take (lack : Refusal) (n : Nat) : Scans (Scanner.take lack n) (Format.take n) := by
  intro rem w rest
  unfold Scanner.take
  constructor
  · intro h
    split at h
    · rename_i hn
      cases h
      exact ⟨rem.take n, ⟨rfl, List.length_take_of_le hn⟩, (List.take_append_drop n rem).symm⟩
    · cases h
  · rintro ⟨b, ⟨rfl, hlen⟩, rfl⟩
    rw [if_pos (by rw [List.length_append]; omega), List.take_left' hlen, List.drop_left' hlen]

theorem optionally (announced : Bool) (h : Scans s F) :
    Scans (Scanner.optionally announced s) (Format.optionally announced F) := by
  cases announced with
  | true => exact h.bind fun v => Scans.pure (some v)
  | false => exact Scans.pure none

theorem replicate (h : Scans s F) (n : Nat) :
    Scans (Scanner.replicate s n) (Format.replicate F n) := by
  induction n with
  | zero => exact Scans.pure []
  | succ n ih => exact h.bind fun v => ih.bind fun vs => Scans.pure (v :: vs)

end Scans

/-- The values of a format are `good`, and its strings are at least as long as
the `size` of their values. -/
def Covers {α : Type} (F : Format α) (size : α → Nat) (good : α → Prop) : Prop :=
  ∀ v b, F v b → good v ∧ size v ≤ b.length

namespace Covers

variable {α β : Type} {F : Format α} {size : α → Nat} {good : α → Prop}

protected theorem pure {v : α} (hgood : good v) (hsize : size v = 0) :
    Covers (Pure.pure v : Format α) size good := by
  rintro w b ⟨rfl, rfl⟩
  exact ⟨hgood, Nat.le_of_eq hsize⟩

/-- The first field covers its own part, the second one what is left. -/
protected theorem bind {G : α → Format β} {size' : β → Nat} {good' : β → Prop}
    (h : Covers F size good)
    (hG : ∀ v, good v → Covers (G v) (fun w => size' w - size v) good') :
    Covers (F >>= G) size' good' := by
  rintro w b ⟨v, b₁, b₂, hb₁, hb₂, rfl⟩
  obtain ⟨hv, hlen₁⟩ := h v b₁ hb₁
  obtain ⟨hw, hlen₂⟩ := hG v hv w b₂ hb₂
  refine ⟨hw, ?_⟩
  dsimp only at hlen₂
  rw [List.length_append]
  omega

theorem take (n : Nat) : Covers (Format.take n) List.length (fun b => b.length = n) := by
  rintro v b ⟨rfl, hlen⟩
  exact ⟨hlen, Nat.le_refl _⟩

theorem optionally (announced : Bool) (h : Covers F size good) :
    Covers (Format.optionally announced F) (fun o => o.elim 0 size) (fun o => ∀ v ∈ o, good v) := by
  cases announced with
  | true =>
    refine Covers.bind h fun v hv => Covers.pure ?_ ?_
    · rintro w ⟨⟩
      exact hv
    · exact Nat.sub_self _
  | false => exact Covers.pure (by simp) rfl

theorem replicate (h : Covers F size good) (n : Nat) :
    Covers (Format.replicate F n) (fun vs => (vs.map size).sum)
      (fun vs => vs.length = n ∧ ∀ v ∈ vs, good v) := by
  induction n with
  | zero => exact Covers.pure (by simp) rfl
  | succ n ih =>
    refine Covers.bind h fun v hv => Covers.bind ih fun vs hvs => Covers.pure ?_ ?_
    · exact ⟨by rw [List.length_cons, hvs.1], List.forall_mem_cons.mpr ⟨hv, hvs.2⟩⟩
    · rw [List.map_cons, List.sum_cons]
      omega

end Covers

end ByteLib
