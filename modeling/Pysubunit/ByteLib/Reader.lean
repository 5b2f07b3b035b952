/-
ByteLib.Reader — positional readers over a buffer.

A `Reader ε α` walks a buffer by an offset: given the buffer and where to
start it returns a value and the offset after it, or an error. `Reads Refused
fine r enc v` says that `r` reads the bytes `enc` as `v` wherever they stand in
a buffer and whatever follows them, or refuses them where they are not `fine`.
`Reads.bind`, `Reads.optionally_some` and `Reads.replicate` compose such facts
the way a format composes its fields, so that a round trip is assembled field
by field and no proof computes an offset.

`Stays limit Good r fits` says of a reader, on buffers up to `limit`, that the
offset never passes the limit, that its values fit and that its errors are `Good`.
-/
import Pysubunit.ByteLib.Bytes

namespace ByteLib

/-- A reader: from a buffer and an offset to a value and the offset after it. -/
def Reader (ε α : Type) := Bytes → Nat → Except ε (α × Nat)

namespace Reader

variable {ε α β : Type}

/-- Read nothing. -/
protected def pure (v : α) : Reader ε α := fun _ pos => .ok (v, pos)

/-- Read with `r`, then with `f` of what it read, where it stopped. -/
protected def bind (r : Reader ε α) (f : α → Reader ε β) : Reader ε β := fun body pos =>
  match r body pos with
  | .error e => .error e
  | .ok (v, pos') => f v body pos'

instance : Monad (Reader ε) where
  pure := Reader.pure
  bind := Reader.bind

/-- Fail without reading. -/
def fail (e : ε) : Reader ε α := fun _ _ => .error e

/-- Read with `r` where the field is announced, and nothing elsewhere. -/
def optionally (announced : Bool) (r : Reader ε α) : Reader ε (Option α) :=
  if announced then r.bind fun v => Reader.pure (some v) else Reader.pure none

/-- Read `n` items one after the other. -/
def replicate (r : Reader ε α) : Nat → Reader ε (List α)
  | 0 => Reader.pure []
  | n + 1 => r.bind fun v => (replicate r n).bind fun vs => Reader.pure (v :: vs)

end Reader

/-- `r` reads the bytes `enc` as `v` if they are `fine`, and refuses them if not,
wherever they stand. -/
def Reads {ε α : Type} (Refused : ε → Prop) (fine : Prop) (r : Reader ε α) (enc : Bytes) (v : α) :
    Prop :=
  ∀ (body : Bytes) (pos : Nat) (rest : Bytes), body.drop pos = enc ++ rest →
    (fine ∧ r body pos = .ok (v, pos + enc.length))
    ∨ (¬ fine ∧ ∃ e, Refused e ∧ r body pos = .error e)

namespace Reads

variable {ε α β : Type} {Refused : ε → Prop} {fine fine₁ fine₂ : Prop}

theorem congr {r : Reader ε α} {e : Bytes} {v : α} (h : Reads Refused fine₁ r e v)
    (hfine : fine₁ ↔ fine₂) : Reads Refused fine₂ r e v := propext hfine ▸ h

/-- Bytes that are always read. -/
theorem of_ok {r : Reader ε α} {e : Bytes} {v : α}
    (h : ∀ (body : Bytes) (pos : Nat) (rest : Bytes), body.drop pos = e ++ rest →
      r body pos = .ok (v, pos + e.length)) : Reads Refused True r e v := by
  intro body pos rest hd
  exact .inl ⟨trivial, h body pos rest hd⟩

protected theorem pure (v : α) : Reads Refused True (Pure.pure v) [] v :=
  of_ok fun _ _ _ _ => rfl

/-- Two fields in a row are fine if each of them is. -/
protected theorem bind {r : Reader ε α} {f : α → Reader ε β} {e₁ e₂ : Bytes} {v : α} {w : β}
    (h₁ : Reads Refused fine₁ r e₁ v) (h₂ : Reads Refused fine₂ (f v) e₂ w) :
    Reads Refused (fine₁ ∧ fine₂) (r >>= f) (e₁ ++ e₂) w := by
  intro body pos rest h
  have h' : body.drop pos = e₁ ++ (e₂ ++ rest) := by rw [h, List.append_assoc]
  have hbind : (r >>= f) body pos = Reader.bind r f body pos := rfl
  rw [hbind, Reader.bind, List.length_append, ← Nat.add_assoc]
  rcases h₁ body pos _ h' with ⟨hfine, hr⟩ | ⟨hfine, e, he, hr⟩
  · rw [hr]
    rcases h₂ body _ rest (drop_add_of_drop h') with ⟨hfine', hr'⟩ | ⟨hfine', e, he, hr'⟩
    · exact .inl ⟨⟨hfine, hfine'⟩, hr'⟩
    · exact .inr ⟨fun h => hfine' h.2, e, he, hr'⟩
  · rw [hr]
    exact .inr ⟨fun h => hfine h.1, e, he, rfl⟩

/-- An announced optional field. -/
theorem optionally_some {r : Reader ε α} {e : Bytes} {v : α} (h : Reads Refused fine r e v) :
    Reads Refused fine (Reader.optionally true r) e (some v) := by
  have := Reads.bind (f := fun v => Pure.pure (some v)) h (Reads.pure (some v))
  rw [List.append_nil] at this
  exact this.congr (and_iff_left trivial)

/-- A field that is not announced. -/
theorem optionally_none (r : Reader ε α) :
    Reads Refused True (Reader.optionally false r) [] none := Reads.pure none

/-- As many items as the count says. -/
theorem replicate {r : Reader ε α} {γ : Type} (enc : γ → Bytes) (val : γ → α) (fine : γ → Prop)
    (items : List γ) (h : ∀ x ∈ items, Reads Refused (fine x) r (enc x) (val x)) :
    Reads Refused (∀ x ∈ items, fine x) (Reader.replicate r items.length) (items.flatMap enc)
      (items.map val) := by
  induction items with
  | nil => exact (Reads.pure []).congr (by simp)
  | cons x xs ih =>
    have hx := h x (by simp)
    have hxs := ih fun y hy => h y (by simp [hy])
    have htail : Reads Refused (∀ y ∈ xs, fine y) ((Reader.replicate r xs.length).bind
        fun vs => Reader.pure (val x :: vs)) (xs.flatMap enc) (val x :: xs.map val) := by
      have := Reads.bind (f := fun vs => Pure.pure (val x :: vs)) hxs (Reads.pure _)
      rw [List.append_nil] at this
      exact this.congr (and_iff_left trivial)
    exact (Reads.bind (f := fun v => (Reader.replicate r xs.length).bind
      fun vs => Reader.pure (v :: vs)) hx htail).congr List.forall_mem_cons.symm

end Reads

/-- On a buffer of at most `limit` bytes and from an offset up to there, `r` stops
at such an offset with a value that `fits`, or with a `Good` error. -/
def Stays {ε α : Type} (limit : Nat) (Good : ε → Prop) (r : Reader ε α) (fits : α → Prop) : Prop :=
  ∀ (body : Bytes) (pos : Nat), body.length ≤ limit → pos ≤ limit →
    match r body pos with
    | .ok (v, pos') => fits v ∧ pos' ≤ limit
    | .error e => Good e

namespace Stays

variable {ε α β : Type} {limit : Nat} {Good : ε → Prop} {r : Reader ε α} {fits : α → Prop}

protected theorem pure {v : α} (h : fits v) : Stays limit Good (Reader.pure v) fits :=
  fun _ _ _ hpos => ⟨h, hpos⟩

protected theorem bind {f : α → Reader ε β} {fits' : β → Prop} (h : Stays limit Good r fits)
    (hf : ∀ v, fits v → Stays limit Good (f v) fits') :
    Stays limit Good (Reader.bind r f) fits' := by
  intro body pos hbody hpos
  have h' := h body pos hbody hpos
  unfold Reader.bind
  cases hr : r body pos with
  | error e =>
    rw [hr] at h'
    exact h'
  | ok p =>
    rw [hr] at h'
    exact hf p.1 h'.1 body p.2 hbody h'.2

theorem optionally (announced : Bool) (h : Stays limit Good r fits) :
    Stays limit Good (Reader.optionally announced r) (fun _ => True) := by
  cases announced with
  | true => exact h.bind fun v _ => Stays.pure trivial
  | false => exact Stays.pure trivial

theorem replicate (h : Stays limit Good r fits) (n : Nat) :
    Stays limit Good (Reader.replicate r n) (fun _ => True) := by
  induction n with
  | zero => exact Stays.pure trivial
  | succ n ih => exact h.bind fun v _ => ih.bind fun vs _ => Stays.pure trivial

end Stays

end ByteLib
