/-
Pysubunit.ByteLib.ForEach — a `for` over a list whose body may raise.

What the bodies before an exception have done to the state is kept. `Each` says that
every item has what it needs in the state where it comes: a loop whose body raises
without it then raises (`forEach_raises`), and an invariant that is enough for it is
enough for all (`each_of_invariant`).
-/
import Mathlib.Tactic.Common

namespace ByteLib

variable {σ α ε : Type}

/-- `for item in items: body`, up to the first that raises. -/
def forEach (body : σ → α → σ × Option ε) : σ → List α → σ × Option ε
  | s, [] => (s, none)
  | s, item :: items =>
    match body s item with
    | (s', some e) => (s', some e)
    | (s', none) => forEach body s' items

/-- Each item has what it needs where it comes. -/
def Each (body : σ → α → σ × Option ε) (needs : σ → α → Prop) : σ → List α → Prop
  | _, [] => True
  | s, item :: items => needs s item ∧ Each body needs (body s item).1 items

variable {body : σ → α → σ × Option ε} {needs : σ → α → Prop}

@[simp] theorem forEach_nil (s : σ) : forEach body s [] = (s, none) := rfl

theorem forEach_cons {s s' : σ} {item : α} (h : body s item = (s', none)) (items : List α) :
    forEach body s (item :: items) = forEach body s' items := by
  rw [forEach, h]

theorem forEach_cons_raises {s s' : σ} {item : α} {e : ε} (h : body s item = (s', some e))
    (items : List α) : forEach body s (item :: items) = (s', some e) := by
  rw [forEach, h]

theorem forEach_append (s : σ) (xs ys : List α) :
    forEach body s (xs ++ ys) =
      match forEach body s xs with
      | (s', some e) => (s', some e)
      | (s', none) => forEach body s' ys := by
  induction xs generalizing s with
  | nil => rfl
  | cons x xs ih =>
    rcases hx : body s x with ⟨s', _ | e⟩
    · rw [List.cons_append, forEach_cons hx, forEach_cons hx, ih]
    · rw [List.cons_append, forEach_cons_raises hx, forEach_cons_raises hx]

theorem each_cons {s s' : σ} {item : α} {result : Option ε} (h : body s item = (s', result))
    (items : List α) :
    Each body needs s (item :: items) ↔ needs s item ∧ Each body needs s' items := by
  rw [Each, h]

/-- **A loop** one of whose items has not what it needs raises, if the body does. -/
theorem forEach_raises {items : List α} {s : σ}
    (hbody : ∀ s, ∀ item ∈ items, ¬ needs s item → (body s item).2 ≠ none)
    (h : ¬ Each body needs s items) : (forEach body s items).2 ≠ none := by
  induction items generalizing s with
  | nil => exact absurd trivial h
  | cons item items ih =>
    obtain ⟨hitem, hitems⟩ : (∀ s, ¬ needs s item → (body s item).2 ≠ none)
        ∧ ∀ s, ∀ item ∈ items, ¬ needs s item → (body s item).2 ≠ none :=
      ⟨fun s => hbody s item (by simp), fun s item hmem => hbody s item (by simp [hmem])⟩
    rcases hresult : body s item with ⟨s', _ | e⟩
    · have hneeds : needs s item := by
        by_contra hneeds
        exact hitem s hneeds (by rw [hresult])
      rw [each_cons hresult, not_and] at h
      rw [forEach_cons hresult]
      exact ih hitems (h hneeds)
    · simp [forEach_cons_raises hresult]

/-- **An invariant** of the loop that gives an item what it needs. -/
theorem each_of_invariant {I : σ → Prop} {items : List α} {s : σ}
    (hneeds : ∀ s, ∀ item ∈ items, I s → needs s item)
    (hkeeps : ∀ s, ∀ item ∈ items, needs s item → I s → I (body s item).1) (h : I s) :
    Each body needs s items := by
  induction items generalizing s with
  | nil => trivial
  | cons item items ih =>
    have hitem := hneeds s item (by simp) h
    refine ⟨hitem, ih ?_ ?_ (hkeeps s item (by simp) hitem h)⟩
    · exact fun s item hmem => hneeds s item (by simp [hmem])
    · exact fun s item hmem => hkeeps s item (by simp [hmem])

end ByteLib
