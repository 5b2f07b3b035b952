/-
ByteLib.Sink — receivers of a sequence of items, put together.

A receiver takes one item at a time and may raise; `forEach` hands it a list. Two
receivers make one that hands every item to both (`tee`) or each item to one of them
(`route`). What the whole does with a list is what its parts do with theirs, as long as
nothing raises: `forEach_tee_iff` and `forEach_route_iff`.
-/
import Pysubunit.ByteLib.ForEach

namespace ByteLib

variable {σ τ α ε : Type}

/-- A receiver of items, with a state. -/
abbrev Sink (σ α ε : Type) := σ → α → σ × Option ε

namespace Sink

/-- Every item goes to both receivers, unless the first of them raises. -/
def tee (p : Sink σ α ε) (q : Sink τ α ε) : Sink (σ × τ) α ε := fun s item =>
  match p s.1 item with
  | (s', some e) => ((s', s.2), some e)
  | (s', none) => ((s', (q s.2 item).1), (q s.2 item).2)

/-- An item goes to the first receiver where `here` holds, and to the second elsewhere. -/
def route (here : α → Bool) (p : Sink σ α ε) (q : Sink τ α ε) : Sink (σ × τ) α ε := fun s item =>
  if here item then (((p s.1 item).1, s.2), (p s.1 item).2)
  else ((s.1, (q s.2 item).1), (q s.2 item).2)

/-- Nothing becomes of the items. -/
def discard : Sink Unit α ε := fun _ _ => ((), none)

section

variable {p : Sink σ α ε} {q : Sink τ α ε} {s s' : σ} {t t' : τ}

/-- One item that does not raise, and the rest. -/
theorem forEach_cons_iff {item : α} {items : List α} :
    forEach p s (item :: items) = (s', none)
      ↔ (p s item).2 = none ∧ forEach p (p s item).1 items = (s', none) := by
  rcases hitem : p s item with ⟨u, _ | e⟩
  · simp [forEach_cons hitem]
  · simp [forEach_cons_raises hitem]

/-- **Both receivers get everything.** -/
theorem forEach_tee_iff {items : List α} :
    forEach (tee p q) (s, t) items = ((s', t'), none)
      ↔ forEach p s items = (s', none) ∧ forEach q t items = (t', none) := by
  induction items generalizing s t with
  | nil => simp
  | cons item items ih =>
    rw [forEach_cons_iff, forEach_cons_iff, forEach_cons_iff]
    rcases hp : p s item with ⟨u, _ | e⟩
    · simp only [tee, hp, ih]
      tauto
    · simp [tee, hp]

/-- **Each receiver gets its items**, in order. -/
theorem forEach_route_iff {here : α → Bool} {items : List α} :
    forEach (route here p q) (s, t) items = ((s', t'), none)
      ↔ forEach p s (items.filter here) = (s', none)
        ∧ forEach q t (items.filter fun item => !here item) = (t', none) := by
  induction items generalizing s t with
  | nil => simp
  | cons item items ih =>
    rw [forEach_cons_iff]
    cases hhere : here item with
    | true =>
      rw [List.filter_cons_of_pos hhere, List.filter_cons_of_neg (by simp [hhere]),
        forEach_cons_iff]
      simp only [route, hhere, if_true, ih]
      tauto
    | false =>
      rw [List.filter_cons_of_neg (by simp [hhere]), List.filter_cons_of_pos (by simp [hhere]),
        forEach_cons_iff]
      simp only [route, hhere, Bool.false_eq_true, if_false, ih]
      tauto

end

end Sink

end ByteLib
