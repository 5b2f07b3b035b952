/-
Pysubunit.ByteLib.Transducer — machines that answer every input with a list of
outputs.

`run` feeds a list, `comp` hands the outputs of one machine to the next, and
`run_comp` says that a pipeline may be run stage by stage. An observer of a
trace is a transducer too: `Transparent` says that what one observer makes of
the outputs is what another makes of the inputs, step by step, and
`Transparent.run` that it then holds of whole runs.
-/
import Mathlib.Data.List.Basic

namespace ByteLib

/-- A machine with states `σ` that reads `α` and writes `β`. -/
structure Transducer (σ α β : Type) where
  step : σ → α → σ × List β

namespace Transducer

variable {σ τ ρ ρ' α β γ ω : Type}

/-- Feed a list. -/
def run (t : Transducer σ α β) : σ → List α → σ × List β
  | s, [] => (s, [])
  | s, x :: xs =>
    let first := t.step s x
    let rest := run t first.1 xs
    (rest.1, first.2 ++ rest.2)

@[simp] theorem run_nil (t : Transducer σ α β) (s : σ) : t.run s [] = (s, []) := rfl

theorem run_cons (t : Transducer σ α β) (s : σ) (x : α) (xs : List α) :
    t.run s (x :: xs)
      = ((t.run (t.step s x).1 xs).1, (t.step s x).2 ++ (t.run (t.step s x).1 xs).2) := rfl

theorem run_append (t : Transducer σ α β) (s : σ) (xs ys : List α) :
    t.run s (xs ++ ys)
      = ((t.run (t.run s xs).1 ys).1, (t.run s xs).2 ++ (t.run (t.run s xs).1 ys).2) := by
  induction xs generalizing s with
  | nil => rfl
  | cons x xs ih => rw [List.cons_append, run_cons, ih, run_cons, List.append_assoc]

theorem run_singleton (t : Transducer σ α β) (s : σ) (x : α) : t.run s [x] = t.step s x := by
  rw [run_cons, run_nil, List.append_nil]

/-- A state that no input leads out of, without outputs. -/
theorem run_fixed {t : Transducer σ α β} {s : σ} (h : ∀ x, t.step s x = (s, [])) (xs : List α) :
    t.run s xs = (s, []) := by
  induction xs with
  | nil => rfl
  | cons x xs ih => rw [run_cons, h, ih, List.nil_append]

/-- What holds of every answer to inputs with `P` holds of all outputs. -/
theorem run_forall {t : Transducer σ α β} {P : α → Prop} {Q : β → Prop}
    (h : ∀ s x, P x → ∀ y ∈ (t.step s x).2, Q y) (s : σ) {xs : List α} (hxs : ∀ x ∈ xs, P x) :
    ∀ y ∈ (t.run s xs).2, Q y := by
  induction xs generalizing s with
  | nil => simp
  | cons x xs ih =>
    intro y hy
    rw [run_cons, List.mem_append] at hy
    rcases hy with hy | hy
    · exact h s x (hxs x List.mem_cons_self) y hy
    · exact ih _ (fun z hz => hxs z (List.mem_cons_of_mem x hz)) y hy

/-- What `p` lets through of every answer is what it lets through of the input. -/
theorem run_filter {t : Transducer σ α α} {p : α → Bool}
    (h : ∀ s x, (t.step s x).2.filter p = [x].filter p) (s : σ) (xs : List α) :
    (t.run s xs).2.filter p = xs.filter p := by
  induction xs generalizing s with
  | nil => rfl
  | cons x xs ih =>
    rw [run_cons, List.filter_append, h, ih, ← List.filter_append, List.singleton_append]

/-- Every input is answered by one output. -/
def map (f : α → β) : Transducer Unit α β where
  step _ x := ((), [f x])

theorem run_map (f : α → β) (xs : List α) : (map f).run () xs = ((), xs.map f) := by
  induction xs with
  | nil => rfl
  | cons x xs ih =>
    rw [run_cons, map, ← map, ih]
    rfl

/-- The outputs of `t` are the inputs of `u`. -/
def comp (t : Transducer σ α β) (u : Transducer τ β γ) : Transducer (σ × τ) α γ where
  step s x :=
    let first := t.step s.1 x
    let next := u.run s.2 first.2
    ((first.1, next.1), next.2)

/-- A pipeline may be run stage by stage. -/
theorem run_comp (t : Transducer σ α β) (u : Transducer τ β γ) (s : σ) (r : τ) (xs : List α) :
    (t.comp u).run (s, r) xs
      = (((t.run s xs).1, (u.run r (t.run s xs).2).1), (u.run r (t.run s xs).2).2) := by
  induction xs generalizing s r with
  | nil => rfl
  | cons x xs ih =>
    have hstep : (t.comp u).step (s, r) x
        = (((t.step s x).1, (u.run r (t.step s x).2).1), (u.run r (t.step s x).2).2) := rfl
    rw [run_cons, hstep, ih, run_cons, run_append]

/-! ## Observers -/

/-- Seen by `after`, the outputs of `t` are what its inputs are to `before`, if
these satisfy `P`. The states of the three are related by `R`. -/
structure Transparent (t : Transducer σ α β) (after : Transducer ρ β ω)
    (before : Transducer ρ' α ω) (P : α → Prop) (R : σ → ρ → ρ' → Prop) : Prop where
  step : ∀ {s r r'} x, R s r r' → P x →
    R (t.step s x).1 (after.run r (t.step s x).2).1 (before.step r' x).1
      ∧ (after.run r (t.step s x).2).2 = (before.step r' x).2

theorem Transparent.run {t : Transducer σ α β} {after : Transducer ρ β ω}
    {before : Transducer ρ' α ω} {P : α → Prop} {R : σ → ρ → ρ' → Prop}
    (h : Transparent t after before P R) {s : σ} {r : ρ} {r' : ρ'} (hr : R s r r') {xs : List α}
    (hxs : ∀ x ∈ xs, P x) :
    R (t.run s xs).1 (after.run r (t.run s xs).2).1 (before.run r' xs).1
      ∧ (after.run r (t.run s xs).2).2 = (before.run r' xs).2 := by
  induction xs generalizing s r r' with
  | nil => exact ⟨hr, rfl⟩
  | cons x xs ih =>
    obtain ⟨hstate, hseen⟩ := h.step x hr (hxs x List.mem_cons_self)
    obtain ⟨hstates, hrest⟩ := ih hstate fun y hy => hxs y (List.mem_cons_of_mem x hy)
    rw [run_cons, run_append, run_cons]
    exact ⟨hstates, by rw [hseen, hrest]⟩

end Transducer

end ByteLib
