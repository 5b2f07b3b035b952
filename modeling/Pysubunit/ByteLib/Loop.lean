/-
ByteLib.Loop — loops that emit, may raise, and use something up.

A `Loop` is a body over a state: one pass emits outputs and then stops, goes
round again in a new state, or raises. The structure carries the proof that
going round uses something up, so `run` is total and no caller argues about
termination. `Loop.induct` is the induction along the passes, `Reaches` the
states the body is entered in. Four rules read a run off its passes:
`run_ok_iff` (the run returns when no pass that is reached raises),
`run_ok_stops` (it returns in a state where the body stops), `mem_run`
(an output of the run is an output of a pass that is reached) and
`run_iff_forall_reaches` (a property that each pass adds to holds of the run
when it holds of every pass that is reached).
-/
import Mathlib.Tactic.Common

namespace ByteLib

/-- How one pass of a loop body ends. -/
inductive Pass (σ ε : Type) where
  | stop
  | again (s : σ)
  | raise (e : ε)

/-- A loop body, with what it uses up on the way round. -/
structure Loop (σ ο ε : Type) where
  body : σ → List ο × Pass σ ε
  size : σ → Nat
  shrinks : ∀ s s', (body s).2 = .again s' → size s' < size s

namespace Loop

variable {σ ο ε : Type} (L : Loop σ ο ε)

/-- At most `n` passes. -/
def runFuel : Nat → σ → List ο × Except ε σ
  | 0, s => ([], .ok s)
  | n + 1, s =>
    match L.body s with
    | (os, .stop) => (os, .ok s)
    | (os, .again s') => (os ++ (runFuel n s').1, (runFuel n s').2)
    | (os, .raise e) => (os, .error e)

/-- The outputs of the loop from `s`, and the state it returns in or the
error it raises. -/
def run (s : σ) : List ο × Except ε σ := L.runFuel (L.size s + 1) s

/-- Along the passes of the loop. -/
theorem induct {motive : σ → Prop}
    (h : ∀ s, (∀ s', (L.body s).2 = .again s' → motive s') → motive s) (s : σ) : motive s := by
  induction hn : L.size s using Nat.strongRecOn generalizing s with
  | ind n ih =>
    refine h s fun s' hs' => ?_
    have := L.shrinks s s' hs'
    exact ih (L.size s') (by omega) s' rfl

/-- There are never more passes than the size allows. -/
theorem runFuel_eq (n m : Nat) (s : σ) (hn : L.size s < n) (hm : L.size s < m) :
    L.runFuel n s = L.runFuel m s := by
  induction n generalizing m s with
  | zero => omega
  | succ n ih =>
    cases m with
    | zero => omega
    | succ m =>
      rw [runFuel, runFuel]
      split
      · rfl
      · rename_i os s' hb
        have := L.shrinks s s' (by rw [hb])
        rw [ih m s' (by omega) (by omega)]
      · rfl

variable {L}

theorem run_stop {s : σ} (h : (L.body s).2 = .stop) : L.run s = ((L.body s).1, .ok s) := by
  rw [run, runFuel]
  split <;> simp_all

theorem run_raise {s : σ} {e : ε} (h : (L.body s).2 = .raise e) :
    L.run s = ((L.body s).1, .error e) := by
  rw [run, runFuel]
  split <;> simp_all

theorem run_again {s s' : σ} (h : (L.body s).2 = .again s') :
    L.run s = ((L.body s).1 ++ (L.run s').1, (L.run s').2) := by
  have hlt := L.shrinks s s' h
  have hs' : L.run s' = L.runFuel (L.size s) s' := L.runFuel_eq _ _ s' (by omega) (by omega)
  rw [hs', run, runFuel]
  split <;> simp_all

/-- A run begins with what its first pass emits. -/
theorem body_prefix_run (s : σ) : (L.body s).1 <+: (L.run s).1 := by
  cases hb : (L.body s).2 with
  | stop => simp [run_stop hb]
  | again s' => simp [run_again hb]
  | raise e => simp [run_raise hb]

/-! ## The states a run enters the body in -/

/-- `L` started in `s` enters its body in the second state. -/
inductive Reaches (L : Loop σ ο ε) (s : σ) : σ → Prop where
  | refl : Reaches L s s
  | pass {t u : σ} : Reaches L s t → (L.body t).2 = .again u → Reaches L s u

theorem Reaches.head {s s' t : σ} (h : (L.body s).2 = .again s') (ht : Reaches L s' t) :
    Reaches L s t := by
  induction ht with
  | refl => exact .pass .refl h
  | pass _ hb ih => exact .pass ih hb

theorem Reaches.cases_head {s t : σ} (h : Reaches L s t) :
    t = s ∨ ∃ s', (L.body s).2 = .again s' ∧ Reaches L s' t := by
  induction h with
  | refl => exact .inl rfl
  | pass _ hb ih =>
    rcases ih with rfl | ⟨s', hs', hr⟩
    · exact .inr ⟨_, hb, .refl⟩
    · exact .inr ⟨s', hs', .pass hr hb⟩

/-- What holds of every state reached holds of this one and of every state
reached from the next. -/
theorem forall_reaches_again {s s' : σ} {P : σ → Prop} (h : (L.body s).2 = .again s') :
    (∀ t, Reaches L s t → P t) ↔ P s ∧ ∀ t, Reaches L s' t → P t := by
  constructor
  · intro hall
    exact ⟨hall s .refl, fun t ht => hall t (.head h ht)⟩
  · intro ⟨hs, hall⟩ t ht
    rcases ht.cases_head with rfl | ⟨s'', hs'', hr⟩
    · exact hs
    · rw [h] at hs''
      cases hs''
      exact hall t hr

theorem forall_reaches_stop {s : σ} {P : σ → Prop} (h : (L.body s).2 = .stop) :
    (∀ t, Reaches L s t → P t) ↔ P s := by
  constructor
  · intro hall
    exact hall s .refl
  · intro hs t ht
    rcases ht.cases_head with rfl | ⟨s', hs', -⟩
    · exact hs
    · rw [h] at hs'
      cases hs'

theorem forall_reaches_raise {s : σ} {e : ε} {P : σ → Prop} (h : (L.body s).2 = .raise e) :
    (∀ t, Reaches L s t → P t) ↔ P s := by
  constructor
  · intro hall
    exact hall s .refl
  · intro hs t ht
    rcases ht.cases_head with rfl | ⟨s', hs', -⟩
    · exact hs
    · rw [h] at hs'
      cases hs'

/-- Whatever one pass preserves holds in every state reached. -/
theorem Reaches.invariant {P : σ → Prop} (hpass : ∀ s s', P s → (L.body s).2 = .again s' → P s')
    {s t : σ} (hs : P s) (h : Reaches L s t) : P t := by
  induction h with
  | refl => exact hs
  | pass _ hb ih => exact hpass _ _ ih hb

/-- The loop returns exactly when no pass that it reaches raises. -/
theorem run_ok_iff (s : σ) :
    (∃ t, (L.run s).2 = .ok t) ↔ ∀ t, Reaches L s t → ∀ e, (L.body t).2 ≠ .raise e := by
  induction s using L.induct with
  | h s ih =>
    cases hb : (L.body s).2 with
    | stop =>
      rw [forall_reaches_stop hb, run_stop hb, hb]
      simp
    | again s' =>
      rw [forall_reaches_again hb, run_again hb, ← ih s' hb, hb]
      simp
    | raise e =>
      rw [run_raise hb]
      refine iff_of_false (by simp) ?_
      intro h
      exact h s .refl e hb

/-- What a run that returns comes to, from what each pass adds to it. -/
theorem run_iff_forall_reaches {P : σ → List ο → Prop} {A : σ → Prop}
    (hstop : ∀ s, (L.body s).2 = .stop → (P s (L.body s).1 ↔ A s))
    (hagain : ∀ s s', (L.body s).2 = .again s' →
      (P s ((L.body s).1 ++ (L.run s').1) ↔ A s ∧ P s' (L.run s').1))
    {s : σ} (h : ∃ t, (L.run s).2 = .ok t) :
    P s (L.run s).1 ↔ ∀ t, Reaches L s t → A t := by
  induction s using L.induct with
  | h s ih =>
    cases hb : (L.body s).2 with
    | stop => rw [run_stop hb, forall_reaches_stop hb, hstop s hb]
    | again s' =>
      rw [run_again hb] at h ⊢
      rw [forall_reaches_again hb, hagain s s' hb, ih s' hb h]
    | raise e =>
      rw [run_raise hb] at h
      simp at h

/-- The loop returns in a state it reaches and stops in. -/
theorem run_ok_stops {s t : σ} (h : (L.run s).2 = .ok t) :
    Reaches L s t ∧ (L.body t).2 = .stop := by
  induction s using L.induct with
  | h s ih =>
    cases hb : (L.body s).2 with
    | stop =>
      rw [run_stop hb] at h
      cases h
      exact ⟨.refl, hb⟩
    | again s' =>
      rw [run_again hb] at h
      have := ih s' hb h
      exact ⟨.head hb this.1, this.2⟩
    | raise e => rw [run_raise hb] at h; cases h

/-- The outputs of a run are those of the passes it reaches. -/
theorem mem_run {s : σ} {o : ο} : o ∈ (L.run s).1 ↔ ∃ t, Reaches L s t ∧ o ∈ (L.body t).1 := by
  induction s using L.induct with
  | h s ih =>
    have hhead : ∀ {P : σ → Prop}, (∃ t, Reaches L s t ∧ P t) ↔
        P s ∨ ∃ s', (L.body s).2 = .again s' ∧ ∃ t, Reaches L s' t ∧ P t := by
      intro P
      constructor
      · rintro ⟨t, ht, hp⟩
        rcases ht.cases_head with rfl | ⟨s', hs', hr⟩
        · exact .inl hp
        · exact .inr ⟨s', hs', t, hr, hp⟩
      · rintro (hp | ⟨s', hs', t, hr, hp⟩)
        · exact ⟨s, .refl, hp⟩
        · exact ⟨t, .head hs' hr, hp⟩
    rw [hhead]
    cases hb : (L.body s).2 with
    | stop => rw [run_stop hb]; simp
    | again s' =>
      rw [run_again hb, List.mem_append, ih s' hb]
      simp
    | raise e => rw [run_raise hb]; simp

end Loop

end ByteLib
