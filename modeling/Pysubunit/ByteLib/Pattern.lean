/-
ByteLib.Pattern — patterns that a backtracking matcher tries at the front of a
list.

A `Pattern τ α` lists all the ways to match a front part of a list of `τ`, in the
order in which they are tried: what the groups are then, an `α`, and what is left.
A greedy repetition tries the longest part first and an optional part is tried
before it is left out. The matcher reports the first way (`first`). What all ways
have in common is proved by membership (`mem_bind` and its like); `first_bind` is
about the first way only.
-/
import Mathlib.Data.List.Basic

namespace ByteLib

/-- The ways to match a front part of a list, in the order in which they are
tried. -/
def Pattern (τ α : Type) := List τ → List (α × List τ)

namespace Pattern

variable {τ α β : Type}

instance : Monad (Pattern τ) where
  pure a := fun s => [(a, s)]
  bind p f := fun s => (p s).flatMap fun way => f way.1 way.2

instance : LawfulMonad (Pattern τ) := LawfulMonad.mk' (Pattern τ)
  (fun p => by
    funext s
    show (p s).flatMap (fun way => [(id way.1, way.2)]) = p s
    simp)
  (fun a f => by
    funext s
    show [(a, s)].flatMap _ = f a s
    simp)
  (fun p f g => by
    funext s
    show ((p s).flatMap _).flatMap _ = (p s).flatMap _
    rw [List.flatMap_assoc]
    rfl)

/-- A given word. -/
def literal [DecidableEq τ] (word : List τ) : Pattern τ (List τ) := fun s =>
  if word <+: s then [(word, s.drop word.length)] else []

/-- `(?:p|q)` -/
def either (p q : Pattern τ α) : Pattern τ α := fun s => p s ++ q s

/-- `(?:p)?` -/
def optional (p : Pattern τ α) : Pattern τ (Option α) := fun s =>
  (p s).map (fun way => (some way.1, way.2)) ++ [(none, s)]

/-- `[p]*` -/
def many (p : τ → Bool) : Pattern τ (List τ)
  | [] => [([], [])]
  | c :: s => (if p c then (many p s).map fun way => (c :: way.1, way.2) else []) ++ [([], c :: s)]

/-- `[p]+` -/
def many1 (p : τ → Bool) : Pattern τ (List τ) := fun s =>
  (many p s).filter fun way => !way.1.isEmpty

/-- `re.match` -/
def first (p : Pattern τ α) (s : List τ) : Option α := (p s).head?.map Prod.fst

/-! ## All ways -/

@[simp] theorem mem_pure {a b : α} {s rest : List τ} :
    (b, rest) ∈ (pure a : Pattern τ α) s ↔ b = a ∧ rest = s := by
  show (b, rest) ∈ [(a, s)] ↔ _
  simp

theorem mem_bind {p : Pattern τ α} {f : α → Pattern τ β} {b : β} {s rest : List τ} :
    (b, rest) ∈ (p >>= f) s ↔ ∃ a between, (a, between) ∈ p s ∧ (b, rest) ∈ f a between := by
  show (b, rest) ∈ (p s).flatMap _ ↔ _
  simp

@[simp] theorem mem_literal [DecidableEq τ] {word a : List τ} {s rest : List τ} :
    (a, rest) ∈ literal word s ↔ a = word ∧ s = word ++ rest := by
  unfold literal
  split
  · rename_i hbegins
    obtain ⟨more, rfl⟩ := hbegins
    simp [eq_comm]
  · rename_i hbegins
    simp only [List.not_mem_nil, false_iff, not_and]
    intro _ hs
    exact hbegins ⟨rest, hs.symm⟩

@[simp] theorem mem_either {p q : Pattern τ α} {a : α} {s rest : List τ} :
    (a, rest) ∈ either p q s ↔ (a, rest) ∈ p s ∨ (a, rest) ∈ q s :=
  List.mem_append

@[simp] theorem some_mem_optional {p : Pattern τ α} {a : α} {s rest : List τ} :
    (some a, rest) ∈ optional p s ↔ (a, rest) ∈ p s := by
  simp [optional]

@[simp] theorem none_mem_optional {p : Pattern τ α} {s rest : List τ} :
    (none, rest) ∈ optional p s ↔ rest = s := by
  simp [optional]

@[simp] theorem mem_many {p : τ → Bool} {a s rest : List τ} :
    (a, rest) ∈ many p s ↔ s = a ++ rest ∧ ∀ c ∈ a, p c = true := by
  induction s generalizing a with
  | nil =>
    simp only [many, List.mem_singleton, Prod.mk.injEq]
    constructor
    · intro h
      simp [h.1, h.2]
    · intro h
      exact List.append_eq_nil_iff.mp h.1.symm
  | cons c s ih =>
    rw [many, List.mem_append]
    constructor
    · intro h
      rcases h with h | h
      · split at h
        · rename_i hc
          obtain ⟨way, hway, heq⟩ := List.mem_map.mp h
          obtain ⟨rfl, rfl⟩ := Prod.mk.inj heq
          obtain ⟨hs, hall⟩ := ih.mp hway
          rw [List.forall_mem_cons]
          exact ⟨by rw [hs]; rfl, hc, hall⟩
        · simp at h
      · simp at h
        simp [h]
    · intro h
      obtain ⟨hs, hall⟩ := h
      cases a with
      | nil =>
        right
        rw [List.mem_singleton, hs]
        rfl
      | cons d a =>
        left
        obtain ⟨rfl, rfl⟩ := List.cons.inj hs
        rw [List.forall_mem_cons] at hall
        rw [if_pos hall.1]
        exact List.mem_map.mpr ⟨(a, rest), ih.mpr ⟨rfl, hall.2⟩, rfl⟩

@[simp] theorem mem_many1 {p : τ → Bool} {a s rest : List τ} :
    (a, rest) ∈ many1 p s ↔ s = a ++ rest ∧ (∀ c ∈ a, p c = true) ∧ a ≠ [] := by
  rw [many1, List.mem_filter, mem_many]
  simp [and_assoc]

/-! ## The first way -/

theorem mem_of_first {p : Pattern τ α} {a : α} {s : List τ} (h : p.first s = some a) :
    ∃ rest, (a, rest) ∈ p s := by
  rw [first, Option.map_eq_some_iff] at h
  obtain ⟨way, hway, rfl⟩ := h
  exact ⟨way.2, List.mem_of_mem_head? hway⟩

theorem first_isSome {p : Pattern τ α} {s : List τ} :
    (p.first s).isSome ↔ ∃ a rest, (a, rest) ∈ p s := by
  rw [first, Option.isSome_map, List.isSome_head?]
  constructor
  · intro h
    obtain ⟨way, hway⟩ := List.exists_mem_of_ne_nil _ h
    exact ⟨way.1, way.2, hway⟩
  · intro h
    obtain ⟨a, rest, hmem⟩ := h
    exact List.ne_nil_of_mem hmem

/-- The first way through two patterns goes on from some way through the first of
them, by the first way from there. -/
theorem first_bind {p : Pattern τ α} {f : α → Pattern τ β} {b : β} {s : List τ}
    (h : (p >>= f).first s = some b) :
    ∃ a between, (a, between) ∈ p s ∧ (f a).first between = some b := by
  have hbind : (p >>= f) s = (p s).flatMap fun way => f way.1 way.2 := rfl
  rw [first, hbind] at h
  generalize p s = ways at h
  induction ways with
  | nil => simp at h
  | cons way ways ih =>
    rw [List.flatMap_cons] at h
    cases hway : f way.1 way.2 with
    | nil =>
      rw [hway, List.nil_append] at h
      obtain ⟨a, between, hmem, hfirst⟩ := ih h
      exact ⟨a, between, List.mem_cons_of_mem way hmem, hfirst⟩
    | cons x xs =>
      refine ⟨way.1, way.2, List.mem_cons_self, ?_⟩
      rw [hway] at h
      rw [first, hway]
      exact h

/-- A pattern is tried before it is left out. -/
theorem first_optional (p : Pattern τ α) (f : Option α → Pattern τ β) (s : List τ) :
    (optional p >>= f).first s = ((p >>= fun a => f (some a)).first s).or ((f none).first s) := by
  have hbind : (optional p >>= f) s = (p >>= fun a => f (some a)) s ++ f none s := by
    show ((p s).map _ ++ _).flatMap _ = (p s).flatMap _ ++ _
    rw [List.flatMap_append, List.flatMap_map]
    simp
  rw [first, hbind, List.head?_append, first, first]
  cases ((p >>= fun a => f (some a)) s).head? with
  | none => rfl
  | some way => rfl

theorem first_either (p q : Pattern τ α) (f : α → Pattern τ β) (s : List τ) :
    (either p q >>= f).first s = ((p >>= f).first s).or ((q >>= f).first s) := by
  have hbind : (either p q >>= f) s = (p >>= f) s ++ (q >>= f) s := by
    show (p s ++ q s).flatMap _ = (p s).flatMap _ ++ (q s).flatMap _
    rw [List.flatMap_append]
  rw [first, hbind, List.head?_append, first, first]
  cases ((p >>= f) s).head? <;> rfl

/-- A word that is there is one way, and one that is not is none. -/
theorem first_literal [DecidableEq τ] (word : List τ) (f : List τ → Pattern τ β) (rest : List τ) :
    (literal word >>= f).first (word ++ rest) = (f word).first rest := by
  have hbind : (literal word >>= f) (word ++ rest) = f word rest := by
    show (literal word (word ++ rest)).flatMap _ = _
    simp [literal]
  rw [first, hbind, first]

theorem bind_eq_nil {p : Pattern τ α} {s : List τ} (h : p s = []) (f : α → Pattern τ β) :
    (p >>= f) s = [] := by
  show (p s).flatMap _ = []
  rw [h, List.flatMap_nil]

theorem first_bind_eq_none {p : Pattern τ α} {s : List τ} (h : p s = [])
    (f : α → Pattern τ β) : (p >>= f).first s = none := by
  rw [first, bind_eq_nil h]
  rfl

theorem literal_eq_nil [DecidableEq τ] {word s : List τ} (h : ¬ word <+: s) :
    literal word s = [] := if_neg h

theorem many1_eq_nil {p : τ → Bool} {s : List τ} (h : ∀ c ∈ s.head?, p c = false) :
    many1 p s = [] := by
  cases s with
  | nil => rfl
  | cons c s =>
    have hc : p c = false := h c rfl
    simp [many1, many, hc]

/-- A repetition of nothing is tried last. -/
theorem many_eq (p : τ → Bool) (s : List τ) : many p s = many1 p s ++ [([], s)] := by
  cases s with
  | nil => rfl
  | cons c s =>
    rw [many1, many, List.filter_append]
    split
    · simp [List.filter_map, Function.comp_def]
    · simp

theorem many1_cons {p : τ → Bool} {c : τ} (hc : p c = true) (s : List τ) :
    many1 p (c :: s) = (many p s).map fun way => (c :: way.1, way.2) := by
  rw [many1, many, if_pos hc, List.filter_append]
  simp [List.filter_map, Function.comp_def]

/-- The way through a repetition is the longest from which the match goes on. -/
theorem first_many {p : τ → Bool} {f : List τ → Pattern τ β} {a rest : List τ} {b : β}
    (ha : ∀ c ∈ a, p c = true) (hb : (f a).first rest = some b)
    (hlong : ∀ c more, rest = c ++ more → c ≠ [] → (∀ d ∈ c, p d = true) →
      f (a ++ c) more = []) :
    (many p >>= f).first (a ++ rest) = some b := by
  induction a generalizing f with
  | nil =>
    have hnil : (many1 p rest).flatMap (fun way => f way.1 way.2) = [] := by
      rw [List.flatMap_eq_nil_iff]
      intro way hway
      obtain ⟨hrest, hall, hne⟩ := mem_many1.mp hway
      exact hlong way.1 way.2 hrest hne hall
    have hbind : (many p >>= f) rest = f [] rest := by
      show (many p rest).flatMap _ = _
      rw [many_eq, List.flatMap_append, hnil]
      simp
    rw [List.nil_append, first, hbind]
    exact hb
  | cons c a ih =>
    rw [List.forall_mem_cons] at ha
    have hbind : (many p >>= f) (c :: (a ++ rest))
        = (many p >>= fun a => f (c :: a)) (a ++ rest) ++ f [] (c :: (a ++ rest)) := by
      show (many p (c :: (a ++ rest))).flatMap _ = (many p (a ++ rest)).flatMap _ ++ _
      rw [many_eq, many1_cons ha.1, List.flatMap_append, List.flatMap_map]
      simp
    have hfirst := @ih (fun a => f (c :: a)) ha.2 hb hlong
    rw [first] at hfirst
    rw [List.cons_append, first, hbind, List.head?_append]
    cases hhead : ((many p >>= fun a => f (c :: a)) (a ++ rest)).head? with
    | none =>
      rw [hhead] at hfirst
      cases hfirst
    | some way =>
      rw [hhead] at hfirst
      exact hfirst

theorem first_many1 {p : τ → Bool} {f : List τ → Pattern τ β} {a rest : List τ} {b : β}
    (ha : ∀ c ∈ a, p c = true) (hne : a ≠ []) (hb : (f a).first rest = some b)
    (hlong : ∀ c more, rest = c ++ more → c ≠ [] → (∀ d ∈ c, p d = true) →
      f (a ++ c) more = []) :
    (many1 p >>= f).first (a ++ rest) = some b := by
  cases a with
  | nil => exact absurd rfl hne
  | cons c a =>
    rw [List.forall_mem_cons] at ha
    have hbind : (many1 p >>= f) (c :: (a ++ rest)) = (many p >>= fun a => f (c :: a)) (a ++ rest) := by
      show (many1 p (c :: (a ++ rest))).flatMap _ = (many p (a ++ rest)).flatMap _
      rw [many1_cons ha.1, List.flatMap_map]
    rw [List.cons_append, first, hbind]
    exact @first_many _ _ p (fun a => f (c :: a)) a rest b ha.2 hb hlong

/-- Where nothing more can be repeated there is no longer way. -/
theorem first_many1_stop {p : τ → Bool} {f : List τ → Pattern τ β} {a rest : List τ} {b : β}
    (ha : ∀ c ∈ a, p c = true) (hne : a ≠ []) (hb : (f a).first rest = some b)
    (hstop : ∀ c ∈ rest.head?, p c = false) : (many1 p >>= f).first (a ++ rest) = some b := by
  refine first_many1 ha hne hb fun c more hrest hc hall => ?_
  obtain ⟨d, c, rfl⟩ := List.exists_cons_of_ne_nil hc
  have hd := hstop d (by rw [hrest]; rfl)
  rw [hall d List.mem_cons_self] at hd
  cases hd

end Pattern

end ByteLib
