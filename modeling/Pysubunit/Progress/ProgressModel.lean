/-
Pysubunit.Progress.ProgressModel — nested progress (`progress_model.py`).

A task that is pushed stands for one step of the task below it: the model
scales what is below by the width of the task on top. What this is for is said
by `Share`, a step of a whole and its parts; `Share.part_within` is all the
arithmetic there is. `Sound` keeps the scales of a model true to its stack, so
the share of each level lies within the shares of those below
(`Sound.share_within`).
-/
import Mathlib.Algebra.Order.Field.Basic
import Mathlib.Data.Rat.Cast.Order
import Mathlib.Tactic.Linarith
import Mathlib.Tactic.Ring

namespace Pysubunit.Progress

/-! ## Shares -/

/-- The step behind the first `pos` of `width` equal steps. -/
structure Share where
  pos : Int
  width : Int
  width_pos : 0 < width

namespace Share

/-- Where the step begins. -/
def lower (s : Share) : ℚ := s.pos / s.width

/-- Where the step ends. -/
def upper (s : Share) : ℚ := (s.pos + 1) / s.width

def Within (s whole : Share) : Prop := whole.lower ≤ s.lower ∧ s.upper ≤ whole.upper

theorem Within.refl (s : Share) : s.Within s := ⟨le_refl _, le_refl _⟩

theorem Within.trans {s t u : Share} (hst : s.Within t) (htu : t.Within u) : s.Within u :=
  ⟨htu.1.trans hst.1, hst.2.trans htu.2⟩

/-- A step that is divided into `n` steps of its own, the one behind the first `i`. -/
def part (s : Share) (n i : Int) (hn : 0 < n) : Share where
  pos := s.pos * n + i
  width := s.width * n
  width_pos := Int.mul_pos s.width_pos hn

theorem lower_part {s : Share} {n i : Int} (hn : 0 < n) (hi : 0 ≤ i) :
    s.lower ≤ (s.part n i hn).lower := by
  have hw : (0 : ℚ) < s.width := by exact_mod_cast s.width_pos
  have hn' : (0 : ℚ) < n := by exact_mod_cast hn
  have hi' : (0 : ℚ) ≤ i := by exact_mod_cast hi
  have hle := mul_nonneg hi' hw.le
  simp only [lower, part, Int.cast_add, Int.cast_mul]
  rw [div_le_div_iff₀ hw (mul_pos hw hn')]
  linarith

/-- Behind `i` of the `n` steps no more than the whole step is done. -/
theorem lower_part_le {s : Share} {n i : Int} (hn : 0 < n) (hi : i ≤ n) :
    (s.part n i hn).lower ≤ s.upper := by
  have hw : (0 : ℚ) < s.width := by exact_mod_cast s.width_pos
  have hn' : (0 : ℚ) < n := by exact_mod_cast hn
  have hi' : (i : ℚ) ≤ n := by exact_mod_cast hi
  have hle := mul_le_mul_of_nonneg_right hi' hw.le
  simp only [lower, upper, part, Int.cast_add, Int.cast_mul]
  rw [div_le_div_iff₀ (mul_pos hw hn') hw]
  linarith

theorem upper_part (s : Share) {n i : Int} (hn : 0 < n) :
    (s.part n i hn).upper = (s.part n (i + 1) hn).lower := by
  simp only [lower, upper, part, Int.cast_add, Int.cast_mul, Int.cast_one, add_assoc]

/-- **A part of a step lies within it.** -/
theorem part_within (s : Share) {n i : Int} (hn : 0 < n) (hi : 0 ≤ i) (hlt : i < n) :
    (s.part n i hn).Within s := by
  refine ⟨lower_part hn hi, ?_⟩
  rw [upper_part]
  exact lower_part_le hn hlt

end Share

/-! ## The model -/

/-- An entry of `_tasks`. -/
structure Task where
  pos : Int
  width : Int
  overallNumerator : Int
  overallDenominator : Int
  deriving DecidableEq, Repr

/-- `task[1] or 1` -/
def Task.scale (t : Task) : Int := if t.width = 0 then 1 else t.width

/-- The current subtask is the first of `tasks`, where `_tasks` has it last. -/
structure ProgressModel where
  tasks : List Task
  deriving DecidableEq, Repr

namespace ProgressModel

/-- `pos` -/
def pos (m : ProgressModel) : Int :=
  match m.tasks with
  | [] => 0
  | [t] => t.pos
  | t :: _ :: _ => t.overallNumerator * t.scale + t.pos

/-- `width` -/
def width (m : ProgressModel) : Int :=
  match m.tasks with
  | [] => 0
  | [t] => t.width
  | t :: _ :: _ => t.overallDenominator * t.scale

/-- `push` -/
def push (m : ProgressModel) : ProgressModel := ⟨⟨0, 0, m.pos, m.width⟩ :: m.tasks⟩

/-- `ProgressModel()` -/
def new : ProgressModel := push ⟨[]⟩

/-- `pop`, unless there is no task (`IndexError`). -/
def pop (m : ProgressModel) : Option ProgressModel :=
  match m.tasks with
  | [] => none
  | _ :: tasks => some ⟨tasks⟩

/-- Change `_tasks[-1]`, unless there is none (`IndexError`). -/
def onTask (m : ProgressModel) (f : Task → Task) : Option ProgressModel :=
  match m.tasks with
  | [] => none
  | t :: tasks => some ⟨f t :: tasks⟩

/-- `set_width` -/
def setWidth (m : ProgressModel) (width : Int) : Option ProgressModel :=
  m.onTask fun t => { t with width := width }

/-- `adjust_width` -/
def adjustWidth (m : ProgressModel) (offset : Int) : Option ProgressModel :=
  m.onTask fun t => { t with width := t.width + offset }

/-- `advance` -/
def advance (m : ProgressModel) : Option ProgressModel :=
  m.onTask fun t => { t with pos := t.pos + 1 }

end ProgressModel

/-- A call on a model. -/
inductive Op where
  | setWidth (width : Int)
  | adjustWidth (offset : Int)
  | advance
  | push
  | pop
  deriving DecidableEq, Repr

namespace ProgressModel

def step (m : ProgressModel) : Op → Option ProgressModel
  | .setWidth width => m.setWidth width
  | .adjustWidth offset => m.adjustWidth offset
  | .advance => m.advance
  | .push => some m.push
  | .pop => m.pop

/-! ## Runs -/

/-- No pushed level is further than its width. -/
def Proper (m : ProgressModel) : Prop := ∀ t ∈ m.tasks.dropLast, t.pos ≤ t.width

instance (m : ProgressModel) : Decidable m.Proper :=
  inferInstanceAs (Decidable (∀ t ∈ m.tasks.dropLast, t.pos ≤ t.width))

/-- The current subtask has a step to go, or is a pushed one still at 0/0. -/
def MayPush (m : ProgressModel) : Prop :=
  match m.tasks with
  | [] => False
  | [t] => t.pos < t.width
  | t :: _ :: _ => t.pos < t.width ∨ (t.pos = 0 ∧ t.width = 0)

/-- What is asked of a call: a push needs a step to stand for, and the bottom
level is not popped. -/
def Allows (m : ProgressModel) : Op → Prop
  | .push => m.MayPush
  | .pop => 1 < m.tasks.length
  | _ => True

/-- Calls, each allowed where it is made and keeping the pushed levels proper. -/
inductive Runs : ProgressModel → List Op → ProgressModel → Prop where
  | nil (m : ProgressModel) : Runs m [] m
  | cons {m m' m'' : ProgressModel} {op : Op} {ops : List Op} (hallows : m.Allows op)
      (hstep : m.step op = some m') (hproper : m'.Proper) (hrest : Runs m' ops m'') :
      Runs m (op :: ops) m''

/-- How many pushes are open behind calls, with `opened` of them in front; `none` if a pop closes
more than there are. -/
def nesting (opened : Nat) : List Op → Option Nat
  | [] => some opened
  | .push :: ops => nesting (opened + 1) ops
  | .pop :: ops => if opened = 0 then none else nesting (opened - 1) ops
  | _ :: ops => nesting opened ops

/-! ## What is below stays -/

/-- `levels` tasks have been pushed onto `m`. -/
def Above (m : ProgressModel) (levels : Nat) (now : ProgressModel) : Prop :=
  ∃ tasks : List Task, tasks.length = levels ∧ now.tasks = tasks ++ m.tasks

theorem above_push (m : ProgressModel) : m.Above 1 m.push :=
  ⟨[⟨0, 0, m.pos, m.width⟩], rfl, rfl⟩

theorem Above.eq {m now : ProgressModel} (h : m.Above 0 now) : now = m := by
  obtain ⟨tasks, hlen, htasks⟩ := h
  rw [List.length_eq_zero_iff.mp hlen] at htasks
  exact congrArg mk htasks

theorem Above.tail {t : Task} {m below : ProgressModel} {levels : Nat}
    (h : m.Above (levels + 1) ⟨t :: below.tasks⟩) : m.Above levels below := by
  obtain ⟨_ | ⟨t', tasks⟩, hlen, htasks⟩ := h
  · simp at hlen
  · exact ⟨tasks, by simpa using hlen, (List.cons.inj htasks).2⟩

/-- Nothing has been pushed onto a model that has tasks where only the bottom level is left. -/
theorem Above.bottom {t : Task} {m : ProgressModel} {levels : Nat}
    (h : m.Above (levels + 1) ⟨[t]⟩) : m.tasks = [] := by
  obtain ⟨tasks, -, htasks⟩ := @Above.tail t m ⟨[]⟩ levels h
  exact (List.append_eq_nil_iff.mp htasks.symm).2

theorem Above.onTask {m now now' : ProgressModel} {levels : Nat} {f : Task → Task}
    (h : m.Above (levels + 1) now) (hstep : now.onTask f = some now') :
    m.Above (levels + 1) now' := by
  obtain ⟨_ | ⟨t, tasks⟩, hlen, htasks⟩ := h
  · simp at hlen
  · simp only [ProgressModel.onTask, htasks, List.cons_append, Option.some.injEq] at hstep
    subst hstep
    exact ⟨f t :: tasks, hlen, rfl⟩

theorem Above.pop {m now : ProgressModel} {levels : Nat} (h : m.Above (levels + 1) now) :
    ∃ now', now.pop = some now' ∧ m.Above levels now' := by
  obtain ⟨_ | ⟨t, tasks⟩, hlen, htasks⟩ := h
  · simp at hlen
  · refine ⟨⟨tasks ++ m.tasks⟩, ?_, tasks, by simpa using hlen, rfl⟩
    simp [ProgressModel.pop, htasks]

/-- Above a push, calls do not reach below it until it is closed. -/
theorem Runs.above {m now now' : ProgressModel} {ops : List Op} {opened left : Nat}
    (hrun : Runs now ops now') (h : m.Above (opened + 1) now)
    (hnest : nesting opened ops = some left) : m.Above (left + 1) now' := by
  induction hrun generalizing opened with
  | nil =>
    cases hnest
    exact h
  | @cons now now₁ now' op ops hallows hstep hproper hrest ih =>
    cases op with
    | setWidth width => exact ih (h.onTask hstep) hnest
    | adjustWidth offset => exact ih (h.onTask hstep) hnest
    | advance => exact ih (h.onTask hstep) hnest
    | push =>
      cases hstep
      obtain ⟨tasks, hlen, htasks⟩ := h
      refine ih ⟨⟨0, 0, now.pos, now.width⟩ :: tasks, by simp [hlen], ?_⟩ hnest
      simp [ProgressModel.push, htasks]
    | pop =>
      rw [nesting] at hnest
      split at hnest
      · cases hnest
      · rename_i hopened
        obtain ⟨opened, rfl⟩ := Nat.exists_eq_succ_of_ne_zero hopened
        obtain ⟨now₂, hpop, habove⟩ := h.pop
        cases hpop.symm.trans hstep
        exact ih habove hnest

/-! ## Soundness -/

/-- Each pushed level carries the progress it was pushed at. -/
inductive Sound : ProgressModel → Prop where
  | bottom {t : Task} (hpos : 0 ≤ t.pos) : Sound ⟨[t]⟩
  | level {t : Task} {m : ProgressModel} (hm : Sound m) (hmay : m.MayPush)
      (hnumerator : t.overallNumerator = m.pos) (hdenominator : t.overallDenominator = m.width)
      (hpos : 0 ≤ t.pos) (hle : t.pos ≤ t.width) : Sound ⟨t :: m.tasks⟩

theorem sound_new : Sound new := .bottom (le_refl 0)

theorem Sound.ne_nil {m : ProgressModel} (h : m.Sound) : m.tasks ≠ [] := by
  cases h with
  | bottom => simp
  | level => simp

/-- The overall progress with a task pushed onto `m`. -/
theorem level_progress (t : Task) {m : ProgressModel} (hm : m.tasks ≠ []) :
    pos ⟨t :: m.tasks⟩ = t.overallNumerator * t.scale + t.pos
      ∧ width ⟨t :: m.tasks⟩ = t.overallDenominator * t.scale := by
  obtain ⟨below, tasks, htasks⟩ := List.exists_cons_of_ne_nil hm
  simp [pos, width, htasks]

theorem push_progress {m : ProgressModel} (hm : m.tasks ≠ []) :
    m.push.pos = m.pos ∧ m.push.width = m.width := by
  obtain ⟨hpos, hwidth⟩ := level_progress ⟨0, 0, m.pos, m.width⟩ hm
  exact ⟨hpos.trans (by simp [Task.scale]), hwidth.trans (by simp [Task.scale])⟩

theorem mayPush_level {t : Task} {m : ProgressModel} (hm : m.tasks ≠ [])
    (h : MayPush ⟨t :: m.tasks⟩) : t.pos < t.width ∨ (t.pos = 0 ∧ t.width = 0) := by
  obtain ⟨below, tasks, htasks⟩ := List.exists_cons_of_ne_nil hm
  simpa [MayPush, htasks] using h

/-- A level that may be pushed onto has a step to go, of the steps it counts as. -/
theorem pos_lt_scale {t : Task} {m : ProgressModel} (hm : m.tasks ≠ [])
    (h : MayPush ⟨t :: m.tasks⟩) : t.pos < t.scale := by
  unfold Task.scale
  split
  · rcases mayPush_level hm h with hlt | ⟨hzero, -⟩ <;> omega
  · rcases mayPush_level hm h with hlt | ⟨-, hzero⟩ <;> omega

theorem scale_pos {t : Task} (hpos : 0 ≤ t.pos) (hle : t.pos ≤ t.width) : 0 < t.scale := by
  unfold Task.scale
  split <;> omega

theorem pos_le_scale {t : Task} (hle : t.pos ≤ t.width) : t.pos ≤ t.scale := by
  unfold Task.scale
  split <;> omega

/-- A change of the current subtask that keeps the scales and leaves it proper. -/
theorem Sound.onTask {m m' : ProgressModel} {f : Task → Task} (h : m.Sound)
    (hstep : m.onTask f = some m') (hproper : m'.Proper)
    (hpos : ∀ t, t.pos ≤ (f t).pos)
    (hscales : ∀ t, (f t).overallNumerator = t.overallNumerator
      ∧ (f t).overallDenominator = t.overallDenominator) : m'.Sound := by
  cases h with
  | @bottom t hpos₀ =>
    cases hstep
    exact .bottom (hpos₀.trans (hpos t))
  | @level t m hm hmay hnumerator hdenominator hpos₀ hle =>
    cases hstep
    refine .level hm hmay ?_ ?_ (hpos₀.trans (hpos t)) (hproper _ ?_)
    · rw [(hscales t).1, hnumerator]
    · rw [(hscales t).2, hdenominator]
    · rw [List.dropLast_cons_of_ne_nil hm.ne_nil]
      exact List.mem_cons_self

/-- **A call keeps the model sound.** -/
theorem Sound.step {m m' : ProgressModel} {op : Op} (h : m.Sound) (hallows : m.Allows op)
    (hstep : m.step op = some m') (hproper : m'.Proper) : m'.Sound := by
  cases op with
  | setWidth width => exact h.onTask hstep hproper (by simp) (by simp)
  | adjustWidth offset => exact h.onTask hstep hproper (by simp) (by simp)
  | advance => exact h.onTask hstep hproper (fun t => by simp) (by simp)
  | push =>
    cases hstep
    exact .level h hallows rfl rfl (le_refl 0) (le_refl 0)
  | pop =>
    cases h with
    | bottom => simp [Allows] at hallows
    | level hm =>
      cases hstep
      exact hm

theorem Runs.sound {m m' : ProgressModel} {ops : List Op} (hrun : Runs m ops m') (h : m.Sound) :
    m'.Sound := by
  induction hrun with
  | nil => exact h
  | cons hallows hstep hproper hrest ih => exact ih (h.step hallows hstep hproper)

/-! ## Each level within the step it stands for -/

/-- Whatever may be pushed onto has a width. -/
theorem Sound.width_pos {m : ProgressModel} (h : m.Sound) (hmay : m.MayPush) : 0 < m.width := by
  induction h with
  | @bottom t hpos =>
    have hlt : t.pos < t.width := hmay
    show 0 < t.width
    omega
  | @level t m hm hmay₀ hnumerator hdenominator hpos hle ih =>
    rw [(level_progress t hm.ne_nil).2, hdenominator]
    exact Int.mul_pos (ih hmay₀) (scale_pos hpos hle)

/-- The step that a push onto the model stands for. -/
def Sound.share {m : ProgressModel} (h : m.Sound) (hmay : m.MayPush) : Share :=
  ⟨m.pos, m.width, h.width_pos hmay⟩

/-- With a task on top, the model shows a part of the step below. -/
theorem level_part {t : Task} {m : ProgressModel} (h : m.Sound) (hmay : m.MayPush)
    (hnumerator : t.overallNumerator = m.pos) (hdenominator : t.overallDenominator = m.width)
    (hscale : 0 < t.scale) :
    pos ⟨t :: m.tasks⟩ = ((h.share hmay).part t.scale t.pos hscale).pos
      ∧ width ⟨t :: m.tasks⟩ = ((h.share hmay).part t.scale t.pos hscale).width := by
  rw [(level_progress t h.ne_nil).1, (level_progress t h.ne_nil).2, hnumerator, hdenominator]
  exact ⟨rfl, rfl⟩

/-- The step on top lies within every step that is open below it. -/
theorem Sound.share_within {m now : ProgressModel} {levels : Nat} (hnow : now.Sound)
    (hmay : now.MayPush) (habove : m.Above levels now) (hm : m.Sound) :
    ∃ hmay' : m.MayPush, (hnow.share hmay).Within (hm.share hmay') := by
  induction levels generalizing now with
  | zero =>
    obtain rfl := habove.eq
    exact ⟨hmay, Share.Within.refl _⟩
  | succ levels ih =>
    cases hnow with
    | bottom => exact absurd habove.bottom hm.ne_nil
    | @level t below hbelow hmay₀ hnumerator hdenominator hpos hle =>
      obtain ⟨hmay', hwithin⟩ := ih hbelow hmay₀ habove.tail
      refine ⟨hmay', Share.Within.trans ?_ hwithin⟩
      have hscale := scale_pos hpos hle
      have hpart := level_part hbelow hmay₀ hnumerator hdenominator hscale
      have heq : (Sound.level hbelow hmay₀ hnumerator hdenominator hpos hle).share hmay
          = (hbelow.share hmay₀).part t.scale t.pos hscale := by
        simp only [Sound.share, hpart]
      rw [heq]
      exact Share.part_within _ hscale hpos (pos_lt_scale hbelow.ne_nil hmay)

/-- The progress shown lies within every step that is open. -/
theorem Sound.progress_within {m now : ProgressModel} {levels : Nat} (hnow : now.Sound)
    (habove : m.Above (levels + 1) now) (hm : m.Sound) :
    ∃ hmay : m.MayPush, 0 < now.width ∧ (hm.share hmay).lower ≤ (now.pos : ℚ) / now.width
      ∧ (now.pos : ℚ) / now.width ≤ (hm.share hmay).upper := by
  cases hnow with
  | bottom => exact absurd habove.bottom hm.ne_nil
  | @level t below hbelow hmay₀ hnumerator hdenominator hpos hle =>
    obtain ⟨hmay, hwithin⟩ := hbelow.share_within hmay₀ habove.tail hm
    have hscale := scale_pos hpos hle
    have hpart := level_part hbelow hmay₀ hnumerator hdenominator hscale
    rw [hpart.1, hpart.2]
    exact ⟨hmay, Share.width_pos _, hwithin.1.trans (Share.lower_part hscale hpos),
      (Share.lower_part_le hscale (pos_le_scale hle)).trans hwithin.2⟩

/-- **Nested progress** stays within the step it was pushed at: a push shows nothing, what
comes behind it shows no less than the progress before it and no more than one step further,
and the pop that closes it restores the model. -/
theorem nested_progress {before inner : List Op} {m now : ProgressModel} {opened : Nat}
    (hbefore : Runs new before m) (hinner : Runs m (.push :: inner) now)
    (hopen : nesting 0 inner = some opened) :
    m.push.pos = m.pos ∧ m.push.width = m.width
      ∧ (opened = 0 → now.step .pop = some m)
      ∧ 0 < m.width ∧ 0 < now.width
      ∧ (m.pos : ℚ) / m.width ≤ now.pos / now.width
      ∧ (now.pos : ℚ) / now.width ≤ (m.pos + 1) / m.width := by
  have hm := hbefore.sound sound_new
  have hnow := hinner.sound hm
  obtain ⟨hpos, hwidth⟩ := push_progress hm.ne_nil
  have habove : m.Above (opened + 1) now := by
    cases hinner with
    | cons hallows hstep hproper hrest =>
      cases hstep
      exact hrest.above (above_push m) hopen
  obtain ⟨hmay, hnow_pos, hlower, hupper⟩ := hnow.progress_within habove hm
  refine ⟨hpos, hwidth, ?_, hm.width_pos hmay, hnow_pos, hlower, hupper⟩
  rintro rfl
  obtain ⟨m', hpop, hleft⟩ := habove.pop
  exact hpop.trans (congrArg some hleft.eq)

/-- One of three steps, with two of its own, the second of which has five. -/
theorem nested_progress_two_levels :
    let m : ProgressModel := ⟨[⟨1, 3, 0, 0⟩]⟩
    let now : ProgressModel := ⟨[⟨1, 5, 3, 6⟩, ⟨1, 2, 1, 3⟩, ⟨1, 3, 0, 0⟩]⟩
    (m.pos : ℚ) / m.width ≤ now.pos / now.width
      ∧ (now.pos : ℚ) / now.width ≤ (m.pos + 1) / m.width := by
  intro m now
  have hbefore : Runs new [.setWidth 3, .advance] m :=
    .cons trivial rfl (by decide) (.cons trivial rfl (by decide) (.nil _))
  have hinner : Runs m [.push, .setWidth 2, .advance, .push, .setWidth 5, .advance] now :=
    .cons (show (1 : Int) < 3 by decide) rfl (by decide) (.cons trivial rfl (by decide)
      (.cons trivial rfl (by decide) (.cons (.inl (by decide)) rfl (by decide)
        (.cons trivial rfl (by decide) (.cons trivial rfl (by decide) (.nil _))))))
  exact (nested_progress hbefore hinner rfl).2.2.2.2.2

end ProgressModel

end Pysubunit.Progress
