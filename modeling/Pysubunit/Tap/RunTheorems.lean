/-
Pysubunit.Tap.RunTheorems — when `TAP2SubUnit` returns.

Every event of a script is one of four kinds (`IsTapEvent`), each of which the
writer takes if its packet is short enough. A script that is read to its end
therefore fails at a plan for no tests that has no comment, and at nothing else
(`tap2SubUnit_returns_iff`).
-/
import Pysubunit.Tap.Tap2SubUnit
import Pysubunit.V2.PacketStreamTheorems

namespace Pysubunit.Tap

open ByteLib
open V2 (StatusEvent TestStatus PartialWrites OutputStream Writable packetLength maxPacketLength
  byteByByte)

/-! ## Events -/

/-- The events that a script leads to. -/
inductive IsTapEvent : StatusEvent → Prop
  | missing (planStart : Nat) : IsTapEvent (missingTest planStart)
  | skip (comment : List Char) : IsTapEvent (fileSkip comment)
  | text (line : List Char) : IsTapEvent (stdOut line)
  | test (testName : String) (result : Option TestStatus) (log : List (List Char)) :
      IsTapEvent (testEvent testName result log)

theorem isTapEvent_missingTests {planStart stop : Nat} {e : StatusEvent}
    (h : e ∈ missingTests planStart stop) : IsTapEvent e := by
  obtain ⟨n, -, rfl⟩ := List.mem_map.mp h
  exact .missing n

namespace Locals

variable {t : Locals}

theorem isTapEvent_emitTest {e : StatusEvent} (h : e ∈ t.emitTest.1) : IsTapEvent e := by
  unfold emitTest at h
  split at h
  · simp at h
  · rw [List.mem_singleton] at h
    rw [h]
    exact .test _ _ _

theorem isTapEvent_handle {line : List Char} {e : StatusEvent} (h : e ∈ (t.handle line).1) :
    IsTapEvent e := by
  unfold handle at h
  split at h
  · unfold plan at h
    dsimp only at h
    split at h
    · split at h
      · simp at h
      · rw [List.mem_singleton] at h
        rw [h]
        exact .skip _
    · simp at h
  · rcases List.mem_append.mp h with h | h
    · exact isTapEvent_emitTest h
    · exact isTapEvent_missingTests h
  · exact isTapEvent_emitTest h
  · simp at h
  · rw [List.mem_singleton] at h
    rw [h]
    exact .text line

theorem events_of_ok {line : List Char} {t' : Locals} (h : (t.handle line).2 = .ok t')
    (tap : List (List Char)) :
    t.events (line :: tap) = ((t.handle line).1 ++ (t'.events tap).1, (t'.events tap).2) := by
  obtain ⟨calls, hline⟩ : ∃ calls, t.handle line = (calls, .ok t') := ⟨_, Prod.ext rfl h⟩
  simp only [events, hline]

theorem events_of_error {line : List Char} {x : Raised} (h : (t.handle line).2 = .error x)
    (tap : List (List Char)) : t.events (line :: tap) = ((t.handle line).1, .error x) := by
  obtain ⟨calls, hline⟩ : ∃ calls, t.handle line = (calls, .error x) := ⟨_, Prod.ext rfl h⟩
  simp only [events, hline]

/-- A line at the front of a run. -/
theorem events_cons {line : List Char} {tap : List (List Char)}
    (h : (t.events (line :: tap)).2 = .ok ()) :
    ∃ t', (t.handle line).2 = .ok t' ∧ (t'.events tap).2 = .ok ()
      ∧ (t.events (line :: tap)).1 = (t.handle line).1 ++ (t'.events tap).1 := by
  cases hline : (t.handle line).2 with
  | error x =>
    rw [events_of_error hline] at h
    cases h
  | ok t' =>
    rw [events_of_ok hline] at h ⊢
    exact ⟨t', rfl, h, rfl⟩

theorem isTapEvent_events {tap : List (List Char)} {e : StatusEvent} (h : e ∈ (t.events tap).1) :
    IsTapEvent e := by
  induction tap generalizing t with
  | nil =>
    rcases List.mem_append.mp h with h | h
    · exact isTapEvent_emitTest h
    · exact isTapEvent_missingTests h
  | cons line tap ih =>
    cases hline : (t.handle line).2 with
    | error x =>
      rw [events_of_error hline] at h
      exact isTapEvent_handle h
    | ok t' =>
      rw [events_of_ok hline, List.mem_append] at h
      exact h.elim isTapEvent_handle ih

end Locals

/-! ## Writing -/

/-- An event has a packet. -/
theorem IsTapEvent.writable {e : StatusEvent} (h : IsTapEvent e) : Writable (statusCall e).event := by
  cases h with
  | missing planStart => exact ⟨fun _ => rfl, by simp [statusCall, missingTest]⟩
  | skip comment => exact ⟨fun _ => rfl, by simp [statusCall, fileSkip]⟩
  | text line => exact ⟨fun _ => rfl, by simp [statusCall, stdOut]⟩
  | test testName result log =>
    unfold testEvent
    split
    · exact ⟨by simp [statusCall], by simp [statusCall]⟩
    · exact ⟨fun _ => rfl, by simp [statusCall]⟩

/-- The packet of the event is short enough. -/
def Fits (e : StatusEvent) : Prop := packetLength (statusCall e) ≤ maxPacketLength

instance (e : StatusEvent) : Decidable (Fits e) := inferInstanceAs (Decidable (_ ≤ _))

/-- The writer takes the events that fit. -/
theorem IsTapEvent.status {e : StatusEvent} (h : IsTapEvent e) (w : PartialWrites)
    (out : OutputStream) :
    (Fits e ∧ (V2.status w out (statusCall e)).1 = .ok ())
    ∨ (¬ Fits e ∧ ∃ x, (V2.status w out (statusCall e)).1 = .error x) := by
  rcases V2.status_written w out h.writable with ⟨hfits, hok, -⟩ | ⟨hlong, ⟨m, herror⟩, -⟩
  · exact Or.inl ⟨hfits, hok⟩
  · exact Or.inr ⟨Nat.not_le_of_lt hlong, _, herror⟩

/-- All events are written if all of them fit. -/
theorem writeAll_ok_iff {events : List StatusEvent} (h : ∀ e ∈ events, IsTapEvent e)
    (w : PartialWrites) (out : OutputStream) :
    (writeAll w out events).1 = .ok () ↔ ∀ e ∈ events, Fits e := by
  induction events generalizing out with
  | nil => simp [writeAll]
  | cons e events ih =>
    rw [List.forall_mem_cons] at h ⊢
    cases hstatus : V2.status w out (statusCall e) with
    | mk result out' =>
    rcases h.1.status w out with ⟨hfits, hok⟩ | ⟨hlong, x, herror⟩
    · rw [hstatus] at hok
      dsimp only at hok
      subst hok
      simp only [writeAll, hstatus]
      rw [ih h.2 out']
      exact (and_iff_right hfits).symm
    · rw [hstatus] at herror
      dsimp only at herror
      subst herror
      simp [writeAll, hstatus, hlong]

/-- What is emitted of a script is what fits, up to the first event that does not. -/
theorem emitted_eq (tap : List (List Char)) :
    emitted tap = (Locals.events {} tap).1.takeWhile fun e => decide (Fits e) := by
  have hall : ∀ e ∈ (Locals.events {} tap).1, IsTapEvent e := fun e he => Locals.isTapEvent_events he
  unfold emitted
  generalize (Locals.events {} tap).1 = events at hall
  induction events with
  | nil => rfl
  | cons e events ih =>
    rw [List.forall_mem_cons] at hall
    rw [List.takeWhile_cons, List.takeWhile_cons, ih hall.2]
    have hwritten := @V2.writePacket_spec (statusCall e) hall.1.writable
    rcases hwritten with ⟨hfits, hok⟩ | ⟨hlong, m, herror⟩
    · have hfits' : Fits e := hfits
      rw [hok]
      simp [hfits']
    · have hlong' : ¬ Fits e := Nat.not_le_of_lt hlong
      rw [herror]
      simp [hlong']

/-- A script from which the function returns. -/
theorem tap2SubUnit_ok_iff (w : PartialWrites) (out : OutputStream) (tap : List (List Char)) :
    (tap2SubUnit w out tap).1 = .ok 0
      ↔ (∀ e ∈ (Locals.events {} tap).1, Fits e) ∧ (Locals.events {} tap).2 = .ok () := by
  have hall : ∀ e ∈ (Locals.events {} tap).1, IsTapEvent e := fun e he => Locals.isTapEvent_events he
  rw [← writeAll_ok_iff hall w out, tap2SubUnit]
  cases hwrite : writeAll w out (Locals.events {} tap).1 with
  | mk result out' =>
  cases result with
  | error x => simp
  | ok u =>
    cases hend : (Locals.events {} tap).2 with
    | error x => simp [Except.map]
    | ok v => simp [Except.map]

/-- If it returns, all events are written. -/
theorem emitted_of_ok {w : PartialWrites} {out : OutputStream} {tap : List (List Char)}
    (h : (tap2SubUnit w out tap).1 = .ok 0) : emitted tap = (Locals.events {} tap).1 := by
  rw [emitted_eq, List.takeWhile_eq_self_iff]
  intro e he
  exact decide_eq_true (((tap2SubUnit_ok_iff w out tap).mp h).1 e he)

/-! ## The plan -/

/-- The line is taken for a plan or a bail-out, behind which no plan is read. -/
def Reading.ends : Reading → Bool
  | .plan _ _ => true
  | .bailOut _ => true
  | _ => false

/-- The stage behind a line. -/
def Reading.next (state : Stage) : Reading → Stage
  | .plan planStop _ => if intOfDigits planStop = 0 then .skipStream else .afterPlan
  | .bailOut _ => .skipStream
  | _ => state

/-- Only a plan and a bail-out change the stage. -/
theorem Reading.next_eq {state : Stage} {r : Reading} (h : r.ends = false) :
    r.next state = state := by
  cases r with
  | plan planStop comment => cases h
  | bailOut reason => cases h
  | result groups => rfl
  | comment => rfl
  | other => rfl

theorem Reading.next_ne {state : Stage} {r : Reading} (h : r.ends = true) :
    r.next state ≠ .beforePlan := by
  cases r with
  | plan planStop comment =>
    simp only [Reading.next]
    split <;> simp
  | bailOut reason => simp [Reading.next]
  | result groups => cases h
  | comment => cases h
  | other => cases h

theorem next_ne_beforePlan {state : Stage} (h : state ≠ .beforePlan) (r : Reading) :
    r.next state ≠ .beforePlan := by
  cases hends : r.ends with
  | true => exact Reading.next_ne hends
  | false =>
    rw [Reading.next_eq hends]
    exact h

/-- A plan is read in the first stage only. -/
theorem readLine_ne_plan {state : Stage} (h : state ≠ .beforePlan) (line : List Char)
    (planStop : List Char) (comment : Option (List Char)) :
    readLine state line ≠ .plan planStop comment := by
  unfold readLine
  rw [if_neg h]
  dsimp only
  split
  · simp
  · split
    · simp
    · split <;> simp

/-- A plan for no tests without a comment. -/
def Reading.BareZero (r : Reading) : Prop :=
  ∃ planStop, r = .plan planStop none ∧ intOfDigits planStop = 0

/-- The first plan or bail-out is such a plan. -/
def BareZeroPlan (tap : List (List Char)) : Prop :=
  ∃ line, tap.find? (fun line => (readLine .beforePlan line).ends) = some line
    ∧ (readLine .beforePlan line).BareZero

namespace Locals

variable {t : Locals}

@[simp] theorem emitTest_state : t.emitTest.2.state = t.state := by
  unfold emitTest
  split <;> rfl

@[simp] theorem emitTest_planStart : t.emitTest.2.planStart = t.planStart := by
  unfold emitTest
  split <;> rfl

@[simp] theorem emitTest_planStop : t.emitTest.2.planStop = t.planStop := by
  unfold emitTest
  split <;> rfl

/-- What a line does that raises nothing: the calls, and the variables behind it. -/
inductive Handles (t : Locals) (line : List Char) : List StatusEvent → Locals → Prop
  | skip (planStop text : List Char) (hread : readLine t.state line = .plan planStop (some text))
      (hzero : intOfDigits planStop = 0) :
      Handles t line [fileSkip text] { t with state := .skipStream, planStop := 0 }
  | plan (planStop : List Char) (comment : Option (List Char))
      (hread : readLine t.state line = .plan planStop comment) (hne : intOfDigits planStop ≠ 0) :
      Handles t line [] { t with state := .afterPlan, planStop := intOfDigits planStop }
  | result (groups : ResultLine) (hread : readLine t.state line = .result groups) :
      Handles t line (t.testLine groups).1 (t.testLine groups).2
  | bailOut (reason : Option (List Char)) (hread : readLine t.state line = .bailOut reason) :
      Handles t line (t.bailOut reason).1 (t.bailOut reason).2
  | comment (hread : readLine t.state line = .comment) :
      Handles t line [] { t with log := t.log ++ [line.dropLast] }
  | other (hread : readLine t.state line = .other) : Handles t line [stdOut line] t

theorem handles {line : List Char} {t' : Locals} (hpos : 0 < t.planStart)
    (h : (t.handle line).2 = .ok t') : Handles t line (t.handle line).1 t' := by
  unfold handle at h ⊢
  cases hread : readLine t.state line with
  | plan planStop comment =>
    rw [hread] at h
    simp only [plan] at h ⊢
    by_cases hzero : intOfDigits planStop = 0
    · have hskip : intOfDigits planStop < t.planStart ∧ intOfDigits planStop = 0 :=
        ⟨by omega, hzero⟩
      rw [if_pos hskip] at h ⊢
      cases comment with
      | none => cases h
      | some text =>
        cases h
        rw [hzero]
        exact .skip planStop text hread hzero
    · have hskip : ¬ (intOfDigits planStop < t.planStart ∧ intOfDigits planStop = 0) :=
        fun hskip => hzero hskip.2
      rw [if_neg hskip] at h ⊢
      cases h
      exact .plan planStop comment hread hzero
  | result groups =>
    rw [hread] at h
    cases h
    exact .result groups hread
  | bailOut reason =>
    rw [hread] at h
    cases h
    exact .bailOut reason hread
  | comment =>
    rw [hread] at h
    cases h
    exact .comment hread
  | other =>
    rw [hread] at h
    cases h
    exact .other hread

/-- What a line does to the stage, and that the next number stays positive. -/
theorem handle_ok {line : List Char} {t' : Locals} (hpos : 0 < t.planStart)
    (h : (t.handle line).2 = .ok t') :
    t'.state = (readLine t.state line).next t.state ∧ 0 < t'.planStart := by
  have hhandles := handles hpos h
  generalize (t.handle line).1 = calls at hhandles
  cases hhandles with
  | skip planStop text hread hzero => exact ⟨by simp [hread, Reading.next, hzero], hpos⟩
  | plan planStop comment hread hne => exact ⟨by simp [hread, Reading.next, hne], hpos⟩
  | result groups hread => exact ⟨by simp [hread, Reading.next, testLine], Nat.succ_pos _⟩
  | bailOut reason hread => exact ⟨by simp [hread, Reading.next, bailOut], by simpa [bailOut] using hpos⟩
  | comment hread => exact ⟨by simp [hread, Reading.next], hpos⟩
  | other hread => exact ⟨by simp [hread, Reading.next], hpos⟩

/-- A line raises if it is a bare plan for no tests. -/
theorem handle_error_iff (hpos : 0 < t.planStart) (line : List Char) :
    (∃ x, (t.handle line).2 = .error x) ↔ (readLine t.state line).BareZero := by
  unfold handle Reading.BareZero
  cases readLine t.state line with
  | plan planStop comment =>
    simp only [plan, Reading.plan.injEq]
    by_cases hzero : intOfDigits planStop = 0
    · have hskip : intOfDigits planStop < t.planStart ∧ intOfDigits planStop = 0 :=
        ⟨by omega, hzero⟩
      rw [if_pos hskip]
      cases comment with
      | none => simp [hzero]
      | some comment => simp
    · rw [if_neg fun hskip => hzero hskip.2]
      simp
      intro _ h0
      exact hzero h0
  | result groups => simp
  | bailOut reason => simp
  | comment => simp
  | other => simp

/-- Behind the first stage nothing raises. -/
theorem events_ok_of_state (hpos : 0 < t.planStart) (hstate : t.state ≠ .beforePlan)
    (tap : List (List Char)) : (t.events tap).2 = .ok () := by
  induction tap generalizing t with
  | nil => rfl
  | cons line tap ih =>
    cases hline : (t.handle line).2 with
    | error x =>
      obtain ⟨planStop, hplan, -⟩ := (handle_error_iff hpos line).mp ⟨x, hline⟩
      exact absurd hplan (readLine_ne_plan hstate line planStop none)
    | ok t' =>
      obtain ⟨hnext, hpos'⟩ := handle_ok hpos hline
      rw [events_of_ok hline]
      refine ih hpos' ?_
      rw [hnext]
      exact next_ne_beforePlan hstate _

/-- A run raises if it comes to a bare plan for no tests. -/
theorem events_ok_iff (hpos : 0 < t.planStart) (hstate : t.state = .beforePlan)
    (tap : List (List Char)) : (t.events tap).2 = .ok () ↔ ¬ BareZeroPlan tap := by
  induction tap generalizing t with
  | nil => simp [events, BareZeroPlan]
  | cons line tap ih =>
    have hraises := handle_error_iff hpos line
    rw [hstate] at hraises
    have hfind : BareZeroPlan (line :: tap)
        ↔ if (readLine .beforePlan line).ends then (readLine .beforePlan line).BareZero
          else BareZeroPlan tap := by
      unfold BareZeroPlan
      rw [List.find?_cons]
      cases (readLine .beforePlan line).ends <;> simp
    cases hline : (t.handle line).2 with
    | error x =>
      rw [hline] at hraises
      have hbare := hraises.mp ⟨x, rfl⟩
      have hends : (readLine .beforePlan line).ends = true := by
        obtain ⟨planStop, hplan, -⟩ := hbare
        rw [hplan]
        rfl
      rw [hfind, if_pos hends, events_of_error hline]
      simp [hbare]
    | ok t' =>
      rw [hline] at hraises
      have hbare : ¬ (readLine .beforePlan line).BareZero := fun hbare => by
        obtain ⟨x, hx⟩ := hraises.mpr hbare
        cases hx
      obtain ⟨hnext, hpos'⟩ := handle_ok hpos hline
      rw [hstate] at hnext
      rw [hfind, events_of_ok hline]
      by_cases hends : (readLine .beforePlan line).ends = true
      · rw [if_pos hends, events_ok_of_state hpos' (by rw [hnext]; exact Reading.next_ne hends)]
        simp [hbare]
      · rw [if_neg hends]
        refine ih hpos' ?_
        rw [hnext, Reading.next_eq (by simpa using hends)]

end Locals

/-- **When `TAP2SubUnit` returns.** The first plan or bail-out of the script is no
plan for no tests without a comment. -/
theorem tap2SubUnit_returns_iff (w : PartialWrites) (out : OutputStream) {tap : List (List Char)}
    (hfits : ∀ e ∈ (Locals.events {} tap).1, Fits e) :
    (tap2SubUnit w out tap).1 = .ok 0 ↔ ¬ BareZeroPlan tap := by
  rw [tap2SubUnit_ok_iff, Locals.events_ok_iff Nat.one_pos rfl]
  exact and_iff_right hfits

theorem tap2SubUnit_returns_one :
    (∀ e ∈ (Locals.events {} ["1..1\n".toList, "ok\n".toList]).1, Fits e)
    ∧ ((tap2SubUnit byteByByte {} ["1..1\n".toList, "ok\n".toList]).1 = .ok 0
      ↔ ¬ BareZeroPlan ["1..1\n".toList, "ok\n".toList]) :=
  have hfits : ∀ e ∈ (Locals.events {} ["1..1\n".toList, "ok\n".toList]).1, Fits e := by
    decide +kernel
  ⟨hfits, tap2SubUnit_returns_iff byteByByte {} hfits⟩

/-- The plan for no tests, alone on its line. -/
theorem tap2SubUnit_bare_zero_plan_raises :
    (tap2SubUnit byteByByte {} ["1..0\n".toList]).1 = .error .attributeError := by
  decide +kernel

end Pysubunit.Tap
