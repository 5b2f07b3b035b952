/-
Pysubunit.Results.ListTheorems — what `subunit-ls` lists, with and without `--times`.

Two results that differ in `show_times` alone do the same until the one that shows times cannot
tell one: an event that is shown as existing has no duration, and neither has a test that ends
without a start, or whose start came before any time did. `endTest_agrees` and `status_agrees`
say so of one call, `statuses_agree` of a run of calls, and `started` reads off the events what
a result has in `_active_tests` for an id. Without times nothing is raised.
-/
import Pysubunit.Results.TestIdPrintingResult

namespace Pysubunit.Results

open ByteLib
open V1 (Error)
open V2 (DateTime Timedelta TestStatus StatusEvent)

/-! ## Without times -/

/-- The line without its seconds. -/
def Line.untimed (line : Line) : Line := ⟨line.testId, none⟩

namespace TestIdPrintingResult

/-- The result that shows times. -/
def timed (r : TestIdPrintingResult) : TestIdPrintingResult := { r with showTimes := true }

/-- The result that shows none. -/
def untimed (r : TestIdPrintingResult) : TestIdPrintingResult := { r with showTimes := false }

/-- A test with a time for its start leaves a time. -/
def Clocked (r : TestIdPrintingResult) : Prop :=
  ∀ id start, r.activeTests.lookup id = some (some start) → r.time ≠ none

/-- What a method does of a result that shows times, and of the same without. -/
inductive Agrees (tells : Prop) : Printed → Printed → Prop where
  | told {lines : List Line} {r : TestIdPrintingResult} (h : tells) (hclocked : r.Clocked) :
      Agrees tells (lines, .ok r.timed) (lines.map Line.untimed, .ok r.untimed)
  | raises {shown lines : List Line} {e : Error} {r : TestIdPrintingResult} (h : ¬ tells)
      (hclocked : r.Clocked) (hshown : shown.map Line.untimed <+: lines) :
      Agrees tells (shown, .error e) (lines, .ok r.untimed)

variable {r : TestIdPrintingResult}

theorem Clocked.erase (h : r.Clocked) (id : String) :
    Clocked { r with activeTests := r.activeTests.erase id } := by
  intro id' start hstart
  rw [Dict.lookup_erase_ite] at hstart
  split at hstart
  · cases hstart
  · exact h id' start hstart

/-- A test without a start is no test with times. -/
theorem endTest_unstarted {id : String} (h : (r.activeTests.lookup id).getD none = none) :
    let ended := { r with activeTests := r.activeTests.erase id }
    r.timed.endTest id = ([], .error (.attributeError "seconds"))
      ∧ r.untimed.endTest id = ([⟨id, none⟩], .ok ended.untimed) := by
  simp [endTest, AList.extract_eq_lookup_erase, h, reportTest, timed, untimed]

theorem endTest_started_untimed {id : String} {start now : DateTime}
    (hactive : r.activeTests.lookup id = some (some start)) (htime : r.time = some now) :
    r.untimed.endTest id
      = ([⟨id, none⟩], .ok (untimed { r with activeTests := r.activeTests.erase id })) := by
  simp [endTest, AList.extract_eq_lookup_erase, hactive, htime, reportTest, untimed]

/-- **The end of a test** is told if its start is. -/
theorem endTest_agrees (h : r.Clocked) (id : String) :
    Agrees ((r.activeTests.lookup id).getD none ≠ none) (r.timed.endTest id)
      (r.untimed.endTest id) := by
  by_cases hstart : (r.activeTests.lookup id).getD none = none
  · obtain ⟨htimed, huntimed⟩ := endTest_unstarted hstart
    rw [htimed, huntimed]
    exact .raises (fun hne => hne hstart) (h.erase id) (List.nil_prefix)
  · obtain ⟨start, hlookup⟩ : ∃ start, r.activeTests.lookup id = some (some start) := by
      cases hl : r.activeTests.lookup id with
      | none => simp [hl] at hstart
      | some started =>
        cases started with
        | none => simp [hl] at hstart
        | some start => exact ⟨start, rfl⟩
    obtain ⟨now, hnow⟩ := Option.ne_none_iff_exists'.mp (h id start hlookup)
    have htimed : r.timed.endTest id = ([line id (secondsBetween start now)],
        .ok (timed { r with activeTests := r.activeTests.erase id })) :=
      endTest_started rfl hlookup hnow
    rw [htimed, endTest_started_untimed hlookup hnow]
    exact .told hstart (h.erase id)

/-- The event is one of a test that has a name. -/
def Named (e : StatusEvent) (id : String) : Prop := e.testId = some id ∧ id ≠ ""

/-- A result that shows times can take the event. -/
def Tells (r : TestIdPrintingResult) (e : StatusEvent) : Prop :=
  ∀ id, Named e id → (e.testStatus = some .exists → r.showExists = false)
    ∧ (Ends e → (r.activeTests.lookup id).getD none ≠ none)

theorem status_kind (e : StatusEvent) :
    e.testStatus = some .exists ∨ (e.testStatus = some .inprogress ∨ e.testStatus = none)
      ∨ Ends e := by
  unfold Ends
  rcases e.testStatus with _ | status
  · simp
  · cases status <;> simp

/-- The result after the time of an event. -/
def told (r : TestIdPrintingResult) (e : StatusEvent) : TestIdPrintingResult :=
  { r with time := e.timestamp.or r.time }

theorem Clocked.told (h : r.Clocked) (e : StatusEvent) : (r.told e).Clocked := by
  intro id start hstart
  have hnow := h id start hstart
  unfold TestIdPrintingResult.told
  cases e.timestamp with
  | none => simpa using hnow
  | some t => simp

theorem Clocked.set (h : r.Clocked) (id : String) :
    Clocked { r with activeTests := r.activeTests.set id r.time } := by
  intro id' start hstart
  rw [Dict.lookup_set] at hstart
  split at hstart
  · simpa using Option.some.inj hstart ▸ Option.some_ne_none start
  · exact h id' start hstart

theorem status_nameless {e : StatusEvent} (h : ∀ id, ¬ Named e id) : r.status e = ([], .ok r) := by
  unfold status
  cases hid : e.testId with
  | none => rfl
  | some id =>
    have hempty : id = "" := by
      by_contra hne
      exact h id ⟨hid, hne⟩
    simp [hempty]

theorem status_exists {e : StatusEvent} {id : String} (hid : Named e id)
    (h : e.testStatus = some .exists) :
    r.status e = if r.showExists then (r.told e).reportTest id none else ([], .ok (r.told e)) := by
  unfold status told
  rw [hid.1, h]
  cases e.timestamp <;> simp [hid.2]

theorem status_start {e : StatusEvent} {id : String} (hid : Named e id)
    (h : e.testStatus = some .inprogress ∨ e.testStatus = none) :
    r.status e = ([], .ok { r.told e with
      activeTests := (r.told e).activeTests.set id (r.told e).time }) := by
  unfold status told
  rw [hid.1]
  rcases h with h | h <;> cases e.timestamp <;> simp [h, hid.2]

theorem status_end {e : StatusEvent} {id : String} (hid : Named e id) (h : Ends e) :
    r.status e = (r.told e).endTest id := by
  unfold status told
  rw [hid.1]
  simp only [Ends, List.mem_cons, List.not_mem_nil, or_false] at h
  rcases h with h | h | h | h | h <;> cases e.timestamp <;> simp [h, hid.2]

/-- **One event.** -/
theorem status_agrees (h : r.Clocked) (e : StatusEvent) :
    Agrees (r.Tells e) (r.timed.status e) (r.untimed.status e) := by
  by_cases hnamed : ∃ id, Named e id
  · obtain ⟨id, hid⟩ := hnamed
    have htells : r.Tells e ↔ (e.testStatus = some .exists → r.showExists = false)
        ∧ (Ends e → (r.activeTests.lookup id).getD none ≠ none) := by
      refine ⟨fun htells => htells id hid, fun htells id' hid' => ?_⟩
      cases hid.1.symm.trans hid'.1
      exact htells
    have htold := h.told e
    rcases status_kind e with hexists | hstarts | hends
    · have hends : ¬ Ends e := by simp [Ends, hexists]
      rw [status_exists hid hexists, status_exists hid hexists]
      cases hshow : r.showExists with
      | true =>
        have hshows : r.timed.showExists = true := hshow
        have hshows' : r.untimed.showExists = true := hshow
        rw [if_pos hshows, if_pos hshows']
        have hshown : ¬ r.Tells e := fun htell => by simpa [hshow] using (htells.mp htell).1 hexists
        exact .raises (r := r.told e) hshown htold List.nil_prefix
      | false =>
        have hshows : ¬ r.timed.showExists = true := by simp [timed, hshow]
        have hshows' : ¬ r.untimed.showExists = true := by simp [untimed, hshow]
        rw [if_neg hshows, if_neg hshows']
        exact .told (r := r.told e) (htells.mpr ⟨fun _ => hshow, fun h => absurd h hends⟩) htold
    · rw [status_start hid hstarts, status_start hid hstarts]
      have hends : ¬ Ends e := by rcases hstarts with hs | hs <;> simp [Ends, hs]
      have hexists : e.testStatus ≠ some .exists := by rcases hstarts with hs | hs <;> simp [hs]
      exact .told (htells.mpr ⟨fun h => absurd h hexists, fun h => absurd h hends⟩)
        (htold.set id)
    · rw [status_end hid hends, status_end hid hends]
      have hexists : e.testStatus ≠ some .exists := by
        intro hexists
        simp [Ends, hexists] at hends
      have hiff : r.Tells e ↔ ((r.told e).activeTests.lookup id).getD none ≠ none :=
        htells.trans ⟨fun h => h.2 hends, fun h => ⟨fun h' => absurd h' hexists, fun _ => h⟩⟩
      rw [hiff]
      exact endTest_agrees htold id
  · have hno : ∀ id, ¬ Named e id := fun id hid => hnamed ⟨id, hid⟩
    rw [status_nameless hno, status_nameless hno]
    exact .told (fun id hid => absurd hid (hno id)) h

/-! ## One after the other -/

/-- What was printed, and what the object behind it then does. -/
def andThen (printed : Printed) (next : TestIdPrintingResult → Printed) : Printed :=
  match printed with
  | (lines, .error e) => (lines, .error e)
  | (lines, .ok r) => (lines ++ (next r).1, (next r).2)

theorem statuses_cons (r : TestIdPrintingResult) (e : StatusEvent) (es : List StatusEvent) :
    r.statuses (e :: es) = andThen (r.status e) (·.statuses es) := by
  rw [statuses]
  unfold andThen
  rcases r.status e with ⟨lines, _ | r'⟩ <;> rfl

theorem endTests_cons (r : TestIdPrintingResult) (id : String) (ids : List String) :
    r.endTests (id :: ids) = andThen (r.endTest id) (·.endTests ids) := by
  rw [endTests]
  unfold andThen
  rcases r.endTest id with ⟨lines, _ | r'⟩ <;> rfl

theorem testRun_eq (r : TestIdPrintingResult) (es : List StatusEvent) :
    r.testRun es = andThen (r.startTestRun.statuses es) stopTestRun := by
  rw [testRun]
  unfold andThen
  rcases r.startTestRun.statuses es with ⟨lines, _ | r'⟩ <;> rfl

/-- Two calls in a row are told if both are. -/
theorem Agrees.andThen {tells tells' : Prop} {printed plain : Printed}
    {next : TestIdPrintingResult → Printed} (h : Agrees tells printed plain)
    (hnext : ∀ r : TestIdPrintingResult, r.Clocked → plain.2 = .ok r.untimed →
      Agrees tells' (next r.timed) (next r.untimed)) :
    Agrees (tells ∧ tells') (andThen printed next) (andThen plain next) := by
  cases h with
  | @told lines r h hclocked =>
    have hrest := hnext r hclocked rfl
    unfold TestIdPrintingResult.andThen
    dsimp only
    generalize next r.timed = p, next r.untimed = q at hrest
    cases hrest with
    | @told lines' r' h' hclocked' =>
      rw [← List.map_append]
      exact .told ⟨h, h'⟩ hclocked'
    | raises h' hclocked' hshown =>
      refine .raises (fun hboth => h' hboth.2) hclocked' ?_
      rw [List.map_append]
      exact List.prefix_append_right_inj _ |>.mpr hshown
  | @raises shown lines e r h hclocked hshown =>
    have hrest := hnext r hclocked rfl
    unfold TestIdPrintingResult.andThen
    dsimp only
    generalize next r.timed = p, next r.untimed = q at hrest
    cases hrest with
    | told h' hclocked' =>
      exact .raises (fun hboth => h hboth.1) hclocked' (hshown.trans (List.prefix_append _ _))
    | raises h' hclocked' hshown' =>
      exact .raises (fun hboth => h hboth.1) hclocked' (hshown.trans (List.prefix_append _ _))

end TestIdPrintingResult

/-! ## What the events say -/

/-- The last time that the events brought, the newest event first. -/
def lastTime : List StatusEvent → Option DateTime
  | [] => none
  | e :: earlier =>
    if e.testId.getD "" = "" then lastTime earlier else e.timestamp.or (lastTime earlier)

/-- The start of a test that runs: the last time at its newest event, those of its existence
apart; the newest event first. -/
def started (id : String) : List StatusEvent → Option (Option DateTime)
  | [] => none
  | e :: earlier =>
    if e.testId = some id ∧ e.testStatus ≠ some .exists then
      if TestIdPrintingResult.Ends e then none else some (lastTime (e :: earlier))
    else started id earlier

namespace TestIdPrintingResult

/-- The result has received these events, the newest first. -/
structure Knows (r : TestIdPrintingResult) (before : List StatusEvent) : Prop where
  time : r.time = lastTime before
  nameless : r.activeTests.lookup "" = none
  active : ∀ id, id ≠ "" → r.activeTests.lookup id = started id before

variable {r r' : TestIdPrintingResult} {before : List StatusEvent}

theorem knows_start (r : TestIdPrintingResult) : r.startTestRun.Knows [] where
  time := rfl
  nameless := AList.lookup_empty ""
  active id _ := AList.lookup_empty id

theorem endTest_ok {id : String} {lines : List Line} (h : r.endTest id = (lines, .ok r')) :
    r' = { r with activeTests := r.activeTests.erase id } := by
  unfold endTest at h
  rw [AList.extract_eq_lookup_erase] at h
  dsimp only at h
  unfold reportTest at h
  split at h
  · split at h
    · cases h
    · cases h
      rfl
  · split at h
    · cases h
    · split at h
      · cases h
        rfl
      · cases h
        rfl

theorem Knows.told {e : StatusEvent} {id : String} (h : r.Knows before) (hid : Named e id) :
    (r.told e).time = lastTime (e :: before) := by
  rw [lastTime, if_neg (by simpa [hid.1] using hid.2), ← h.time]
  rfl

theorem started_other {e : StatusEvent} {id id' : String} (hid : Named e id) (hne : id' ≠ id) :
    started id' (e :: before) = started id' before := by
  rw [started, if_neg]
  rintro ⟨hid', -⟩
  exact hne (Option.some.inj (hid'.symm.trans hid.1))

/-- What a result is after an event that it took. -/
inductive After (r : TestIdPrintingResult) (e : StatusEvent) : TestIdPrintingResult → Prop where
  | nameless (h : ∀ id, ¬ Named e id) : After r e r
  | exists {id : String} (hid : Named e id) (h : e.testStatus = some .exists) : After r e (r.told e)
  | starts {id : String} (hid : Named e id) (hexists : e.testStatus ≠ some .exists)
      (hends : ¬ Ends e) : After r e { r.told e with
        activeTests := r.activeTests.set id (r.told e).time }
  | ends {id : String} (hid : Named e id) (hexists : e.testStatus ≠ some .exists) (h : Ends e) :
      After r e { r.told e with activeTests := r.activeTests.erase id }

theorem status_after {e : StatusEvent} {lines : List Line} (h : r.status e = (lines, .ok r')) :
    After r e r' := by
  by_cases hnamed : ∃ id, Named e id
  · obtain ⟨id, hid⟩ := hnamed
    rcases status_kind e with hexists | hstarts | hends
    · rw [status_exists hid hexists] at h
      unfold reportTest at h
      split at h
      · split at h <;> cases h
        exact .exists hid hexists
      · cases h
        exact .exists hid hexists
    · have hends : ¬ Ends e := by rcases hstarts with hs | hs <;> simp [Ends, hs]
      have hexists : e.testStatus ≠ some .exists := by rcases hstarts with hs | hs <;> simp [hs]
      rw [status_start hid hstarts] at h
      cases h
      exact .starts hid hexists hends
    · have hexists : e.testStatus ≠ some .exists := by
        intro hexists
        simp [Ends, hexists] at hends
      rw [status_end hid hends] at h
      rw [endTest_ok h]
      exact .ends hid hexists hends
  · have hno : ∀ id, ¬ Named e id := fun id hid => hnamed ⟨id, hid⟩
    rw [status_nameless hno] at h
    cases h
    exact .nameless hno

/-- **One event** more. -/
theorem Knows.status {e : StatusEvent} {lines : List Line} (h : r.Knows before)
    (hstatus : r.status e = (lines, .ok r')) : r'.Knows (e :: before) := by
  cases status_after hstatus with
  | nameless hno =>
    have hempty : e.testId.getD "" = "" := by
      by_contra hne
      cases hid : e.testId with
      | none => simp [hid] at hne
      | some id => exact hno id ⟨hid, by simpa [hid] using hne⟩
    refine ⟨?_, h.nameless, fun id hid => ?_⟩
    · rw [lastTime, if_pos hempty]
      exact h.time
    · rw [started, if_neg fun hthis => hno id ⟨hthis.1, hid⟩]
      exact h.active id hid
  | «exists» hid hexists =>
    refine ⟨h.told hid, h.nameless, fun id' hid' => ?_⟩
    rw [started, if_neg (by simp [hexists])]
    exact h.active id' hid'
  | @starts id hid hexists hends =>
    refine ⟨h.told hid, ?_, fun id' hid' => ?_⟩
    · rw [Dict.lookup_set, if_neg hid.2.symm]
      exact h.nameless
    · rw [Dict.lookup_set]
      by_cases heq : id' = id
      · subst heq
        rw [if_pos rfl, started, if_pos ⟨hid.1, hexists⟩, if_neg hends, h.told hid]
      · rw [if_neg heq, started_other hid heq]
        exact h.active id' hid'
  | @ends id hid hexists hends =>
    refine ⟨h.told hid, ?_, fun id' hid' => ?_⟩
    · rw [Dict.lookup_erase_ite, if_neg hid.2.symm]
      exact h.nameless
    · rw [Dict.lookup_erase_ite]
      by_cases heq : id' = id
      · subst heq
        rw [if_pos rfl, started, if_pos ⟨hid.1, hexists⟩, if_pos hends]
      · rw [if_neg heq, started_other hid heq]
        exact h.active id' hid'

theorem status_showExists {e : StatusEvent} {lines : List Line}
    (h : r.status e = (lines, .ok r')) : r'.showExists = r.showExists := by
  cases status_after h <;> rfl

theorem knows_untimed : r.untimed.Knows before ↔ r.Knows before :=
  ⟨fun h => ⟨h.time, h.nameless, h.active⟩, fun h => ⟨h.time, h.nameless, h.active⟩⟩

theorem Knows.statuses {es : List StatusEvent} (h : r.Knows before)
    (hstatuses : (r.statuses es).2 = .ok r') : r'.Knows (es.reverse ++ before) := by
  induction es generalizing r before with
  | nil =>
    cases hstatuses
    exact h
  | cons e es ih =>
    rw [statuses_cons] at hstatuses
    rcases hstatus : r.status e with ⟨lines, err | r₁⟩
    · rw [hstatus] at hstatuses
      cases hstatuses
    · rw [hstatus] at hstatuses
      have hrest := ih (h.status hstatus) hstatuses
      simpa using hrest

/-- A result that shows times can take the event after these, the newest first. -/
def TellsAfter (showExists : Bool) (before : List StatusEvent) (e : StatusEvent) : Prop :=
  ∀ id, Named e id → (e.testStatus = some .exists → showExists = false)
    ∧ (Ends e → ∃ start, started id before = some (some start))

theorem Knows.tells_iff (h : r.Knows before) (e : StatusEvent) :
    r.Tells e ↔ TellsAfter r.showExists before e := by
  refine forall_congr' fun id => forall_congr' fun hid => and_congr_right' ?_
  refine imp_congr_right fun _ => ?_
  rw [h.active id hid.2]
  rcases started id before with _ | _ | start <;> simp

/-- Of each item of a list and what stands before it. -/
theorem forall_split_cons {α : Type} {P : List α → α → Prop} {y : α} {items : List α} :
    (∀ earlier x later, y :: items = earlier ++ x :: later → P earlier x)
      ↔ P [] y ∧ ∀ earlier x later, items = earlier ++ x :: later → P (y :: earlier) x := by
  constructor
  · intro h
    exact ⟨h [] y items rfl,
      fun earlier x later hsplit => h (y :: earlier) x later (by simp [hsplit])⟩
  · rintro ⟨hfirst, hrest⟩ earlier x later hsplit
    cases earlier with
    | nil =>
      cases hsplit
      exact hfirst
    | cons y' earlier =>
      obtain ⟨rfl, hsplit'⟩ := List.cons.inj hsplit
      exact hrest earlier x later hsplit'

/-- Every event can be taken where it comes. -/
def TellsAll (showExists : Bool) (before es : List StatusEvent) : Prop :=
  ∀ earlier e later, es = earlier ++ e :: later →
    TellsAfter showExists (earlier.reverse ++ before) e

theorem tellsAll_cons {showExists : Bool} {before es : List StatusEvent} {e : StatusEvent} :
    TellsAll showExists before (e :: es)
      ↔ TellsAfter showExists before e ∧ TellsAll showExists (e :: before) es := by
  unfold TellsAll
  rw [@forall_split_cons _ fun earlier e => TellsAfter showExists (earlier.reverse ++ before) e]
  simp

/-- **A run of events.** -/
theorem statuses_agree (hclocked : r.Clocked) (h : r.Knows before) (es : List StatusEvent) :
    Agrees (TellsAll r.showExists before es) (r.timed.statuses es) (r.untimed.statuses es) := by
  induction es generalizing r before with
  | nil => exact @Agrees.told _ [] r (fun earlier e later hsplit => by simp at hsplit) hclocked
  | cons e es ih =>
    rw [statuses_cons, statuses_cons, tellsAll_cons, ← h.tells_iff]
    refine (status_agrees hclocked e).andThen fun r' hclocked' hplain => ?_
    have hstatus : r.untimed.status e = ((r.untimed.status e).1, .ok r'.untimed) :=
      Prod.ext rfl hplain
    have hknows : r'.Knows (e :: before) :=
      knows_untimed.mp ((knows_untimed.mpr h).status hstatus)
    have hshow : r'.untimed.showExists = r.untimed.showExists := status_showExists hstatus
    have hshow' : r'.showExists = r.showExists := hshow
    rw [← hshow']
    exact ih hclocked' hknows

/-- The ends of tests, each once. -/
theorem endTests_agree (hclocked : r.Clocked) {ids : List String} (hnodup : ids.Nodup) :
    Agrees (∀ id ∈ ids, (r.activeTests.lookup id).getD none ≠ none) (r.timed.endTests ids)
      (r.untimed.endTests ids) := by
  induction ids generalizing r with
  | nil => exact @Agrees.told _ [] r (by simp) hclocked
  | cons id ids ih =>
    obtain ⟨hnot, hnodup⟩ := List.nodup_cons.mp hnodup
    rw [endTests_cons, endTests_cons, List.forall_mem_cons]
    refine (endTest_agrees hclocked id).andThen fun r' hclocked' hplain => ?_
    have hend : r.untimed.endTest id = ((r.untimed.endTest id).1, .ok r'.untimed) :=
      Prod.ext rfl hplain
    have hactive : r'.activeTests = r.activeTests.erase id := by
      have := congrArg activeTests (endTest_ok hend)
      exact this
    have hsame : (∀ id' ∈ ids, (r.activeTests.lookup id').getD none ≠ none)
        ↔ ∀ id' ∈ ids, (r'.activeTests.lookup id').getD none ≠ none := by
      refine forall_congr' fun id' => forall_congr' fun hid' => ?_
      have hne : id' ≠ id := fun heq => hnot (heq ▸ hid')
      rw [hactive, Dict.lookup_erase_ite, if_neg hne]
    rw [hsame]
    exact ih hclocked' hnodup

theorem stopTestRun_agrees (hclocked : r.Clocked) (h : r.Knows before) :
    Agrees (∀ id, id ≠ "" → started id before ≠ some none) r.timed.stopTestRun
      r.untimed.stopTestRun := by
  have hactive : (∀ id, id ≠ "" → started id before ≠ some none)
      ↔ ∀ id ∈ r.activeTests.keyList, (r.activeTests.lookup id).getD none ≠ none := by
    constructor
    · intro hstarted id hid
      have hne : id ≠ "" := by
        rintro rfl
        simp [Dict.mem_keyList, h.nameless] at hid
      have := hstarted id hne
      rw [Dict.mem_keyList] at hid
      rw [h.active id hne] at hid ⊢
      rcases hs : started id before with _ | _ | start <;> simp_all
    · intro hkeys id hne hnone
      have hid : id ∈ r.activeTests.keyList := by
        rw [Dict.mem_keyList, h.active id hne, hnone]
        rfl
      exact hkeys id hid (by rw [h.active id hne, hnone]; rfl)
  rw [hactive]
  exact endTests_agree hclocked (Dict.nodup_keyList _)

/-- **`--times` lists what is listed without, or fails.** Without times a run raises at no events
whatever. With them it lists the same ids, in the same order, as far as it gets, and gets to the
end exactly if no event is shown as existing, every final status comes for a test that was
started when a time had come, and every test left open was started so. -/
theorem testRun_times_iff (r : TestIdPrintingResult) (es : List StatusEvent) :
    let plain := r.untimed.testRun es
    let shown := r.timed.testRun es
    (∃ r', plain.2 = .ok r')
    ∧ shown.1.map Line.untimed <+: plain.1
    ∧ ((∃ r', shown.2 = .ok r') → shown.1.map Line.untimed = plain.1)
    ∧ ((∃ r', shown.2 = .ok r') ↔ TellsAll r.showExists [] es
        ∧ ∀ id, id ≠ "" → started id es.reverse ≠ some none) := by
  intro plain shown
  have hclocked : r.startTestRun.Clocked := by
    intro id start hstart
    simp [startTestRun] at hstart
  have hrun : Agrees (TellsAll r.showExists [] es
      ∧ ∀ id, id ≠ "" → started id es.reverse ≠ some none) shown plain := by
    show Agrees _ (r.timed.testRun es) (r.untimed.testRun es)
    rw [testRun_eq, testRun_eq]
    refine (statuses_agree hclocked (knows_start r) es).andThen fun r' hclocked' hplain => ?_
    have hknows := (knows_untimed.mpr (knows_start r)).statuses hplain
    rw [List.append_nil] at hknows
    exact stopTestRun_agrees hclocked' (knows_untimed.mp hknows)
  clear_value plain shown
  cases hrun with
  | told htells => exact ⟨⟨_, rfl⟩, List.prefix_rfl, fun _ => rfl, iff_of_true ⟨_, rfl⟩ htells⟩
  | raises htells _ hshown =>
    have hraised : ∀ e, ¬ ∃ r', (Except.error e : Except Error TestIdPrintingResult) = .ok r' := by
      simp
    exact ⟨⟨_, rfl⟩, hshown, fun hok => absurd hok (hraised _),
      iff_of_false (hraised _) htells⟩

end TestIdPrintingResult

end Pysubunit.Results
