/-
Pysubunit.Results.TestIdPrintingResult — the list that `subunit-ls` prints
(`TestIdPrintingResult` of `test_results.py`, as a `StreamResult`).

A test is active from its `inprogress` event until its final status; its entry
in `_active_tests` is the time it was put there. What becomes of one test is
told by its own events: `Track` follows one id, and `Follows.statuses` says that
the tests of a stream do not meet. A file event counts as a start here, so it
moves the start of a test that runs and starts again one that has ended.

A line holds the exact seconds, not the text that `%0.3f` makes of them: durations are
compared as they are before they are rounded.
-/
import Mathlib.Data.Rat.Defs
import Mathlib.Tactic.Ring
import Pysubunit.ByteLib.Dict
import Pysubunit.V1.Call
import Pysubunit.V2.Event

namespace Pysubunit.Results

open ByteLib
open V1 (Error)
open V2 (DateTime Timedelta TestStatus StatusEvent)

/-- What is written for a test: its id, and how long it took if that is asked for. -/
structure Line where
  testId : String
  seconds : Option ℚ
  deriving DecidableEq

/-- `later - earlier` -/
def elapsed (earlier later : DateTime) : Timedelta :=
  DateTime.sinceEpoch ⟨later.micros - earlier.micros⟩

/-- The attributes of a `TestIdPrintingResult` that its `status` uses. -/
structure TestIdPrintingResult where
  showTimes : Bool := false
  showExists : Bool := false
  time : Option DateTime := none
  activeTests : Dict String (Option DateTime) := ∅

/-- What a method has written, and the object behind it or what it raises. -/
abbrev Printed := List Line × Except Error TestIdPrintingResult

namespace TestIdPrintingResult

/-- `startTestRun` -/
def startTestRun (r : TestIdPrintingResult) : TestIdPrintingResult :=
  { r with time := none, activeTests := ∅ }

/-- `reportTest`; a duration is a `timedelta` or the number 0, which is `none`. The seconds
are kept as they are: that `' %0.3f'` adds them as a float and writes three places of it is
left out. -/
def reportTest (r : TestIdPrintingResult) (testId : String) (duration : Option Timedelta) :
    Printed :=
  if r.showTimes then
    match duration with
    | none => ([], .error (.attributeError "seconds"))
    | some duration =>
      let seconds : ℚ := duration.seconds + duration.days * 3600 * 24
        + duration.microseconds / 1000000
      ([⟨testId, some seconds⟩], .ok r)
  else ([⟨testId, none⟩], .ok r)

/-- `_end_test` -/
def endTest (r : TestIdPrintingResult) (testId : String) : Printed :=
  let popped := r.activeTests.extract testId
  let r := { r with activeTests := popped.2 }
  match popped.1.getD none with
  | none => r.reportTest testId none
  | some testStart =>
    match r.time with
    | none => ([], .error (.typeError (.text "unsupported operand type(s) for -")))
    | some now => r.reportTest testId (some (elapsed testStart now))

/-- `status` -/
def status (r : TestIdPrintingResult) (e : StatusEvent) : Printed :=
  match e.testId with
  | none => ([], .ok r)
  | some testId =>
    if testId = "" then ([], .ok r)
    else
      let r := match e.timestamp with
        | none => r
        | some timestamp => { r with time := some timestamp }
      match e.testStatus with
      | some .exists => if r.showExists then r.reportTest testId none else ([], .ok r)
      | some .inprogress | none =>
        ([], .ok { r with activeTests := r.activeTests.set testId r.time })
      | some _ => r.endTest testId

/-- A `status` call for each of the events. -/
def statuses (r : TestIdPrintingResult) : List StatusEvent → Printed
  | [] => ([], .ok r)
  | e :: es =>
    match r.status e with
    | (lines, .error err) => (lines, .error err)
    | (lines, .ok r') =>
      let rest := statuses r' es
      (lines ++ rest.1, rest.2)

/-- `_end_test` for each of the ids. -/
def endTests (r : TestIdPrintingResult) : List String → Printed
  | [] => ([], .ok r)
  | testId :: testIds =>
    match r.endTest testId with
    | (lines, .error err) => (lines, .error err)
    | (lines, .ok r') =>
      let rest := endTests r' testIds
      (lines ++ rest.1, rest.2)

/-- `stopTestRun` -/
def stopTestRun (r : TestIdPrintingResult) : Printed := r.endTests r.activeTests.keyList

/-- A whole run, from `startTestRun` to the end of `stopTestRun`. -/
def testRun (r : TestIdPrintingResult) (es : List StatusEvent) : Printed :=
  match r.startTestRun.statuses es with
  | (lines, .error err) => (lines, .error err)
  | (lines, .ok r') =>
    let rest := r'.stopTestRun
    (lines ++ rest.1, rest.2)

end TestIdPrintingResult

/-! ## The events of a test -/

/-- A status that ends a test. -/
def TestIdPrintingResult.Ends (e : StatusEvent) : Prop :=
  e.testStatus ∈ [some .success, some .fail, some .skip, some .xfail, some .uxsuccess]

instance (e : StatusEvent) : Decidable (TestIdPrintingResult.Ends e) :=
  inferInstanceAs (Decidable (e.testStatus ∈ [_, _, _, _, _]))

/-- An event with a test id and a time. -/
structure Stamped where
  event : StatusEvent
  id : String
  time : DateTime
  testId_eq : event.testId = some id
  timestamp_eq : event.timestamp = some time

namespace Stamped

/-- Its status ends a test. -/
def Ends (e : Stamped) : Prop := TestIdPrintingResult.Ends e.event

instance (e : Stamped) : Decidable e.Ends :=
  inferInstanceAs (Decidable (TestIdPrintingResult.Ends e.event))

/-- `inprogress` -/
def Starts (e : Stamped) : Prop := e.event.testStatus = some .inprogress

/-- An event without a status. -/
def IsFile (e : Stamped) : Prop := e.event.testStatus = none

end Stamped

/-- The events of one test. -/
structure Life where
  start : Stamped
  starts : start.Starts
  during : List Stamped
  during_file : ∀ e ∈ during, e.IsFile
  ended : Option Stamped
  ended_ends : ∀ e ∈ ended, e.Ends
  after : List Stamped
  after_file : ∀ e ∈ after, e.IsFile

/-- The events in their order. -/
def Life.events (l : Life) : List Stamped :=
  l.start :: l.during ++ (l.ended.toList ++ l.after)

/-- The events of an id. -/
def eventsOf (id : String) (es : List Stamped) : List Stamped := es.filter (·.id = id)

/-- The lines of an id. -/
def linesOf (id : String) (lines : List Line) : List Line := lines.filter (·.testId = id)

theorem linesOf_append (id : String) (lines lines' : List Line) :
    linesOf id (lines ++ lines') = linesOf id lines ++ linesOf id lines' :=
  List.filter_append lines lines'

/-- The seconds from one time to another. -/
def secondsBetween (earlier later : DateTime) : ℚ := (later.micros - earlier.micros) / 1000000

theorem seconds_elapsed (earlier later : DateTime) :
    ((elapsed earlier later).seconds : ℚ) + (elapsed earlier later).days * 3600 * 24
      + (elapsed earlier later).microseconds / 1000000 = secondsBetween earlier later := by
  have hmicros : ∀ n : Int,
      (n / 1000000 % 86400 + n / 86400000000 * 3600 * 24) * 1000000 + n % 1000000 = n := by
    intro n
    omega
  have hcast := congrArg (fun n : Int => (n : ℚ)) (hmicros (later.micros - earlier.micros))
  simp only [Int.cast_add, Int.cast_mul, Int.cast_sub, Int.cast_ofNat] at hcast
  simp only [elapsed, DateTime.sinceEpoch, secondsBetween]
  rw [← hcast]
  ring

/-! ## One id at a time -/

/-- What a run has done for an id: when its active test was started, and the seconds of its
lines. -/
structure Track where
  started : Option DateTime := none
  seconds : List ℚ := []

/-- One event of the id; an end needs a start. -/
def Track.step (k : Track) (e : Stamped) : Option Track :=
  if e.Ends then k.started.map fun start => ⟨none, k.seconds ++ [secondsBetween start e.time]⟩
  else some ⟨some e.time, k.seconds⟩

/-- The line of an id. -/
def line (id : String) (seconds : ℚ) : Line := ⟨id, some seconds⟩

namespace TestIdPrintingResult

/-- A printing result that shows times, with the tracks of its ids. -/
structure Follows (r : TestIdPrintingResult) (tracks : String → Track) : Prop where
  showTimes : r.showTimes = true
  active : ∀ id, r.activeTests.lookup id = (tracks id).started.map some
  clock : ∀ id, (tracks id).started ≠ none → r.time ≠ none

theorem status_starts {r : TestIdPrintingResult} {e : Stamped} (hid : e.id ≠ "")
    (h : e.Starts ∨ e.IsFile) :
    r.status e.event = ([], .ok { r with
      time := some e.time, activeTests := r.activeTests.set e.id (some e.time) }) := by
  rcases h with h | h
  · simp [status, e.testId_eq, hid, e.timestamp_eq, show e.event.testStatus = _ from h]
  · simp [status, e.testId_eq, hid, e.timestamp_eq, show e.event.testStatus = _ from h]

theorem endTest_started {r : TestIdPrintingResult} {id : String} {start now : DateTime}
    (hshow : r.showTimes = true) (hactive : r.activeTests.lookup id = some (some start))
    (htime : r.time = some now) :
    r.endTest id = ([line id (secondsBetween start now)],
      .ok { r with activeTests := r.activeTests.erase id }) := by
  simp [endTest, AList.extract_eq_lookup_erase, hactive, htime, reportTest, hshow, line,
    seconds_elapsed]

theorem status_ends {r : TestIdPrintingResult} {e : Stamped} {start : DateTime} (hid : e.id ≠ "")
    (h : e.Ends) (hshow : r.showTimes = true)
    (hactive : r.activeTests.lookup e.id = some (some start)) :
    r.status e.event = ([line e.id (secondsBetween start e.time)], .ok { r with
      time := some e.time, activeTests := r.activeTests.erase e.id }) := by
  have hend : r.status e.event = endTest { r with time := some e.time } e.id := by
    simp only [Stamped.Ends, TestIdPrintingResult.Ends, List.mem_cons, List.not_mem_nil, or_false] at h
    rcases h with h | h | h | h | h <;> simp [status, e.testId_eq, hid, e.timestamp_eq, h]
  rw [hend]
  exact endTest_started hshow hactive rfl

/-- The lines are what the tracks have got since. -/
def Told (tracks tracks' : String → Track) (lines : List Line) : Prop :=
  ∀ id, (tracks' id).seconds.map (line id)
    = (tracks id).seconds.map (line id) ++ linesOf id lines

theorem Told.trans {tracks tracks' tracks'' : String → Track} {lines lines' : List Line}
    (h : Told tracks tracks' lines) (h' : Told tracks' tracks'' lines') :
    Told tracks tracks'' (lines ++ lines') := by
  intro id
  rw [h' id, h id, linesOf_append, List.append_assoc]

/-- The track of one id goes on. -/
theorem told_update {tracks : String → Track} {id : String} {k : Track} {added : List ℚ}
    (h : k.seconds = (tracks id).seconds ++ added) :
    Told tracks (Function.update tracks id k) (added.map (line id)) := by
  intro id'
  by_cases hid : id' = id
  · subst hid
    have hlines : linesOf id' (added.map (line id')) = added.map (line id') := by
      simp [linesOf, line, List.filter_eq_self]
    simp [h, hlines]
  · have hlines : linesOf id' (added.map (line id)) = [] := by
      simp [linesOf, line, List.filter_eq_nil_iff, Ne.symm hid]
    simp [hid, hlines]

/-- **One event** does to its id what the track of the id does, and nothing to the others. -/
theorem Follows.status {r : TestIdPrintingResult} {tracks : String → Track} {e : Stamped}
    {k : Track} (h : r.Follows tracks) (hid : e.id ≠ "") (hkind : e.Starts ∨ e.IsFile ∨ e.Ends)
    (hk : (tracks e.id).step e = some k) :
    ∃ lines r', r.status e.event = (lines, .ok r') ∧ r'.Follows (Function.update tracks e.id k)
      ∧ Told tracks (Function.update tracks e.id k) lines := by
  by_cases hends : e.Ends
  · rw [Track.step, if_pos hends, Option.map_eq_some_iff] at hk
    obtain ⟨start, hstart, rfl⟩ := hk
    have hactive : r.activeTests.lookup e.id = some (some start) := by
      rw [h.active, hstart]
      rfl
    have htold := @told_update tracks e.id
      ⟨none, (tracks e.id).seconds ++ [secondsBetween start e.time]⟩ _ rfl
    refine ⟨_, _, status_ends hid hends h.showTimes hactive, ⟨h.showTimes, ?_, by simp⟩, htold⟩
    intro id
    rw [Dict.lookup_erase_ite, h.active]
    by_cases hid : id = e.id
    · simp [hid]
    · simp [hid]
  · rw [Track.step, if_neg hends] at hk
    cases hk
    have hstarts : e.Starts ∨ e.IsFile := hkind.imp_right fun h => h.resolve_right hends
    have htold := @told_update tracks e.id ⟨some e.time, (tracks e.id).seconds⟩ []
      (List.append_nil _).symm
    refine ⟨_, _, status_starts hid hstarts, ⟨h.showTimes, ?_, by simp⟩, htold⟩
    intro id
    rw [Dict.lookup_set, h.active]
    by_cases hid : id = e.id
    · simp [hid]
    · simp [hid]

/-- **Events** do to each id what its track does. -/
theorem Follows.statuses {r : TestIdPrintingResult} {tracks tracks' : String → Track}
    {es : List Stamped} (h : r.Follows tracks) (hid : ∀ e ∈ es, e.id ≠ "")
    (hkind : ∀ e ∈ es, e.Starts ∨ e.IsFile ∨ e.Ends)
    (htracks : ∀ id, (eventsOf id es).foldlM Track.step (tracks id) = some (tracks' id)) :
    ∃ lines r', r.statuses (es.map Stamped.event) = (lines, .ok r') ∧ r'.Follows tracks'
      ∧ Told tracks tracks' lines := by
  induction es generalizing r tracks with
  | nil =>
    have hsame : tracks = tracks' := funext fun id => Option.some.inj (htracks id)
    exact ⟨[], r, rfl, hsame ▸ h, fun id => by simp [hsame, linesOf]⟩
  | cons e es ih =>
    have hfirst := htracks e.id
    rw [eventsOf, List.filter_cons_of_pos (by simp), List.foldlM_cons,
      Option.bind_eq_bind, Option.bind_eq_some_iff] at hfirst
    obtain ⟨k, hk, hrest⟩ := hfirst
    obtain ⟨lines, r', hstatus, hfollows, htold⟩ :=
      h.status (hid e (by simp)) (hkind e (by simp)) hk
    have htracks' : ∀ id, (eventsOf id es).foldlM Track.step (Function.update tracks e.id k id)
        = some (tracks' id) := by
      intro id
      by_cases heq : id = e.id
      · subst heq
        rw [Function.update_self]
        exact hrest
      · have hskip := htracks id
        rw [eventsOf, List.filter_cons_of_neg (by simp [Ne.symm heq])] at hskip
        rw [Function.update_of_ne heq]
        exact hskip
    obtain ⟨lines', r'', hstatuses, hfollows', htold'⟩ :=
      ih hfollows (fun e he => hid e (by simp [he])) (fun e he => hkind e (by simp [he])) htracks'
    refine ⟨lines ++ lines', r'', ?_, hfollows', htold.trans htold'⟩
    simp only [List.map_cons, TestIdPrintingResult.statuses, hstatus, hstatuses]

/-- At the end every test that is active has one line. -/
theorem endTests_lines {r : TestIdPrintingResult} {ids : List String} {now : DateTime}
    (hshow : r.showTimes = true) (htime : r.time = some now)
    (hactive : ∀ id ∈ ids, ∃ start, r.activeTests.lookup id = some (some start))
    (hnodup : ids.Nodup) :
    ∃ seconds r', r.endTests ids = (ids.zipWith line seconds, .ok r')
      ∧ seconds.length = ids.length := by
  induction ids generalizing r with
  | nil => exact ⟨[], r, rfl, rfl⟩
  | cons id ids ih =>
    obtain ⟨start, hstart⟩ := hactive id (by simp)
    obtain ⟨hnot, hnodup⟩ := List.nodup_cons.mp hnodup
    have hrest : ∀ id' ∈ ids, ∃ start,
        (r.activeTests.erase id).lookup id' = some (some start) := by
      intro id' hid'
      obtain ⟨start', hstart'⟩ := hactive id' (by simp [hid'])
      have hne : id' ≠ id := fun heq => hnot (heq ▸ hid')
      exact ⟨start', by rw [Dict.lookup_erase_ite, if_neg hne, hstart']⟩
    obtain ⟨seconds, r', hends, hlen⟩ :=
      @ih { r with activeTests := r.activeTests.erase id } hshow htime hrest hnodup
    refine ⟨secondsBetween start now :: seconds, r', ?_, by simp [hlen]⟩
    simp only [endTests, endTest_started hshow hstart htime, hends, List.zipWith_cons_cons]
    rfl

theorem linesOf_zipWith (id : String) {ids : List String} {seconds : List ℚ}
    (hlen : seconds.length = ids.length) (hnodup : ids.Nodup) :
    ∃ left : List ℚ, linesOf id (ids.zipWith line seconds) = left.map (line id)
      ∧ left.length = if id ∈ ids then 1 else 0 := by
  induction ids generalizing seconds with
  | nil => exact ⟨[], by simp [linesOf], rfl⟩
  | cons id' ids ih =>
    obtain ⟨hnot, hnodup⟩ := List.nodup_cons.mp hnodup
    obtain ⟨s, seconds, rfl⟩ := List.exists_cons_of_length_eq_add_one hlen
    obtain ⟨left, hleft, hcount⟩ := @ih seconds (by simpa using hlen) hnodup
    rw [List.zipWith_cons_cons]
    by_cases hid : id = id'
    · subst hid
      rw [if_neg hnot] at hcount
      rw [List.length_eq_zero_iff.mp hcount] at hleft
      refine ⟨[s], ?_, by simp⟩
      rw [linesOf, List.filter_cons_of_pos (by simp [line])]
      exact congrArg _ hleft
    · refine ⟨left, ?_, by simp [hcount, hid]⟩
      rw [linesOf, List.filter_cons_of_neg (by simp [line, Ne.symm hid])]
      exact hleft

/-- **The end of the run** has one line for each id whose test is active. -/
theorem Follows.stopTestRun {r : TestIdPrintingResult} {tracks : String → Track}
    (h : r.Follows tracks) :
    ∃ lines r', r.stopTestRun = (lines, .ok r')
      ∧ ∀ id, ∃ left : List ℚ, linesOf id lines = left.map (line id)
        ∧ left.length = if (tracks id).started = none then 0 else 1 := by
  have hmem : ∀ id, id ∈ r.activeTests.keyList ↔ (tracks id).started ≠ none := by
    intro id
    rw [Dict.mem_keyList, h.active]
    simp [Option.isSome_iff_ne_none]
  have hactive : ∀ id ∈ r.activeTests.keyList, ∃ start,
      r.activeTests.lookup id = some (some start) := by
    intro id hid
    obtain ⟨start, hstart⟩ := Option.ne_none_iff_exists'.mp ((hmem id).mp hid)
    exact ⟨start, by rw [h.active, hstart]; rfl⟩
  have hends : ∃ seconds r', r.stopTestRun = (r.activeTests.keyList.zipWith line seconds, .ok r')
      ∧ seconds.length = r.activeTests.keyList.length := by
    cases hkeys : r.activeTests.keyList with
    | nil => exact ⟨[], r, by simp [TestIdPrintingResult.stopTestRun, hkeys, endTests], rfl⟩
    | cons id ids =>
      have hstarted := (hmem id).mp (by simp [hkeys])
      obtain ⟨now, htime⟩ := Option.ne_none_iff_exists'.mp (h.clock id hstarted)
      rw [← hkeys]
      exact endTests_lines h.showTimes htime hactive (Dict.nodup_keyList _)
  obtain ⟨seconds, r', hends, hlen⟩ := hends
  refine ⟨_, r', hends, fun id => ?_⟩
  obtain ⟨left, hleft, hcount⟩ := linesOf_zipWith id hlen (Dict.nodup_keyList _)
  refine ⟨left, hleft, hcount.trans ?_⟩
  simp only [hmem, ne_eq, ite_not]

/-- An event with an empty id is none. -/
theorem statuses_named (r : TestIdPrintingResult) (es : List Stamped) :
    r.statuses (es.map Stamped.event)
      = r.statuses ((es.filter fun e => e.id ≠ "").map Stamped.event) := by
  induction es generalizing r with
  | nil => rfl
  | cons e es ih =>
    by_cases hid : e.id = ""
    · have hstatus : r.status e.event = ([], .ok r) := by
        simp [status, e.testId_eq, hid]
      rw [List.filter_cons_of_neg (by simp [hid]), List.map_cons, statuses, hstatus]
      simp only [ih, List.nil_append]
    · rw [List.filter_cons_of_pos (by simp [hid]), List.map_cons, List.map_cons, statuses,
        statuses]
      cases r.status e.event with
      | mk lines result =>
        cases result with
        | error err => rfl
        | ok r' => simp only [ih]

/-- **A whole run** writes, for each id, what its track has and a line for a test that is left
active. -/
theorem testRun_lines {r : TestIdPrintingResult} (hshow : r.showTimes = true) {es : List Stamped}
    (hkind : ∀ e ∈ es, e.Starts ∨ e.IsFile ∨ e.Ends) {tracks : String → Track}
    (htracks : ∀ id, id ≠ "" → (eventsOf id es).foldlM Track.step {} = some (tracks id)) :
    ∃ lines r', r.testRun (es.map Stamped.event) = (lines, .ok r') ∧ linesOf "" lines = []
      ∧ ∀ id, id ≠ "" → ∃ left : List ℚ,
        linesOf id lines = ((tracks id).seconds ++ left).map (line id)
        ∧ left.length = if (tracks id).started = none then 0 else 1 := by
  have hstart : r.startTestRun.Follows fun _ => {} := by
    refine ⟨hshow, fun id => ?_, fun id h => absurd rfl h⟩
    exact AList.lookup_empty id
  have hnamed : ∀ id, (eventsOf id (es.filter fun e => e.id ≠ "")).foldlM Track.step {}
      = some (Function.update tracks "" {} id) := by
    intro id
    by_cases hid : id = ""
    · subst hid
      have hnil : eventsOf "" (es.filter fun e => e.id ≠ "") = [] := by
        simp [eventsOf, List.filter_filter]
      rw [hnil, Function.update_self]
      rfl
    · have hsame : eventsOf id (es.filter fun e => e.id ≠ "") = eventsOf id es := by
        rw [eventsOf, eventsOf, List.filter_filter]
        refine List.filter_congr fun e he => ?_
        by_cases heq : e.id = id
        · simp [heq, hid]
        · simp [heq]
      rw [hsame, Function.update_of_ne hid, htracks id hid]
  obtain ⟨lines, r', hstatuses, hfollows, htold⟩ := hstart.statuses
    (fun e he => by simpa using (List.mem_filter.mp he).2)
    (fun e he => hkind e (List.mem_filter.mp he).1) hnamed
  obtain ⟨lines', r'', hstop, hleft⟩ := hfollows.stopTestRun
  have hrun : r.testRun (es.map Stamped.event) = (lines ++ lines', .ok r'') := by
    simp only [testRun, statuses_named, hstatuses, hstop]
  refine ⟨lines ++ lines', r'', hrun, ?_, fun id hid => ?_⟩
  · obtain ⟨left, hlines, hcount⟩ := hleft ""
    rw [Function.update_self, if_pos rfl] at hcount
    rw [linesOf_append, hlines, List.length_eq_zero_iff.mp hcount]
    have hempty := htold ""
    rw [Function.update_self] at hempty
    simpa using hempty.symm
  · obtain ⟨left, hlines, hcount⟩ := hleft id
    rw [Function.update_of_ne hid] at hcount
    have htold := htold id
    rw [Function.update_of_ne hid] at htold
    refine ⟨left, ?_, hcount⟩
    rw [linesOf_append, hlines, List.map_append, htold]
    rfl

end TestIdPrintingResult

/-! ## The track of a life -/

theorem Stamped.IsFile.not_ends {e : Stamped} (h : e.IsFile) : ¬ e.Ends := by
  simp [Stamped.Ends, TestIdPrintingResult.Ends, show e.event.testStatus = _ from h]

theorem Stamped.Starts.not_ends {e : Stamped} (h : e.Starts) : ¬ e.Ends := by
  simp [Stamped.Ends, TestIdPrintingResult.Ends, show e.event.testStatus = _ from h]

theorem Stamped.Starts.not_file {e : Stamped} (h : e.Starts) : ¬ e.IsFile := by
  simp [Stamped.IsFile, show e.event.testStatus = _ from h]

/-- When a test was started, behind files. -/
def startAfter (started : Option DateTime) (files : List Stamped) : Option DateTime :=
  files.foldl (fun _ e => some e.time) started

theorem startAfter_eq_none {started : Option DateTime} {files : List Stamped} :
    startAfter started files = none ↔ started = none ∧ files = [] := by
  induction files generalizing started with
  | nil => simp [startAfter]
  | cons e files ih =>
    have hcons : startAfter started (e :: files) = startAfter (some e.time) files := rfl
    simp [hcons, ih]

/-- Behind files in the order of their times, a test has the last of them for its start. -/
theorem startAfter_some (start : DateTime) {files : List Stamped}
    (hsorted : files.Pairwise fun e e' => e.time.micros ≤ e'.time.micros) :
    ∃ last, startAfter (some start) files = some last
      ∧ (last = start ∨ ∃ e ∈ files, e.time = last)
      ∧ ∀ e ∈ files, e.time.micros ≤ last.micros := by
  induction files generalizing start with
  | nil => exact ⟨start, rfl, .inl rfl, by simp⟩
  | cons e files ih =>
    obtain ⟨he, hsorted⟩ := List.pairwise_cons.mp hsorted
    obtain ⟨last, hlast, hfrom, hle⟩ := ih e.time hsorted
    refine ⟨last, hlast, .inr ?_, ?_⟩
    · rcases hfrom with hfrom | ⟨e', he', hfrom⟩
      · exact ⟨e, by simp, hfrom.symm⟩
      · exact ⟨e', by simp [he'], hfrom⟩
    · intro e' he'
      rcases List.mem_cons.mp he' with rfl | he'
      · rcases hfrom with rfl | ⟨e'', he'', rfl⟩
        · exact le_refl _
        · exact he e'' he''
      · exact hle e' he'

/-- Behind files that are not earlier, a test has its own start exactly if they have the same
time. -/
theorem startAfter_same {start last : DateTime} {files : List Stamped}
    (hsorted : files.Pairwise fun e e' => e.time.micros ≤ e'.time.micros)
    (hstart : ∀ e ∈ files, start.micros ≤ e.time.micros)
    (hlast : startAfter (some start) files = some last) :
    last = start ↔ ∀ e ∈ files, e.time = start := by
  obtain ⟨last', hlast', hfrom, hle⟩ := startAfter_some start hsorted
  cases hlast.symm.trans hlast'
  constructor
  · rintro rfl e he
    have heq : e.time.micros = last.micros := le_antisymm (hle e he) (hstart e he)
    cases htime : e.time
    cases last
    rw [htime] at heq
    exact congrArg _ heq
  · intro h
    rcases hfrom with hfrom | ⟨e, he, rfl⟩
    · exact hfrom
    · exact h e he

theorem files_track (k : Track) {files : List Stamped} (h : ∀ e ∈ files, e.IsFile) :
    files.foldlM Track.step k = some ⟨startAfter k.started files, k.seconds⟩ := by
  induction files generalizing k with
  | nil => rfl
  | cons e files ih =>
    have hstep : k.step e = some ⟨some e.time, k.seconds⟩ := by
      rw [Track.step, if_neg (h e (by simp)).not_ends]
    rw [List.foldlM_cons, hstep]
    exact ih _ fun e he => h e (by simp [he])

namespace Life

variable (l : Life)

/-- The track up to the final status. -/
theorem track_during :
    (l.start :: l.during).foldlM Track.step {}
      = some ⟨startAfter (some l.start.time) l.during, []⟩ := by
  have hstep : Track.step {} l.start = some ⟨some l.start.time, []⟩ := by
    rw [Track.step, if_neg l.starts.not_ends]
  rw [List.foldlM_cons, hstep]
  exact files_track _ l.during_file

/-- A test without a final status is left active. -/
theorem track_open (h : l.ended = none) :
    ∃ start, l.events.foldlM Track.step {} = some ⟨some start, []⟩ := by
  have htrack : l.events.foldlM Track.step {}
      = some ⟨startAfter (startAfter (some l.start.time) l.during) l.after, []⟩ := by
    rw [events, List.foldlM_append, l.track_during, h]
    exact files_track _ l.after_file
  have hne : startAfter (startAfter (some l.start.time) l.during) l.after ≠ none := by
    simp [startAfter_eq_none]
  obtain ⟨start, hstart⟩ := Option.ne_none_iff_exists'.mp hne
  exact ⟨start, by rw [htrack, hstart]⟩

/-- A test with a final status has a line for it, and is active again behind a file. -/
theorem track_ended {f : Stamped} (h : l.ended = some f) {last : DateTime}
    (hlast : startAfter (some l.start.time) l.during = some last) :
    l.events.foldlM Track.step {}
      = some ⟨startAfter none l.after, [secondsBetween last f.time]⟩ := by
  have hstep : Track.step ⟨some last, []⟩ f = some ⟨none, [secondsBetween last f.time]⟩ := by
    rw [Track.step, if_pos (l.ended_ends f (by simp [h]))]
    rfl
  rw [events, List.foldlM_append, l.track_during, hlast, h, Option.toList_some,
    List.singleton_append]
  show (f :: l.after).foldlM Track.step ⟨some last, []⟩ = _
  rw [List.foldlM_cons, hstep]
  exact files_track _ l.after_file

/-- What an event of the life may be. -/
theorem mem_events {e : Stamped} (h : e ∈ l.events) :
    e = l.start ∨ e.IsFile ∨ l.ended = some e := by
  simp only [events, List.cons_append, List.mem_cons, List.mem_append, Option.mem_toList] at h
  rcases h with h | h | h | h
  · exact .inl h
  · exact .inr (.inl (l.during_file e h))
  · exact .inr (.inr h)
  · exact .inr (.inl (l.after_file e h))

theorem eq_start {e : Stamped} (h : e ∈ l.events) (hstarts : e.Starts) : e = l.start := by
  rcases l.mem_events h with h | h | h
  · exact h
  · exact absurd h hstarts.not_file
  · exact absurd (l.ended_ends e (by simp [h])) hstarts.not_ends

theorem eq_ended {e : Stamped} (h : e ∈ l.events) (hends : e.Ends) : l.ended = some e := by
  rcases l.mem_events h with h | h | h
  · exact absurd (h ▸ hends) l.starts.not_ends
  · exact absurd hends h.not_ends
  · exact h

/-- What a test needs to be listed right: no files behind its final status, and none before it
that are later than its start. -/
def Settled : Prop :=
  ∀ f, l.ended = some f → l.after = [] ∧ ∀ e ∈ l.during, e.time = l.start.time

variable {l}

/-- The events of a life tell whether it is settled. -/
theorem settled_of_events {l' : Life} (h : l.events = l'.events) (h' : l'.Settled) :
    l.Settled := by
  intro f hf
  have hends := l.ended_ends f (by simp [hf])
  have hf' : l'.ended = some f :=
    l'.eq_ended (h ▸ (by simp [events, hf] : f ∈ l.events)) hends
  obtain ⟨hafter', hduring'⟩ := h' f hf'
  have hlist : (l.start :: l.during) ++ f :: l.after = (l'.start :: l'.during) ++ [f] := by
    simpa [events, hf, hf', hafter'] using h
  rcases List.eq_nil_or_concat l.after with hafter | ⟨files, e, hafter⟩
  · rw [hafter] at hlist
    obtain ⟨hstart, hduring⟩ := List.cons.inj (List.append_inj_left' hlist rfl)
    rw [hstart, hduring]
    exact ⟨hafter, hduring'⟩
  · -- the last event would be both
    rw [hafter, List.concat_eq_append, ← List.cons_append, ← List.append_assoc] at hlist
    have hlast : e = f := by simpa using (List.append_inj' hlist rfl).2
    exact absurd (hlast ▸ hends) (l.after_file e (by simp [hafter])).not_ends

end Life

/-! ## One line a test -/

/-- An id has one line; if its test has a final status, with the time from its start to that. -/
def ListedOnce (es : List Stamped) (lines : List Line) (id : String) : Prop :=
  ∃ seconds, linesOf id lines = [line id seconds]
    ∧ ∀ s ∈ es, ∀ f ∈ es, s.id = id → f.id = id → s.Starts → f.Ends →
      seconds = secondsBetween s.time f.time

/-- A run lists its tests: nothing raises, and each id, and no other, has one line. -/
def Listed (r : TestIdPrintingResult) (es : List Stamped) : Prop :=
  ∃ lines r', r.testRun (es.map Stamped.event) = (lines, .ok r')
    ∧ (∀ l ∈ lines, l.testId ∈ es.map Stamped.id)
    ∧ ∀ id ∈ es.map Stamped.id, ListedOnce es lines id

theorem mem_eventsOf {id : String} {es : List Stamped} {e : Stamped} :
    e ∈ eventsOf id es ↔ e ∈ es ∧ e.id = id := by
  simp [eventsOf]

theorem line_inj {id : String} {s s' : ℚ} (h : line id s = line id s') : s = s' :=
  Option.some.inj (congrArg Line.seconds h)

theorem secondsBetween_inj {s s' f : DateTime} :
    secondsBetween s f = secondsBetween s' f ↔ s = s' := by
  constructor
  · intro h
    have hmicros : s.micros = s'.micros := by
      have hdiv : (f.micros - s.micros : ℚ) = f.micros - s'.micros := by
        simpa [secondsBetween] using h
      have hcast : (s.micros : ℚ) = s'.micros := sub_right_injective hdiv
      exact_mod_cast hcast
    cases s
    exact congrArg _ hmicros
  · rintro rfl
    rfl

/-- A test without a final status is listed once. -/
theorem listedOnce_open {es : List Stamped} {lines : List Line} {id : String} {l : Life}
    {left : List ℚ} (hl : eventsOf id es = l.events) (h : l.ended = none)
    (hlines : linesOf id lines = left.map (line id)) (hleft : left.length = 1) :
    ListedOnce es lines id := by
  obtain ⟨seconds, rfl⟩ := List.length_eq_one_iff.mp hleft
  refine ⟨seconds, hlines, fun s _ f hf _ hid _ hends => ?_⟩
  have hmem : f ∈ l.events := hl ▸ mem_eventsOf.mpr ⟨hf, hid⟩
  rw [l.eq_ended hmem hends] at h
  cases h

/-- A test with a final status is listed once, and right, exactly if it is settled. -/
theorem listedOnce_ended {es : List Stamped} {lines : List Line} {id : String} {l : Life}
    {f : Stamped} {last : DateTime} {left : List ℚ} (hl : eventsOf id es = l.events)
    (hf : l.ended = some f) (hlast : last = l.start.time ↔ ∀ e ∈ l.during, e.time = l.start.time)
    (hlines : linesOf id lines = (secondsBetween last f.time :: left).map (line id))
    (hleft : left = [] ↔ l.after = []) : ListedOnce es lines id ↔ l.Settled := by
  have hmem : l.start ∈ eventsOf id es ∧ f ∈ eventsOf id es := by
    rw [hl]
    simp [Life.events, hf]
  obtain ⟨hstart, hstartId⟩ := mem_eventsOf.mp hmem.1
  obtain ⟨hfinal, hfinalId⟩ := mem_eventsOf.mp hmem.2
  constructor
  · rintro ⟨seconds, hone, htimes⟩ f' hf'
    rw [hlines, List.map_cons, List.cons.injEq, List.map_eq_nil_iff] at hone
    obtain ⟨hseconds, hnil⟩ := hone
    refine ⟨hleft.mp hnil, hlast.mp (secondsBetween_inj.mp ((line_inj hseconds).trans ?_))⟩
    exact htimes _ hstart f hfinal hstartId hfinalId l.starts (l.ended_ends f (by simp [hf]))
  · intro hsettled
    obtain ⟨hafter, hduring⟩ := hsettled f hf
    refine ⟨secondsBetween last f.time, ?_, fun s hs f' hf' hid hid' hstarts hends => ?_⟩
    · rw [hlines, hleft.mpr hafter]
      rfl
    · have hs : s ∈ l.events := hl ▸ mem_eventsOf.mpr ⟨hs, hid⟩
      have hf' : f' ∈ l.events := hl ▸ mem_eventsOf.mpr ⟨hf', hid'⟩
      have heq := (l.eq_ended hf' hends).symm.trans hf
      cases heq
      rw [l.eq_start hs hstarts, hlast.mpr hduring]

/-- An id has a track, and it is listed by it exactly if its test is settled. -/
theorem listedOnce_track {es : List Stamped} {id : String} {l : Life}
    (hsorted : es.Pairwise fun e e' => e.time.micros ≤ e'.time.micros)
    (hl : eventsOf id es = l.events) :
    ∃ track, (eventsOf id es).foldlM Track.step {} = some track
      ∧ ∀ lines, ∀ left : List ℚ, linesOf id lines = (track.seconds ++ left).map (line id) →
        (left.length = if track.started = none then 0 else 1) →
          (ListedOnce es lines id ↔ l.Settled) := by
  cases h : l.ended with
  | none =>
    obtain ⟨start, htrack⟩ := l.track_open h
    refine ⟨_, hl ▸ htrack, fun lines left hlines hleft => ?_⟩
    have hsettled : l.Settled := by
      intro f hf
      rw [h] at hf
      cases hf
    exact iff_of_true (listedOnce_open hl h hlines (by simpa using hleft)) hsettled
  | some f =>
    have hevents : l.events.Pairwise fun e e' => e.time.micros ≤ e'.time.micros :=
      hl ▸ hsorted.filter _
    obtain ⟨hstart, hduring⟩ := List.pairwise_cons.mp (List.pairwise_append.mp hevents).1
    obtain ⟨last, hlast, -⟩ := startAfter_some l.start.time hduring
    refine ⟨_, hl ▸ l.track_ended h hlast, fun lines left hlines hleft => ?_⟩
    have hnil : left = [] ↔ l.after = [] := by
      rw [← List.length_eq_zero_iff, hleft]
      simp [startAfter_eq_none]
    exact listedOnce_ended hl h (startAfter_same hduring hstart hlast) hlines hnil

theorem eventsOf_eq_nil {id : String} {es : List Stamped} (h : id ∉ es.map Stamped.id) :
    eventsOf id es = [] := by
  rw [eventsOf, List.filter_eq_nil_iff]
  intro e he heq
  exact h (List.mem_map.mpr ⟨e, he, by simpa using heq⟩)

section

variable {r : TestIdPrintingResult} {es : List Stamped}

/-- The events of lives are starts, files and ends. -/
theorem kind_of_lives (hlives : ∀ id ∈ es.map Stamped.id, ∃ l : Life, eventsOf id es = l.events) :
    ∀ e ∈ es, e.Starts ∨ e.IsFile ∨ e.Ends := by
  intro e he
  obtain ⟨l, hl⟩ := hlives e.id (List.mem_map_of_mem he)
  rcases l.mem_events (hl ▸ mem_eventsOf.mpr ⟨he, rfl⟩) with h | h | h
  · exact .inl (h ▸ l.starts)
  · exact .inr (.inl h)
  · exact .inr (.inr (l.ended_ends e (by simp [h])))

/-- **A run** raises nothing, and has lines only for the ids of its events. The empty id has none;
any other is listed right exactly if its test is settled. -/
theorem testRun_listed (hshow : r.showTimes = true)
    (hsorted : es.Pairwise fun e e' => e.time.micros ≤ e'.time.micros)
    (hlives : ∀ id ∈ es.map Stamped.id, ∃ l : Life, eventsOf id es = l.events) :
    ∃ lines r', r.testRun (es.map Stamped.event) = (lines, .ok r')
      ∧ linesOf "" lines = [] ∧ (∀ l ∈ lines, l.testId ∈ es.map Stamped.id)
      ∧ ∀ id, id ≠ "" → ∀ l : Life, eventsOf id es = l.events →
        (ListedOnce es lines id ↔ l.Settled) := by
  have htrack : ∀ id, ∃ track, (eventsOf id es).foldlM Track.step {} = some track := by
    intro id
    by_cases hid : id ∈ es.map Stamped.id
    · obtain ⟨l, hl⟩ := hlives id hid
      obtain ⟨track, htrack, -⟩ := listedOnce_track hsorted hl
      exact ⟨track, htrack⟩
    · exact ⟨{}, by rw [eventsOf_eq_nil hid]; rfl⟩
  choose tracks htracks using htrack
  obtain ⟨lines, r', hrun, hempty, hlines⟩ :=
    TestIdPrintingResult.testRun_lines hshow (kind_of_lives hlives) fun id _ => htracks id
  refine ⟨lines, r', hrun, hempty, fun l hl => ?_, fun id hid l hl => ?_⟩
  · -- an id without events has no line
    by_contra hid
    have hmem : l ∈ linesOf l.testId lines := List.mem_filter.mpr ⟨hl, by simp⟩
    have hnone : linesOf l.testId lines = [] := by
      by_cases hname : l.testId = ""
      · rw [hname, hempty]
      · obtain ⟨left, hleft, hcount⟩ := hlines l.testId hname
        have htrack := htracks l.testId
        rw [eventsOf_eq_nil hid] at htrack
        rw [← Option.some.inj htrack, if_pos rfl] at hcount
        rw [hleft, ← Option.some.inj htrack, List.length_eq_zero_iff.mp hcount]
        rfl
    rw [hnone] at hmem
    cases hmem
  · obtain ⟨track, htrack, hiff⟩ := listedOnce_track hsorted hl
    obtain ⟨left, hleft, hcount⟩ := hlines id hid
    cases htrack.symm.trans (htracks id)
    exact hiff lines left hleft hcount

end

/-- **The list has one line a test**, with the time it took, exactly when no id is empty and
every test that has a final status is settled. -/
theorem listed_iff {r : TestIdPrintingResult} (hshow : r.showTimes = true) {es : List Stamped}
    (hsorted : es.Pairwise fun e e' => e.time.micros ≤ e'.time.micros)
    (hlives : ∀ id ∈ es.map Stamped.id, ∃ l : Life, eventsOf id es = l.events) :
    Listed r es ↔ (∀ e ∈ es, e.id ≠ "")
      ∧ ∀ id ∈ es.map Stamped.id, ∀ l : Life, eventsOf id es = l.events → l.Settled := by
  obtain ⟨lines, r', hrun, hempty, hids, honce⟩ := testRun_listed hshow hsorted hlives
  constructor
  · rintro ⟨lines', r'', hrun', -, hall⟩
    cases hrun.symm.trans hrun'
    have hnames : ∀ e ∈ es, e.id ≠ "" := by
      intro e he hid
      obtain ⟨seconds, hone, -⟩ := hall e.id (List.mem_map_of_mem he)
      rw [hid, hempty] at hone
      cases hone
    refine ⟨hnames, fun id hid l hl => ?_⟩
    obtain ⟨e, he, rfl⟩ := List.mem_map.mp hid
    exact (honce e.id (hnames e he) l hl).mp (hall e.id hid)
  · rintro ⟨hnames, hsettled⟩
    refine ⟨lines, r', hrun, hids, fun id hid => ?_⟩
    obtain ⟨e, he, rfl⟩ := List.mem_map.mp hid
    obtain ⟨l, hl⟩ := hlives e.id hid
    exact (honce e.id (hnames e he) l hl).mpr (hsettled e.id hid l hl)

/-- An event of a test, so many seconds behind `EPOCH`. -/
def Stamped.at (id : String) (testStatus : Option TestStatus) (second : Int) : Stamped where
  event := { testId := some id, testStatus := testStatus, timestamp := some ⟨second * 1000000⟩ }
  id := id
  time := ⟨second * 1000000⟩
  testId_eq := rfl
  timestamp_eq := rfl

@[simp] theorem Stamped.at_id (id : String) (testStatus : Option TestStatus) (second : Int) :
    (Stamped.at id testStatus second).id = id := rfl

/-- A test that starts, has files, and succeeds. -/
def succeeds (id : String) (start : Int) (during : List Int) (final : Int) (after : List Int) :
    Life where
  start := .at id (some .inprogress) start
  starts := rfl
  during := during.map (.at id none)
  during_file := by
    intro e he
    obtain ⟨second, -, rfl⟩ := List.mem_map.mp he
    rfl
  ended := some (.at id (some .success) final)
  ended_ends := by
    rintro e ⟨⟩
    simp [Stamped.Ends, TestIdPrintingResult.Ends, Stamped.at]
  after := after.map (.at id none)
  after_file := by
    intro e he
    obtain ⟨second, -, rfl⟩ := List.mem_map.mp he
    rfl

/-- Two tests that overlap. -/
def overlapping : List Stamped :=
  [.at "a" (some .inprogress) 0, .at "b" (some .inprogress) 1, .at "b" none 1,
    .at "a" (some .success) 2, .at "b" (some .success) 3]

theorem overlapping_lives : ∀ id ∈ overlapping.map Stamped.id,
    ∃ l : Life, l.Settled ∧ eventsOf id overlapping = l.events := by
  have ha : ∃ l : Life, l.Settled ∧ eventsOf "a" overlapping = l.events :=
    ⟨succeeds "a" 0 [] 2 [], by simp [Life.Settled, succeeds],
      by simp [overlapping, eventsOf, Life.events, succeeds]⟩
  have hb : ∃ l : Life, l.Settled ∧ eventsOf "b" overlapping = l.events :=
    ⟨succeeds "b" 1 [1] 3 [], by simp [Life.Settled, succeeds, Stamped.at],
      by simp [overlapping, eventsOf, Life.events, succeeds]⟩
  have hids : overlapping.map Stamped.id = ["a", "b", "b", "a", "b"] := rfl
  rw [hids]
  simp [ha, hb]

theorem listed_overlapping : Listed { showTimes := true } overlapping := by
  have hsorted : overlapping.Pairwise fun e e' => e.time.micros ≤ e'.time.micros := by decide
  have hlives : ∀ id ∈ overlapping.map Stamped.id,
      ∃ l : Life, eventsOf id overlapping = l.events := by
    intro id hid
    obtain ⟨l, -, hl⟩ := overlapping_lives id hid
    exact ⟨l, hl⟩
  refine (listed_iff rfl hsorted hlives).mpr ⟨by simp [overlapping], fun id hid l hl => ?_⟩
  obtain ⟨l', hsettled, hl'⟩ := overlapping_lives id hid
  exact Life.settled_of_events (hl.symm.trans hl') hsettled

/-- A file while a test runs takes the time before it off. -/
theorem file_moves_start :
    let es := (succeeds "a" 0 [1] 3 []).events
    (es.Pairwise fun e e' => e.time.micros ≤ e'.time.micros)
      ∧ (∀ id ∈ es.map Stamped.id, ∃ l : Life, eventsOf id es = l.events)
      ∧ ¬ Listed { showTimes := true } es := by
  intro es
  refine ⟨by decide, ?_, ?_⟩
  · intro id hid
    have ha : id = "a" := by simpa [es, Life.events, succeeds] using hid
    subst ha
    exact ⟨succeeds "a" 0 [1] 3 [], by simp [es, eventsOf, Life.events, succeeds]⟩
  · rintro ⟨lines, r', hrun, -, honce⟩
    have hlines : (TestIdPrintingResult.testRun { showTimes := true }
        (es.map Stamped.event)).1 = [line "a" 2] := by decide +kernel
    rw [hrun] at hlines
    obtain ⟨seconds, hone, htime⟩ := honce "a" (by simp [es, Life.events, succeeds])
    have hseconds : seconds = 2 := by
      rw [show lines = [line "a" 2] from hlines] at hone
      simpa [linesOf, line] using hone.symm
    have hthree := htime (.at "a" (some .inprogress) 0) (by simp [es, Life.events, succeeds])
      (.at "a" (some .success) 3) (by simp [es, Life.events, succeeds]) rfl rfl rfl
      (by simp [Stamped.Ends, TestIdPrintingResult.Ends, Stamped.at])
    rw [hseconds] at hthree
    exact absurd hthree (by decide +kernel)

end Pysubunit.Results
