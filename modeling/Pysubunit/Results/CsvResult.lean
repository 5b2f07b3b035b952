/-
Pysubunit.Results.CsvResult — a table of the tests (`CsvResult` of `test_results.py`).

A `CsvResult` is a `TestByTestResult` whose `on_test` writes a row. What `test.id()` and the
`str` of a time give are the parameters `id` and `str`; the rows are written by `csv.writer`,
and what comes out of them is read by `csv.reader`.
-/
import Pysubunit.ByteLib.Csv
import Pysubunit.ByteLib.Sink
import Pysubunit.Results.TestByTestResult

namespace Pysubunit.Results

open ByteLib
open V1 (Error)

/-- A `TestByTestResult`, with what its stream was given. -/
structure CsvResult (Time : Type) extends TestByTestResult Time where
  stream : List Char := []

/-- The name of a status, nothing for `None`. -/
def Status.text : Option Status → String
  | none => ""
  | some .success => "success"
  | some .failure => "failure"
  | some .error => "error"
  | some .skip => "skip"
  | some .xfail => "xfail"

namespace CsvResult

variable {T Err Time : Type} (tt : Testtools T Err) (id : T → String) (str : Time → String)

/-- The row of `startTestRun`. -/
def header : Csv.Row :=
  ["test".toList, "status".toList, "start_time".toList, "stop_time".toList]

/-- `startTestRun` -/
def startTestRun (r : CsvResult Time) : CsvResult Time :=
  { r with stream := r.stream ++ Csv.writeRow header }

/-- The row of `_on_test`. -/
def row (report : OnTest T Time) : Csv.Row :=
  [(id report.test).toList, (Status.text report.status).toList, (str report.startTime).toList,
    (str report.stopTime).toList]

/-- A call; `_on_test` is called behind it. -/
def call : Sink (CsvResult Time) (Call T Err Time) Error := fun r call =>
  match r.toTestByTestResult.step tt call with
  | (told, .error e) => ({ toTestByTestResult := told, stream := r.stream }, some e)
  | (told, .ok reports) =>
    ({ toTestByTestResult := told
       stream := r.stream ++ Csv.write (reports.map (row id str)) }, none)

/-! ## Runs -/

/-- The outcome of the test can be told. -/
def told (b : Bracket T Err Time) : Bool := (tt.details b.test b.outcome).isOk

/-- The row of a test. -/
def testRow (b : Bracket T Err Time) : Csv.Row :=
  [(id b.test).toList, (Status.text (some b.outcome.status)).toList, (str b.startTime).toList,
    (str b.stopTime).toList]

variable {tt id str}

theorem call_tells {r : CsvResult Time} {c : Call T Err Time} {after : TestByTestResult Time}
    {reports : List (OnTest T Time)} (h : r.toTestByTestResult.step tt c = (after, .ok reports)) :
    call tt id str r c
      = (⟨after, r.stream ++ Csv.write (reports.map (row id str))⟩, none) := by
  rw [call, h]

theorem call_raises {r : CsvResult Time} {c : Call T Err Time} {after : TestByTestResult Time}
    {e : Error} (h : r.toTestByTestResult.step tt c = (after, .error e)) :
    call tt id str r c = (⟨after, r.stream⟩, some e) := by
  rw [call, h]

/-- **A test** adds its row, or raises and adds nothing. -/
theorem forEach_calls (r : CsvResult Time) (b : Bracket T Err Time) :
    ∃ r' : CsvResult Time, ∃ result, forEach (call tt id str) r b.calls = (r', result)
      ∧ if told tt b then result = none
          ∧ r'.stream = r.stream ++ Csv.writeRow (testRow id str b)
        else result ≠ none ∧ r'.stream = r.stream := by
  have hstart : call tt id str r (.startTest b.test b.startTime)
      = (⟨r.startTest b.startTime, r.stream⟩, none) := by
    have hstep : r.toTestByTestResult.step tt (.startTest b.test b.startTime)
        = (r.startTest b.startTime, .ok []) := rfl
    rw [call_tells hstep]
    simp
  rw [Bracket.calls, forEach_cons hstart]
  have hadd := add_eq tt (r.startTest b.startTime) b.test b.outcome
  cases hdetails : tt.details b.test b.outcome with
  | error e =>
    have houtcome : (r.startTest b.startTime).step tt (.outcome b.outcome b.test)
        = ({ r.startTest b.startTime with status := some b.outcome.status }, .error e) := by
      rw [TestByTestResult.step, hadd, hdetails]
      rfl
    rw [forEach_cons_raises (call_raises houtcome)]
    exact ⟨_, _, rfl, by simp [told, hdetails, Except.isOk, Except.toBool]⟩
  | ok details =>
    have houtcome : (r.startTest b.startTime).step tt (.outcome b.outcome b.test)
        = (⟨some b.startTime, some b.outcome.status, details, none⟩, .ok []) := by
      rw [TestByTestResult.step, hadd, hdetails]
      rfl
    have hstop : (⟨some b.startTime, some b.outcome.status, details, none⟩ :
          TestByTestResult Time).step tt (.stopTest b.test b.stopTime b.tags)
        = (afterBracket b details, .ok [b.report details]) := rfl
    rw [forEach_cons (call_tells houtcome), forEach_cons (call_tells hstop)]
    refine ⟨_, _, rfl, ?_⟩
    simp [told, hdetails, Except.isOk, Except.toBool, Csv.write_cons, row, Bracket.report, testRow]

theorem forEach_brackets (r : CsvResult Time) (tests : List (Bracket T Err Time)) :
    ∃ r' : CsvResult Time, ∃ result,
      forEach (call tt id str) r (tests.flatMap Bracket.calls) = (r', result)
        ∧ (result = none ↔ ∀ b ∈ tests, told tt b = true)
        ∧ r'.stream = r.stream ++ Csv.write ((tests.takeWhile (told tt)).map (testRow id str)) := by
  induction tests generalizing r with
  | nil => exact ⟨r, none, rfl, by simp, by simp⟩
  | cons b tests ih =>
    obtain ⟨r₁, result, hcalls, hfirst⟩ := @forEach_calls T Err Time tt id str r b
    rw [List.flatMap_cons, forEach_append, hcalls]
    by_cases htold : told tt b = true
    · rw [if_pos htold] at hfirst
      obtain ⟨rfl, hstream₁⟩ := hfirst
      obtain ⟨r', result, hrest, hresult, hstream⟩ := ih r₁
      refine ⟨r', result, hrest, by simp [hresult, htold], ?_⟩
      rw [hstream, hstream₁, List.takeWhile_cons_of_pos htold, List.map_cons,
        Csv.write_cons, List.append_assoc]
    · rw [if_neg htold] at hfirst
      obtain ⟨hraised, hstream⟩ := hfirst
      obtain ⟨e, rfl⟩ := Option.ne_none_iff_exists'.mp hraised
      refine ⟨r₁, some e, rfl, by simp [htold], ?_⟩
      rw [hstream, List.takeWhile_cons_of_neg htold]
      simp

/-- **The table has a row for each test**, with what it was given: for every run of tests, what is
written to the stream reads back, to the header and a row for each test up to the first whose
outcome cannot be told, however many commas, quotes and ends of lines the names hold; and nothing
raises unless there is such a test. -/
theorem read_run (tests : List (Bracket T Err Time)) :
    let run := forEach (call tt id str) (startTestRun {}) (tests.flatMap Bracket.calls)
    Csv.read run.1.stream
        = some (header :: (tests.takeWhile (told tt)).map (testRow id str))
    ∧ (run.2 = none ↔ ∀ b ∈ tests, told tt b = true) := by
  obtain ⟨r', result, hrun, hresult, hstream⟩ :=
    @forEach_brackets T Err Time tt id str (startTestRun {}) tests
  rw [hrun]
  refine ⟨?_, hresult⟩
  have htext : r'.stream
      = Csv.write (header :: (tests.takeWhile (told tt)).map (testRow id str)) := hstream
  rw [htext, Csv.read_write]

end CsvResult

end Pysubunit.Results
