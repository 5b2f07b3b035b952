/-
Pysubunit.Tap.NumberTheorems — the numbers of the tests of a script.

A result line takes the next number, or the one that it gives if this is not
behind the next one (`assigned`). The tests that are emitted are then numbered
from 1 without a gap, whatever the lines give, and the tests that are reported
missing are those whose number no line has taken (`tap2SubUnit_numbers`).

A test is emitted one result line late. The induction runs over the lines with a
test that is held back in front (`tests_events`).
-/
import Pysubunit.Tap.RunTheorems

namespace Pysubunit.Tap

open V2 (StatusEvent TestStatus PartialWrites OutputStream byteByByte)

/-! ## Readings -/

/-- What the lines of a script are taken for. -/
def readings : Stage → List (List Char) → List Reading
  | _, [] => []
  | state, line :: tap => readLine state line :: readings ((readLine state line).next state) tap

/-- The groups of a result line. -/
def Reading.resultLine : Reading → Option ResultLine
  | .result groups => some groups
  | _ => none

/-- The bound of a plan. -/
def Reading.bound : Reading → Option Nat
  | .plan planStop _ => some (intOfDigits planStop)
  | _ => none

/-- The result lines of a script. -/
def resultLines (tap : List (List Char)) : List ResultLine :=
  (readings .beforePlan tap).filterMap Reading.resultLine

/-- The bound of the plan of a script, or 0. -/
def planBound (tap : List (List Char)) : Nat :=
  ((readings .beforePlan tap).findSome? Reading.bound).getD 0

/-- The result lines with the numbers that they are assigned to. -/
def assigned : Nat → List ResultLine → List (Nat × ResultLine)
  | _, [] => []
  | next, groups :: rest =>
    (max next groups.givenNumber, groups) :: assigned (max next groups.givenNumber + 1) rest

/-- Behind the first stage there is no bound. -/
theorem findSome_bound_eq_none {state : Stage} (h : state ≠ .beforePlan) (tap : List (List Char)) :
    (readings state tap).findSome? Reading.bound = none := by
  induction tap generalizing state with
  | nil => rfl
  | cons line tap ih =>
    have hline : (readLine state line).bound = none := by
      cases hread : readLine state line with
      | plan planStop comment => exact absurd hread (readLine_ne_plan h line planStop comment)
      | result groups => rfl
      | bailOut reason => rfl
      | comment => rfl
      | other => rfl
    rw [readings, List.findSome?_cons, hline]
    exact ih (next_ne_beforePlan h _)

/-! ## Tests -/

/-- The number in a name `test k...`. -/
def numberOf (testId : String) : Option Nat := do
  let rest ← "test ".toList.isPrefixOf? testId.toList
  let digits := rest.takeWhile Char.isDigit
  let description := rest.dropWhile Char.isDigit
  if digits ≠ [] ∧ (description = [] ∨ description.head? = some ' ') then
    some (Nat.ofDigitChars 10 digits 0)
  else none

/-- A numbered test. -/
structure Test where
  number : Nat
  testId : Option String
  testStatus : Option TestStatus
  /-- It is reported as `test missing from TAP output`. -/
  missing : Bool
  deriving DecidableEq

/-- The test of an event. -/
def testOf (e : StatusEvent) : Option Test :=
  (e.testId.bind numberOf).map fun number =>
    { number, testId := e.testId, testStatus := e.testStatus, missing := e = missingTest number }

/-- The numbered tests of a run. -/
def tests (events : List StatusEvent) : List Test := events.filterMap testOf

theorem tests_append (xs ys : List StatusEvent) : tests (xs ++ ys) = tests xs ++ tests ys :=
  List.filterMap_append

/-- A test that is reported missing. -/
def missingRow (number : Nat) : Test where
  number := number
  testId := (missingTest number).testId
  testStatus := (missingTest number).testStatus
  missing := true

/-- The test of a result line. -/
def lineRow (line : Nat × ResultLine) : Test where
  number := line.1
  testId := some (numberedName line.1 line.2.suffix)
  testStatus := some line.2.testStatus
  missing := false

theorem numberOf_numberedName (number : Nat) {description : List Char}
    (h : description = [] ∨ description.head? = some ' ') :
    numberOf (numberedName number description) = some number := by
  have hdigits : ∀ c ∈ Nat.toDigits 10 number, c.isDigit = true := fun c hc =>
    Nat.isDigit_of_mem_toDigits (by omega) (by omega) hc
  have hlist : (numberedName number description).toList
      = "test ".toList ++ (Nat.toDigits 10 number ++ description) := by
    simp [numberedName]
  have hbegins : "test ".toList.isPrefixOf? (numberedName number description).toList
      = some (Nat.toDigits 10 number ++ description) := by
    rw [hlist]
    simp [List.isPrefixOf?]
  have hsplit : description.takeWhile Char.isDigit = []
      ∧ description.dropWhile Char.isDigit = description := by
    cases description with
    | nil => exact ⟨rfl, rfl⟩
    | cons c description =>
      have hc : c = ' ' := by simpa using h
      rw [hc]
      exact ⟨rfl, rfl⟩
  have htake : (Nat.toDigits 10 number ++ description).takeWhile Char.isDigit
      = Nat.toDigits 10 number := by
    rw [List.takeWhile_append_of_pos hdigits, hsplit.1, List.append_nil]
  have hdrop : (Nat.toDigits 10 number ++ description).dropWhile Char.isDigit = description := by
    rw [List.dropWhile_append_of_pos hdigits, hsplit.2]
  unfold numberOf
  rw [hbegins, Option.bind_eq_bind, Option.bind_some]
  dsimp only
  rw [htake, hdrop, if_pos ⟨Nat.toDigits_ne_nil, h⟩, Nat.ofDigitChars_ten_toDigits]

/-- The suffix of a name is empty or stands off. -/
theorem ResultLine.suffix_head (groups : ResultLine) :
    groups.suffix = [] ∨ groups.suffix.head? = some ' ' := by
  unfold suffix
  split
  · exact Or.inl rfl
  · exact Or.inr rfl

@[simp] theorem testOf_missingTest (number : Nat) :
    testOf (missingTest number) = some (missingRow number) := by
  have hnumber : numberOf (numberedName number []) = some number :=
    numberOf_numberedName number (Or.inl rfl)
  simp [testOf, missingTest, missingRow, hnumber]

theorem tests_missingTests (planStart stop : Nat) :
    tests (missingTests planStart stop) = (List.range' planStart (stop - planStart)).map missingRow := by
  unfold tests missingTests
  rw [List.filterMap_map]
  have hrow : testOf ∘ missingTest = some ∘ missingRow := funext testOf_missingTest
  rw [hrow, List.filterMap_eq_map]

/-- An event with a log is none of the missing ones. -/
theorem testEvent_ne_missingTest (testName : String) (result : Option TestStatus)
    (log : List (List Char)) (number : Nat) : testEvent testName result log ≠ missingTest number := by
  intro h
  have hname := congrArg StatusEvent.fileName h
  unfold testEvent at hname
  split at hname
  · simp [missingTest] at hname
  · simp [missingTest] at hname

/-- The number and the name of the test do not depend on its log. -/
theorem testOf_testEvent (testName : String) (result : Option TestStatus)
    (log : List (List Char)) :
    testOf (testEvent testName result log)
      = (numberOf testName).map fun number =>
          { number, testId := some testName, testStatus := result, missing := false } := by
  have hfields : (testEvent testName result log).testId = some testName
      ∧ (testEvent testName result log).testStatus = result := by
    unfold testEvent
    split
    · exact ⟨rfl, rfl⟩
    · exact ⟨rfl, rfl⟩
  unfold testOf
  rw [hfields.1, hfields.2, Option.bind_some]
  simp [testEvent_ne_missingTest]

/-! ## Runs -/

/-- The tests of a script whose next number is `next`, in the order of their numbers. -/
def rows (stop : Nat) : Nat → List ResultLine → List Test
  | next, [] => (List.range' next (stop + 1 - next)).map missingRow
  | next, groups :: rest =>
    (List.range' next (groups.givenNumber - next)).map missingRow
      ++ lineRow (max next groups.givenNumber, groups)
      :: rows stop (max next groups.givenNumber + 1) rest

namespace Locals

variable {t : Locals}

/-- The test that is held back. -/
def pending (t : Locals) : List Test := tests t.emitTest.1

theorem pending_of_none (h : t.testName = none) : t.pending = [] := by
  unfold pending emitTest
  rw [h]
  rfl

theorem pending_of_some {testName : String} (h : t.testName = some testName) :
    t.pending = ((numberOf testName).map fun number =>
      ({ number, testId := some testName, testStatus := t.result, missing := false } : Test)).toList := by
  unfold pending emitTest
  rw [h]
  simp only [tests, List.filterMap_cons, testOf_testEvent]
  cases numberOf testName with
  | none => rfl
  | some number => rfl

/-- The log has no part in it. -/
theorem pending_congr {t' : Locals} (hname : t'.testName = t.testName) (hresult : t'.result = t.result) :
    t'.pending = t.pending := by
  cases h : t.testName with
  | none => rw [pending_of_none h, pending_of_none (by rw [hname, h])]
  | some testName =>
    rw [pending_of_some h, pending_of_some (by rw [hname, h]), hresult]

theorem pending_testLine (groups : ResultLine) :
    (t.testLine groups).2.pending = [lineRow (max t.planStart groups.givenNumber, groups)] := by
  have hname : (t.testLine groups).2.testName
      = some (numberedName (max t.planStart groups.givenNumber) groups.suffix) := by
    simp [testLine]
  rw [pending_of_some hname, numberOf_numberedName _ groups.suffix_head]
  rfl

theorem pending_bailOut (reason : Option (List Char)) : (t.bailOut reason).2.pending = [] := by
  have hname : ∀ extra, numberOf ("Bail out!" ++ String.ofList extra) = none := by
    intro extra
    simp [numberOf, List.isPrefixOf?]
  rw [pending_of_some (by rfl), hname]
  rfl

/-- The tests that are still to come behind the one that is held back. -/
def coming (t : Locals) (tap : List (List Char)) : List Test :=
  rows (((readings t.state tap).findSome? Reading.bound).getD t.planStop) t.planStart
    ((readings t.state tap).filterMap Reading.resultLine)

/-- A line emits the test that is held back or holds it back further. -/
theorem tests_handle (hpos : 0 < t.planStart) {line : List Char} {t' : Locals}
    (h : (t.handle line).2 = .ok t') (tap : List (List Char)) :
    tests (t.handle line).1 ++ (t'.pending ++ t'.coming tap)
      = t.pending ++ t.coming (line :: tap) := by
  have hstate := (handle_ok hpos h).1
  have hhandles := handles hpos h
  generalize (t.handle line).1 = calls at hhandles ⊢
  simp only [coming, readings, hstate, List.findSome?_cons, List.filterMap_cons]
  cases hhandles with
  | skip planStop text hread hzero =>
    have hends : (readLine t.state line).ends = true := by
      rw [hread]
      rfl
    have hname : tests [fileSkip text] = [] := rfl
    rw [findSome_bound_eq_none (Reading.next_ne hends), hname, @pending_congr t _ (by rfl) (by rfl)]
    simp only [hread, Reading.bound, Reading.resultLine, hzero]
    rfl
  | plan planStop comment hread hne =>
    have hends : (readLine t.state line).ends = true := by
      rw [hread]
      rfl
    rw [findSome_bound_eq_none (Reading.next_ne hends), @pending_congr t _ (by rfl) (by rfl)]
    simp only [hread, Reading.bound, Reading.resultLine]
    rfl
  | result groups hread =>
    rw [pending_testLine]
    simp only [hread, Reading.bound, Reading.resultLine, rows]
    simp [testLine, tests_append, tests_missingTests, pending]
  | bailOut reason hread =>
    rw [pending_bailOut]
    simp only [hread, Reading.bound, Reading.resultLine]
    simp [bailOut, pending]
  | comment hread =>
    rw [@pending_congr t _ (by rfl) (by rfl)]
    simp only [hread, Reading.bound, Reading.resultLine]
    rfl
  | other hread =>
    simp only [hread, Reading.bound, Reading.resultLine]
    rfl

/-- The tests of a run that raises nothing. -/
theorem tests_events (hpos : 0 < t.planStart) {tap : List (List Char)}
    (h : (t.events tap).2 = .ok ()) : tests (t.events tap).1 = t.pending ++ t.coming tap := by
  induction tap generalizing t with
  | nil => simp [events, finish, tests_append, tests_missingTests, pending, coming, readings, rows]
  | cons line tap ih =>
    obtain ⟨t', hline, hok, hevents⟩ := events_cons h
    rw [hevents, tests_append, ih (handle_ok hpos hline).2 hok, tests_handle hpos hline]

end Locals

/-! ## Numbers -/

/-- The last number of a script whose next number is `next`. -/
def lastNumber (stop next : Nat) (lines : List ResultLine) : Nat :=
  max stop (((assigned next lines).getLast?.map Prod.fst).getD (next - 1))

theorem lastNumber_cons (stop next : Nat) (groups : ResultLine) (rest : List ResultLine) :
    lastNumber stop next (groups :: rest)
      = lastNumber stop (max next groups.givenNumber + 1) rest := by
  unfold lastNumber
  rw [assigned, List.getLast?_cons]
  cases (assigned (max next groups.givenNumber + 1) rest).getLast? with
  | none => simp
  | some line => simp

theorem le_lastNumber (stop next : Nat) (lines : List ResultLine) :
    next ≤ lastNumber stop next lines + 1 := by
  induction lines generalizing next with
  | nil =>
    simp only [lastNumber, assigned, List.getLast?_nil, Option.map_none, Option.getD_none]
    omega
  | cons groups rest ih =>
    have h := ih (max next groups.givenNumber + 1)
    rw [lastNumber_cons]
    omega

theorem range'_fill {next given last : Nat} (h : max next given ≤ last) :
    List.range' next (given - next)
        ++ max next given :: List.range' (max next given + 1) (last + 1 - (max next given + 1))
      = List.range' next (last + 1 - next) := by
  have hmax : max next given = next + (given - next) := by omega
  have hlen : last + 1 - next
      = (given - next) + (last + 1 - (next + (given - next) + 1) + 1) := by omega
  rw [hlen, ← List.range'_append_1, hmax, List.range'_succ]

/-- The numbers have no gap. -/
theorem rows_numbers (stop next : Nat) (lines : List ResultLine) :
    (rows stop next lines).map Test.number
      = List.range' next (lastNumber stop next lines + 1 - next) := by
  have hmissing : ∀ start n, ((List.range' start n).map missingRow).map Test.number
      = List.range' start n := by
    intro start n
    rw [List.map_map]
    exact List.map_id _
  induction lines generalizing next with
  | nil =>
    rw [rows, hmissing]
    congr 1
    simp only [lastNumber, assigned, List.getLast?_nil, Option.map_none, Option.getD_none]
    omega
  | cons groups rest ih =>
    have hle := le_lastNumber stop (max next groups.givenNumber + 1) rest
    rw [rows, List.map_append, hmissing, List.map_cons, ih, lastNumber_cons]
    exact range'_fill (by omega)

/-- The tests that are not missing are the result lines. -/
theorem rows_lines (stop next : Nat) (lines : List ResultLine) :
    (rows stop next lines).filter (fun test => !test.missing) = (assigned next lines).map lineRow := by
  have hmissing : ∀ numbers : List Nat,
      (numbers.map missingRow).filter (fun test => !test.missing) = [] := by
    intro numbers
    simp [List.filter_eq_nil_iff, missingRow]
  induction lines generalizing next with
  | nil => exact hmissing _
  | cons groups rest ih =>
    rw [rows, List.filter_append, hmissing, List.filter_cons, ih]
    rfl

/-- What a filter leaves out by a key that does not repeat. -/
theorem filter_key_not_mem {α β : Type} [DecidableEq β] (key : α → β) (p : α → Bool) {l : List α}
    (h : (l.map key).Nodup) :
    (l.filter p).map key
      = (l.map key).filter fun b => b ∉ (l.filter fun a => !p a).map key := by
  rw [List.filter_map]
  congr 1
  apply List.filter_congr
  intro a ha
  cases hp : p a with
  | true =>
    symm
    simp only [Function.comp_apply, decide_eq_true_eq]
    intro hmem
    obtain ⟨b, hb, hkey⟩ := List.mem_map.mp hmem
    obtain ⟨hbl, hbp⟩ := List.mem_filter.mp hb
    have hab : b = a := List.inj_on_of_nodup_map h hbl ha hkey
    rw [hab, hp] at hbp
    cases hbp
  | false =>
    symm
    simp only [Function.comp_apply, decide_eq_false_iff_not, not_not]
    exact List.mem_map.mpr ⟨a, List.mem_filter.mpr ⟨ha, by rw [hp]; rfl⟩, rfl⟩

/-- **The numbers of a script.** They go up from 1 by one, to the bound of the plan
or the last number of a line. The numbers that no line is assigned to are missing,
and every line is emitted once, with its own status. -/
theorem tap2SubUnit_numbers {w : PartialWrites} {out : OutputStream} {tap : List (List Char)}
    (h : (tap2SubUnit w out tap).1 = .ok 0) :
    let found := tests (emitted tap)
    let lines := assigned 1 (resultLines tap)
    let last := max (planBound tap) ((lines.getLast?.map Prod.fst).getD 0)
    found.map Test.number = List.range' 1 last
    ∧ (found.filter Test.missing).map Test.number
      = (List.range' 1 last).filter (· ∉ lines.map Prod.fst)
    ∧ (found.filter fun test => !test.missing) = lines.map lineRow := by
  intro found lines last
  have hrows : found = rows (planBound tap) 1 (resultLines tap) := by
    have hok := ((tap2SubUnit_ok_iff w out tap).mp h).2
    have hevents := Locals.tests_events Nat.one_pos hok
    have hpending : Locals.pending {} = [] := Locals.pending_of_none rfl
    rw [hpending] at hevents
    simp only [found, emitted_of_ok h, hevents]
    rfl
  have hnumbers : found.map Test.number = List.range' 1 last := by
    rw [hrows, rows_numbers]
    rfl
  have hlines : (found.filter fun test => !test.missing) = lines.map lineRow := by
    rw [hrows]
    exact rows_lines _ _ _
  refine ⟨hnumbers, ?_, hlines⟩
  have hnodup : (found.map Test.number).Nodup := by
    rw [hnumbers]
    exact List.nodup_range'
  rw [filter_key_not_mem Test.number Test.missing hnodup, hnumbers, hlines, List.map_map]
  rfl

theorem tap2SubUnit_numbers_gap :
    let tap := ["1..4\n".toList, "ok 3 a\n".toList, "not ok 1\n".toList]
    (tap2SubUnit byteByByte {} tap).1 = .ok 0
    ∧ (tests (emitted tap)).map Test.number = List.range' 1 4
    ∧ ((tests (emitted tap)).filter Test.missing).map Test.number = [1, 2] := by
  intro tap
  have hok : (tap2SubUnit byteByByte {} tap).1 = .ok 0 := by
    rw [tap2SubUnit_ok_iff]
    exact ⟨by decide +kernel, by decide +kernel⟩
  obtain ⟨hnumbers, hmissing, -⟩ := tap2SubUnit_numbers hok
  have hlast : max (planBound tap)
      (((assigned 1 (resultLines tap)).getLast?.map Prod.fst).getD 0) = 4 := by decide +kernel
  have hassigned : (assigned 1 (resultLines tap)).map Prod.fst = [3, 4] := by decide +kernel
  rw [hlast] at hnumbers hmissing
  rw [hassigned] at hmissing
  exact ⟨hok, hnumbers, hmissing⟩

end Pysubunit.Tap
