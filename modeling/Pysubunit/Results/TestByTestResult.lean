/-
Pysubunit.Results.TestByTestResult — one call a test (`TestByTestResult` of
`test_results.py`).

The object keeps what it is told between `startTest` and `stopTest`, and calls
`on_test` with it. What the methods of `testtools.TestResult` hand out, the
clock and the current tags, comes with the calls; the contents that
`testtools.content` makes are those of `Testtools`.

`Testtools.details` is the details dict that an outcome leads to, if there is
one. The runs come from it alone (`run_bracket`), whatever the object held
before.
-/
import Pysubunit.ByteLib.Utf8
import Pysubunit.V1.Call

namespace Pysubunit.Results

open V1 (Content Details Error)

/-- What is used of `testtools.content`, for tests `T` and errors `Err`. -/
structure Testtools (T Err : Type) where
  /-- `TracebackContent(err, test)` -/
  tracebackContent : Option Err → T → Except Error Content
  /-- `text_content(text)` -/
  textContent : Option String → Except Error Content

/-- There is a traceback of every error and none of `None`, and a content of every text. -/
structure Testtools.Documented {T Err : Type} (tt : Testtools T Err) : Prop where
  traceback_none : ∀ test, ∃ message, tt.tracebackContent none test = .error (.valueError message)
  traceback_err : ∀ err test, ∃ content, tt.tracebackContent (some err) test = .ok content
  text : ∀ text, ∃ content, tt.textContent (some text) = .ok content

/-- The status that is reported. -/
inductive Status where
  | success
  | failure
  | error
  | skip
  | xfail
  deriving DecidableEq, Repr

/-- An outcome method with its arguments; the arguments that are not given are `none`. -/
inductive Outcome (Err : Type) where
  | addSuccess (details : Option Details)
  | addFailure (err : Option Err) (details : Option Details)
  | addError (err : Option Err) (details : Option Details)
  | addSkip (reason : Option String) (details : Option Details)
  | addExpectedFailure (err : Option Err) (details : Option Details)
  | addUnexpectedSuccess (details : Option Details)

/-- The attributes of a `TestByTestResult`. `_start_time` is there once a test has been started. -/
structure TestByTestResult (Time : Type) where
  startTime : Option Time := none
  status : Option Status := none
  details : Option Details := none
  stopTime : Option Time := none

/-- The arguments of `on_test`. -/
structure OnTest (T Time : Type) where
  test : T
  status : Option Status
  startTime : Time
  stopTime : Time
  tags : Option (Finset String)
  details : Option Details

section

variable {T Err Time : Type} (tt : Testtools T Err)

namespace TestByTestResult

/-- `startTest` -/
def startTest (_ : TestByTestResult Time) (now : Time) : TestByTestResult Time :=
  { startTime := some now, status := none, details := none, stopTime := none }

/-- `stopTest` -/
def stopTest (r : TestByTestResult Time) (test : T) (now : Time)
    (currentTags : Option (Finset String)) :
    TestByTestResult Time × Except Error (OnTest T Time) :=
  let r := { r with stopTime := some now }
  match r.startTime with
  | none => (r, .error (.attributeError "_start_time"))
  | some startTime => (r, .ok ⟨test, r.status, startTime, now, currentTags, r.details⟩)

/-- `_err_to_details` -/
def errToDetails (test : T) (err : Option Err) (details : Option Details) :
    Except Error Details :=
  match details with
  | some details =>
    if details = ∅ then (tt.tracebackContent err test).map (Finmap.singleton "traceback")
    else .ok details
  | none => (tt.tracebackContent err test).map (Finmap.singleton "traceback")

/-- The methods that are given an error: the status is set first. -/
def addErr (r : TestByTestResult Time) (status : Status) (test : T) (err : Option Err)
    (details : Option Details) : TestByTestResult Time × Except Error Unit :=
  let r := { r with status := some status }
  match errToDetails tt test err details with
  | .error e => (r, .error e)
  | .ok details => ({ r with details := some details }, .ok ())

/-- `addSkip` -/
def addSkip (r : TestByTestResult Time) (reason : Option String) (details : Option Details) :
    TestByTestResult Time × Except Error Unit :=
  let r := { r with status := some .skip }
  match details with
  | none =>
    match tt.textContent reason with
    | .error e => (r, .error e)
    | .ok content => ({ r with details := some (Finmap.singleton "reason" content) }, .ok ())
  | some details =>
    if reason.getD "" = "" then ({ r with details := some details }, .ok ())
    else
      match tt.textContent reason with
      | .error e => (r, .error e)
      | .ok content => ({ r with details := some (details.insert "reason" content) }, .ok ())

/-- `addSuccess` -/
def addSuccess (r : TestByTestResult Time) (details : Option Details) :
    TestByTestResult Time × Except Error Unit :=
  ({ r with status := some .success, details := details }, .ok ())

/-- `addUnexpectedSuccess` -/
def addUnexpectedSuccess (r : TestByTestResult Time) (details : Option Details) :
    TestByTestResult Time × Except Error Unit :=
  ({ r with status := some .success, details := details }, .ok ())

/-- `addFailure` -/
def addFailure (r : TestByTestResult Time) (test : T) (err : Option Err)
    (details : Option Details) : TestByTestResult Time × Except Error Unit :=
  r.addErr tt .failure test err details

/-- `addError` -/
def addError (r : TestByTestResult Time) (test : T) (err : Option Err)
    (details : Option Details) : TestByTestResult Time × Except Error Unit :=
  r.addErr tt .error test err details

/-- `addExpectedFailure` -/
def addExpectedFailure (r : TestByTestResult Time) (test : T) (err : Option Err)
    (details : Option Details) : TestByTestResult Time × Except Error Unit :=
  r.addErr tt .xfail test err details

/-- An outcome method. -/
def add (r : TestByTestResult Time) (test : T) :
    Outcome Err → TestByTestResult Time × Except Error Unit
  | .addSuccess details => r.addSuccess details
  | .addFailure err details => r.addFailure tt test err details
  | .addError err details => r.addError tt test err details
  | .addSkip reason details => r.addSkip tt reason details
  | .addExpectedFailure err details => r.addExpectedFailure tt test err details
  | .addUnexpectedSuccess details => r.addUnexpectedSuccess details

end TestByTestResult

/-- A call, with what the clock and `current_tags` say in it. -/
inductive Call (T Err Time : Type) where
  | startTest (test : T) (now : Time)
  | outcome (outcome : Outcome Err) (test : T)
  | stopTest (test : T) (now : Time) (currentTags : Option (Finset String))

namespace TestByTestResult

/-- One call: the object behind it, and the calls of `on_test` or what is raised. -/
def step (r : TestByTestResult Time) :
    Call T Err Time → TestByTestResult Time × Except Error (List (OnTest T Time))
  | .startTest _ now => (r.startTest now, .ok [])
  | .outcome outcome test =>
    let added := r.add tt test outcome
    (added.1, added.2.map fun _ => [])
  | .stopTest test now currentTags =>
    let stopped := r.stopTest test now currentTags
    (stopped.1, stopped.2.map fun report => [report])

/-- Calls, up to the first that raises: the calls of `on_test` that each of them makes. -/
def run (r : TestByTestResult Time) :
    List (Call T Err Time) → List (List (OnTest T Time)) × Except Error (TestByTestResult Time)
  | [] => ([], .ok r)
  | call :: calls =>
    match r.step tt call with
    | (_, .error e) => ([], .error e)
    | (r', .ok reports) =>
      let rest := run r' calls
      (reports :: rest.1, rest.2)

end TestByTestResult

/-! ## What an outcome leads to -/

namespace Outcome

/-- The status of an outcome. -/
def status : Outcome Err → Status
  | .addSuccess _ => .success
  | .addFailure _ _ => .failure
  | .addError _ _ => .error
  | .addSkip _ _ => .skip
  | .addExpectedFailure _ _ => .xfail
  | .addUnexpectedSuccess _ => .success

/-- The details dict that is given. -/
def details : Outcome Err → Option Details
  | .addSuccess details => details
  | .addFailure _ details => details
  | .addError _ details => details
  | .addSkip _ details => details
  | .addExpectedFailure _ details => details
  | .addUnexpectedSuccess details => details

/-- An outcome that needs a cause is given a details dict, or an error or a reason. -/
def Given : Outcome Err → Prop
  | .addSuccess _ => True
  | .addFailure err details => err ≠ none ∨ details ≠ none
  | .addError err details => err ≠ none ∨ details ≠ none
  | .addSkip reason details => reason ≠ none ∨ details ≠ none
  | .addExpectedFailure err details => err ≠ none ∨ details ≠ none
  | .addUnexpectedSuccess _ => True

end Outcome

open TestByTestResult (errToDetails)

/-- The details dict of a skip. -/
def Testtools.skipDetails (reason : Option String) (details : Option Details) :
    Except Error Details :=
  match details with
  | none => (tt.textContent reason).map (Finmap.singleton "reason")
  | some details =>
    if reason.getD "" = "" then .ok details
    else (tt.textContent reason).map fun content => details.insert "reason" content

/-- The details dict that is reported of an outcome. -/
def Testtools.details (test : T) : Outcome Err → Except Error (Option Details)
  | .addSuccess details => .ok details
  | .addFailure err details => (errToDetails tt test err details).map some
  | .addError err details => (errToDetails tt test err details).map some
  | .addSkip reason details => (tt.skipDetails reason details).map some
  | .addExpectedFailure err details => (errToDetails tt test err details).map some
  | .addUnexpectedSuccess details => .ok details

theorem addErr_eq (r : TestByTestResult Time) (status : Status) (test : T) (err : Option Err)
    (details : Option Details) :
    r.addErr tt status test err details =
      match (errToDetails tt test err details).map some with
      | .error e => ({ r with status := some status }, .error e)
      | .ok details => ({ r with status := some status, details := details }, .ok ()) := by
  unfold TestByTestResult.addErr
  cases errToDetails tt test err details <;> rfl

theorem addSkip_eq (r : TestByTestResult Time) (reason : Option String)
    (details : Option Details) :
    r.addSkip tt reason details =
      match (tt.skipDetails reason details).map some with
      | .error e => ({ r with status := some .skip }, .error e)
      | .ok details => ({ r with status := some .skip, details := details }, .ok ()) := by
  unfold TestByTestResult.addSkip Testtools.skipDetails
  cases details with
  | none => cases tt.textContent reason <;> rfl
  | some details =>
    dsimp only
    split
    · rfl
    · cases tt.textContent reason <;> rfl

/-- An outcome method sets the status, and the details unless it raises. -/
theorem add_eq (r : TestByTestResult Time) (test : T) (outcome : Outcome Err) :
    r.add tt test outcome =
      match tt.details test outcome with
      | .error e => ({ r with status := some outcome.status }, .error e)
      | .ok details => ({ r with status := some outcome.status, details := details }, .ok ()) := by
  cases outcome with
  | addSuccess details => rfl
  | addFailure err details => exact addErr_eq tt r .failure test err details
  | addError err details => exact addErr_eq tt r .error test err details
  | addSkip reason details => exact addSkip_eq tt r reason details
  | addExpectedFailure err details => exact addErr_eq tt r .xfail test err details
  | addUnexpectedSuccess details => rfl

/-! ## Tests one after the other -/

/-- All of the details that are given are among those reported. -/
def Contains (reported given : Option Details) : Prop :=
  ∀ dict, given = some dict → ∀ name content, dict.lookup name = some content →
    ∃ dict', reported = some dict' ∧ dict'.lookup name = some content

/-- A test: it is started, has one outcome, and is stopped. -/
structure Bracket (T Err Time : Type) where
  test : T
  startTime : Time
  outcome : Outcome Err
  stopTime : Time
  tags : Option (Finset String)

namespace Bracket

/-- The calls for a test. -/
def calls (b : Bracket T Err Time) : List (Call T Err Time) :=
  [.startTest b.test b.startTime, .outcome b.outcome b.test, .stopTest b.test b.stopTime b.tags]

/-- The report of a test whose outcome leads to the details. -/
def report (b : Bracket T Err Time) (details : Option Details) : OnTest T Time :=
  ⟨b.test, some b.outcome.status, b.startTime, b.stopTime, b.tags, details⟩

/-- What is to be reported of a test: everything it was given. -/
structure Reported (b : Bracket T Err Time) (r : OnTest T Time) : Prop where
  test : r.test = b.test
  status : r.status = some b.outcome.status
  startTime : r.startTime = b.startTime
  stopTime : r.stopTime = b.stopTime
  details : Contains r.details b.outcome.details

end Bracket

/-- The object behind the calls for a test. -/
def afterBracket (b : Bracket T Err Time) (details : Option Details) : TestByTestResult Time :=
  ⟨some b.startTime, some b.outcome.status, details, some b.stopTime⟩

/-- **The calls for a test** make one report, at the last of them, or raise; nothing of it
depends on the object. -/
theorem run_bracket (r : TestByTestResult Time) (b : Bracket T Err Time)
    (rest : List (Call T Err Time)) :
    r.run tt (b.calls ++ rest) =
      match tt.details b.test b.outcome with
      | .error e => ([[]], .error e)
      | .ok details =>
        ([] :: [] :: [b.report details] :: ((afterBracket b details).run tt rest).1,
          ((afterBracket b details).run tt rest).2) := by
  simp only [Bracket.calls, List.cons_append, List.nil_append, TestByTestResult.run,
    TestByTestResult.step, add_eq]
  cases tt.details b.test b.outcome with
  | error e => rfl
  | ok details => rfl

/-! ## One report a test -/

/-- What an outcome needs to be reported: a cause, if it is given no details at all to tell it
by, and no reason over one that the details have. -/
def Outcome.Tellable (outcome : Outcome Err) : Prop :=
  match outcome with
  | .addSuccess _ => True
  | .addFailure err details => err = none → details ≠ some ∅
  | .addError err details => err = none → details ≠ some ∅
  | .addSkip reason details => ∀ text dict content, reason = some text → text ≠ "" →
      details = some dict → dict.lookup "reason" = some content →
        tt.textContent (some text) = .ok content
  | .addExpectedFailure err details => err = none → details ≠ some ∅
  | .addUnexpectedSuccess _ => True

/-- A run of tests is reported: nothing raises, and each test has one report, of what it was
given, at its `stopTest`. -/
def OneReport (r : TestByTestResult Time) (tests : List (Bracket T Err Time)) : Prop :=
  ∃ reports r', List.Forall₂ Bracket.Reported tests reports
    ∧ r.run tt (tests.flatMap Bracket.calls)
      = (reports.flatMap fun report => [[], [], [report]], .ok r')

theorem Contains.refl (details : Option Details) : Contains details details :=
  fun dict hdict _ _ hlookup => ⟨dict, hdict, hlookup⟩

theorem contains_empty (reported : Option Details) : Contains reported (some ∅) := by
  intro dict hdict name content hlookup
  cases hdict
  simp at hlookup

theorem contains_none (reported : Option Details) : Contains reported none := by
  intro dict hdict
  cases hdict

theorem contains_insert_iff (dict : Details) (name : String) (content : Content) :
    Contains (some (dict.insert name content)) (some dict)
      ↔ ∀ content', dict.lookup name = some content' → content' = content := by
  constructor
  · intro h content' hlookup
    obtain ⟨dict', hdict', hlookup'⟩ := h dict rfl name content' hlookup
    cases hdict'
    rw [Finmap.lookup_insert] at hlookup'
    exact (Option.some.inj hlookup').symm
  · intro h dict' hdict' name' content' hlookup
    cases hdict'
    refine ⟨_, rfl, ?_⟩
    by_cases hname : name' = name
    · subst hname
      rw [Finmap.lookup_insert, h content' hlookup]
    · rw [Finmap.lookup_insert_of_ne _ hname, hlookup]

variable {tt}

/-- The details of an outcome with an error. -/
theorem errToDetails_iff (hdoc : tt.Documented) (test : T) {err : Option Err}
    {details : Option Details} (hgiven : err ≠ none ∨ details ≠ none) :
    (∃ reported, (errToDetails tt test err details).map some = .ok reported
      ∧ Contains reported details) ↔ (err = none → details ≠ some ∅) := by
  cases details with
  | none =>
    obtain ⟨err, rfl⟩ := Option.ne_none_iff_exists'.mp (hgiven.resolve_right (by simp))
    obtain ⟨content, hcontent⟩ := hdoc.traceback_err err test
    simp [errToDetails, hcontent, Except.map, contains_none]
  | some dict =>
    by_cases hempty : dict = ∅
    · subst hempty
      cases err with
      | none =>
        obtain ⟨message, hmessage⟩ := hdoc.traceback_none test
        simp [errToDetails, hmessage, Except.map]
      | some err =>
        obtain ⟨content, hcontent⟩ := hdoc.traceback_err err test
        simp [errToDetails, hcontent, Except.map, contains_empty]
    · simp [errToDetails, hempty, Except.map, Contains.refl]

/-- The details of a skip. -/
theorem skipDetails_iff (hdoc : tt.Documented) {reason : Option String} {details : Option Details}
    (hgiven : reason ≠ none ∨ details ≠ none) :
    (∃ reported, (tt.skipDetails reason details).map some = .ok reported
      ∧ Contains reported details) ↔ (Outcome.addSkip reason details).Tellable tt := by
  cases details with
  | none =>
    obtain ⟨text, rfl⟩ := Option.ne_none_iff_exists'.mp (hgiven.resolve_right (by simp))
    obtain ⟨content, hcontent⟩ := hdoc.text text
    simp [Testtools.skipDetails, Outcome.Tellable, hcontent, Except.map, contains_none]
  | some dict =>
    by_cases htext : reason.getD "" = ""
    · have htell : (Outcome.addSkip reason (some dict)).Tellable tt := by
        intro text _ _ hreason hne
        rw [hreason] at htext
        exact absurd htext hne
      simp [Testtools.skipDetails, htext, Except.map, Contains.refl, htell]
    · obtain ⟨text, rfl⟩ : ∃ text, reason = some text := by
        cases reason with
        | none => simp at htext
        | some text => exact ⟨text, rfl⟩
      obtain ⟨content, hcontent⟩ := hdoc.text text
      have hne : text ≠ "" := htext
      simp only [Testtools.skipDetails, Option.getD_some, if_neg hne, hcontent, Except.map,
        Except.ok.injEq, exists_eq_left', contains_insert_iff]
      constructor
      · rintro h text' dict' content' ⟨⟩ - ⟨⟩ hlookup
        rw [hcontent, h content' hlookup]
      · intro h content' hlookup
        have htell := h text dict content' rfl hne rfl hlookup
        exact (Except.ok.inj (hcontent.symm.trans htell)).symm

/-- **An outcome is reported with all it was given** exactly if it is tellable. -/
theorem details_iff (hdoc : tt.Documented) (test : T) {outcome : Outcome Err}
    (hgiven : outcome.Given) :
    (∃ reported, tt.details test outcome = .ok reported ∧ Contains reported outcome.details)
      ↔ outcome.Tellable tt := by
  cases outcome with
  | addSuccess details => simp [Testtools.details, Outcome.details, Outcome.Tellable, Contains.refl]
  | addFailure err details => exact errToDetails_iff hdoc test hgiven
  | addError err details => exact errToDetails_iff hdoc test hgiven
  | addSkip reason details => exact skipDetails_iff hdoc hgiven
  | addExpectedFailure err details => exact errToDetails_iff hdoc test hgiven
  | addUnexpectedSuccess details =>
    simp [Testtools.details, Outcome.details, Outcome.Tellable, Contains.refl]

theorem reported_iff (b : Bracket T Err Time) (details : Option Details) :
    b.Reported (b.report details) ↔ Contains details b.outcome.details :=
  ⟨fun h => h.details, fun h => ⟨rfl, rfl, rfl, rfl, h⟩⟩

/-- The first test of a run is reported, and the others behind it. -/
theorem oneReport_cons (r : TestByTestResult Time) (b : Bracket T Err Time)
    (tests : List (Bracket T Err Time)) :
    OneReport tt r (b :: tests) ↔ ∃ details, tt.details b.test b.outcome = .ok details
      ∧ Contains details b.outcome.details ∧ OneReport tt (afterBracket b details) tests := by
  unfold OneReport
  rw [List.flatMap_cons, run_bracket]
  cases tt.details b.test b.outcome with
  | error e =>
    constructor
    · rintro ⟨reports, r', -, hrun⟩
      exact absurd (congrArg Prod.snd hrun) (by simp)
    · rintro ⟨details, hdetails, -⟩
      cases hdetails
  | ok details =>
    constructor
    · rintro ⟨reports, r', hreports, hrun⟩
      cases hreports with
      | cons hb hrest =>
        obtain ⟨hcalls, hend⟩ := Prod.mk.inj hrun
        simp only [List.flatMap_cons, List.cons_append, List.nil_append, List.cons.injEq, true_and,
          and_true] at hcalls
        obtain ⟨rfl, hcalls⟩ := hcalls
        exact ⟨details, rfl, (reported_iff b details).mp hb, _, r', hrest, Prod.ext hcalls hend⟩
    · rintro ⟨details', hdetails, hcontains, reports, r', hreports, hrun⟩
      cases hdetails
      refine ⟨b.report details :: reports, r',
        .cons ((reported_iff b details).mpr hcontains) hreports, ?_⟩
      dsimp only
      rw [hrun]
      rfl

/-- **One report a test**, whatever the object held in front: exactly when no outcome with a
cause is given an empty details dict alone, and no reason goes over an entry of the details. -/
theorem oneReport_iff (hdoc : tt.Documented) (r : TestByTestResult Time)
    {tests : List (Bracket T Err Time)} (hgiven : ∀ b ∈ tests, b.outcome.Given) :
    OneReport tt r tests ↔ ∀ b ∈ tests, b.outcome.Tellable tt := by
  induction tests generalizing r with
  | nil =>
    simp only [List.not_mem_nil, false_implies, implies_true, iff_true]
    exact ⟨[], r, .nil, rfl⟩
  | cons b tests ih =>
    have htests : ∀ b ∈ tests, b.outcome.Given := fun b hb => hgiven b (by simp [hb])
    have hb := details_iff hdoc b.test (hgiven b (by simp))
    simp only [oneReport_cons, ih _ htests, List.mem_cons, forall_eq_or_imp, ← hb]
    constructor
    · rintro ⟨details, hdetails, hcontains, hrest⟩
      exact ⟨⟨details, hdetails, hcontains⟩, hrest⟩
    · rintro ⟨⟨details, hdetails, hcontains⟩, hrest⟩
      exact ⟨details, hdetails, hcontains, hrest⟩

end

/-- Errors that are known by the text of their traceback. -/
def textErrors : Testtools String String where
  tracebackContent
    | none, _ => .error (.valueError (.text "err may not be None"))
    | some err, _ => .ok
      ⟨⟨"text", "x-traceback", [("language", "python"), ("charset", "utf8")]⟩,
        [ByteLib.Utf8.encode err.toList]⟩
  textContent
    | none => .error (.typeError (.text "text_content must be given text"))
    | some text => .ok ⟨⟨"text", "plain", [("charset", "utf8")]⟩, [ByteLib.Utf8.encode text.toList]⟩

theorem textErrors_documented : textErrors.Documented :=
  ⟨fun _ => ⟨_, rfl⟩, fun _ _ => ⟨_, rfl⟩, fun _ => ⟨_, rfl⟩⟩

/-- An error, and a skip without details. -/
theorem oneReport_error_skip :
    OneReport textErrors ({} : TestByTestResult Nat)
      [⟨"a", 0, .addError (some "boom") none, 1, none⟩,
        ⟨"b", 2, .addSkip (some "no network") (some ∅), 3, none⟩] := by
  refine (oneReport_iff textErrors_documented _ ?_).mpr ?_
  · simp [Outcome.Given]
  · simp only [List.mem_cons, List.not_mem_nil, or_false, forall_eq_or_imp, forall_eq]
    refine ⟨by simp [Outcome.Tellable], ?_⟩
    rintro text dict content - - ⟨⟩ hlookup
    simp at hlookup

/-- An error without details, as the parser of version 1 passes it, raises. -/
theorem addError_empty_raises :
    ¬ OneReport textErrors ({} : TestByTestResult Nat)
      [⟨"a", 0, .addError none (some ∅), 1, none⟩] := by
  rw [oneReport_cons]
  rintro ⟨details, hdetails, -⟩
  simp [Testtools.details, TestByTestResult.errToDetails, textErrors, Except.map] at hdetails

end Pysubunit.Results
