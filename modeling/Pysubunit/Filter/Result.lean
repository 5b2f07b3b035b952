/-
Pysubunit.Filter.Result — the result decorators that filter a run
(`test_results.py`).

A decorator reads the calls it receives and makes calls of the result it
decorates; each is a transducer whose state are its attributes. A
`TestResultFilter` hands its calls to a `_PredicateFilter`, and that to a
`TimeCollapsingDecorator` on a `TagCollapsingDecorator` on the result. By the
order of their bases, `startTest` and `stopTest` of `TagsMixin` are called by
`_PredicateFilter` alone.

The result is an extended one, so `ExtendedToOriginalDecorator` hands every call
on as it is; it accepts an outcome with either an error (or reason) or details,
which the type `Outcome` says. A predicate is taken to answer.
-/
import Mathlib.Data.Finset.Basic
import Pysubunit.ByteLib.Transducer
import Pysubunit.V1.Call

namespace Pysubunit.Filter

open ByteLib
open V1 (Whence DateTime)

/-! ## Calls -/

/-- The argument that says why: an `exc_info` or a reason, or a details dict. -/
inductive Why (E D : Type) where
  | err (err : E)
  | details (details : D)
  deriving DecidableEq

/-- An outcome with its arguments. -/
inductive Outcome (E D : Type) where
  | error (why : Why E D)
  | failure (why : Why E D)
  | skip (why : Why E D)
  | xfail (why : Why E D)
  | success (details : Option D)
  | uxsuccess (details : Option D)
  deriving DecidableEq

/-- A call of a result, for tests `T`. -/
inductive Call (T E D : Type) where
  | startTest (test : T)
  | outcome (outcome : Outcome E D) (test : T)
  | stopTest (test : T)
  | tags (newTags goneTags : Finset String)
  | progress (offset : Option Int) (whence : Whence)
  | time (time : DateTime)
  deriving DecidableEq

section Decorators

variable {T E D : Type}

/-! ## TagsMixin -/

/-- The attributes `_global_tags` and `_test_tags`. -/
structure TagsMixin where
  globalTags : Finset String × Finset String := (∅, ∅)
  testTags : Option (Finset String × Finset String) := none
  deriving DecidableEq

namespace TagsMixin

variable (m : TagsMixin)

/-- `_get_active_tags` -/
def getActiveTags : Finset String :=
  match m.testTags with
  | none => m.globalTags.1
  | some (testNew, testGone) => (m.globalTags.1 \ testGone) ∪ testNew

/-- `_get_current_scope`; a pair is true even when its sets are empty. -/
def getCurrentScope : Finset String × Finset String := m.testTags.getD m.globalTags

/-- The mixin after its current scope has been changed. -/
def setCurrentScope (scope : Finset String × Finset String) : TagsMixin :=
  match m.testTags with
  | some _ => { m with testTags := some scope }
  | none => { m with globalTags := scope }

/-- `_flush_current_scope`, with the call it makes of the tag receiver. -/
def flushCurrentScope : TagsMixin × List (Call T E D) :=
  let scope := m.getCurrentScope
  (m.setCurrentScope (∅, ∅),
    if scope.1 ≠ ∅ ∨ scope.2 ≠ ∅ then [.tags scope.1 scope.2] else [])

/-- `startTest` -/
def startTest : TagsMixin := { m with testTags := some (∅, ∅) }

/-- `stopTest` -/
def stopTest : TagsMixin := { m with testTags := none }

/-- `tags` -/
def tags (newTags goneTags : Finset String) : TagsMixin :=
  let scope := m.getCurrentScope
  m.setCurrentScope ((scope.1 ∪ newTags) \ goneTags, (scope.2 ∪ goneTags) \ newTags)

end TagsMixin

/-! ## Collapsing decorators -/

/-- `TagCollapsingDecorator`. Its hook flushes the tags before every call but
that of `tags`. -/
def tagCollapsingDecorator : Transducer TagsMixin (Call T E D) (Call T E D) where
  step m call :=
    match call with
    | .tags newTags goneTags => (m.tags newTags goneTags, [])
    | call =>
      let flushed := m.flushCurrentScope
      (flushed.1, flushed.2 ++ [call])

/-- The attributes of a `TimeCollapsingDecorator`. -/
structure Times where
  lastReceivedTime : Option DateTime := none
  lastSentTime : Option DateTime := none
  deriving DecidableEq

namespace Times

/-- `_before_event`, with the call it makes. -/
def beforeEvent (s : Times) : Times × List (Call T E D) :=
  match s.lastReceivedTime with
  | none => (s, [])
  | some received =>
    if some received ≠ s.lastSentTime then
      ({ lastReceivedTime := none, lastSentTime := some received }, [.time received])
    else ({ s with lastReceivedTime := none }, [])

/-- `time` -/
def time (s : Times) (aTime : DateTime) : Times × List (Call T E D) :=
  match s.lastReceivedTime with
  | none => ({ lastReceivedTime := some aTime, lastSentTime := some aTime }, [.time aTime])
  | some _ => ({ s with lastReceivedTime := some aTime }, [])

end Times

/-- `TimeCollapsingDecorator`. A `HookedTestResultDecorator` has no hook for
`tags`. -/
def timeCollapsingDecorator : Transducer Times (Call T E D) (Call T E D) where
  step s call :=
    match call with
    | .time aTime => s.time aTime
    | .tags newTags goneTags => (s, [.tags newTags goneTags])
    | call =>
      let before := s.beforeEvent
      (before.1, before.2 ++ [call])

/-! ## Hooks -/

/-- The other methods of a result that a `HookedTestResultDecorator` hooks. -/
inductive RunEvent where
  | startTestRun
  | stopTestRun
  | wasSuccessful
  | shouldStop
  | stop
  deriving DecidableEq

/-- Anything that a decorator is told. -/
inductive Event (T E D : Type) where
  | call (call : Call T E D)
  | run (event : RunEvent)
  deriving DecidableEq

/-- A decorator of calls on all events: before any but a call its hook is run. -/
def hooked {σ : Type} (decorator : Transducer σ (Call T E D) (Call T E D))
    (beforeEvent : σ → σ × List (Call T E D)) : Transducer σ (Event T E D) (Event T E D) where
  step s event :=
    match event with
    | .call call =>
      let sent := decorator.step s call
      (sent.1, sent.2.map .call)
    | .run event =>
      let before := beforeEvent s
      (before.1, before.2.map .call ++ [.run event])

/-- `TagCollapsingDecorator` -/
def tagCollapsing : Transducer TagsMixin (Event T E D) (Event T E D) :=
  hooked tagCollapsingDecorator TagsMixin.flushCurrentScope

/-- `TimeCollapsingDecorator` -/
def timeCollapsing : Transducer Times (Event T E D) (Event T E D) :=
  hooked timeCollapsingDecorator Times.beforeEvent

/-! ## Predicates -/

/-- A predicate of a test, the name of its outcome, the error or reason, the
details and the tags. -/
abbrev Predicate (T E D : Type) := T → String → Option E → Option D → Finset String → Bool

/-- What a user passes as `filter_predicate`: its answers to five arguments,
`none` where it raises `TypeError`, and those to four. -/
structure FilterPredicate (T E D : Type) where
  withTags : T → String → Option E → Option D → Finset String → Option Bool
  withoutTags : T → String → Option E → Option D → Bool

/-- `compat` -/
def FilterPredicate.compat (p : FilterPredicate T E D) : Predicate T E D :=
  fun test outcome error details tags =>
    match p.withTags test outcome error details tags with
    | some answer => answer
    | none => p.withoutTags test outcome error details

/-- `and_predicates` -/
def andPredicates (predicates : List (Predicate T E D)) : Predicate T E D :=
  fun test outcome error details tags =>
    predicates.all fun p => p test outcome error details tags

namespace Outcome

/-- The name that predicates are given; they are not asked about an unexpected
success. -/
def name : Outcome E D → Option String
  | .error _ => some "error"
  | .failure _ => some "failure"
  | .skip _ => some "skip"
  | .xfail _ => some "expectedfailure"
  | .success _ => some "success"
  | .uxsuccess _ => none

/-- `err`, or `reason` of a skip. -/
def err : Outcome E D → Option E
  | .error (.err e) => some e
  | .failure (.err e) => some e
  | .skip (.err e) => some e
  | .xfail (.err e) => some e
  | _ => none

/-- `details` -/
def details : Outcome E D → Option D
  | .error (.details d) => some d
  | .failure (.details d) => some d
  | .skip (.details d) => some d
  | .xfail (.details d) => some d
  | .success details => details
  | .uxsuccess details => details
  | _ => none

/-- The outcome as a known failure has it. -/
def expected : Outcome E D → Outcome E D
  | .error why => .xfail why
  | .failure why => .xfail why
  | .success details => .uxsuccess details
  | outcome => outcome

/-- An unexpected success passes, any other outcome if the predicate says so. -/
def passes (predicate : Predicate T E D) (outcome : Outcome E D) (test : T)
    (tags : Finset String) : Bool :=
  match outcome.name with
  | none => true
  | some name => predicate test name outcome.err outcome.details tags

end Outcome

/-! ## _PredicateFilter -/

/-- The attributes of a `_PredicateFilter`. -/
structure PredicateFilter (T E D : Type) extends TagsMixin where
  currentTest : Option T := none
  currentTestFiltered : Option Bool := none
  bufferedCalls : List (Call T E D) := []

namespace PredicateFilter

variable (f : PredicateFilter T E D)

def startTest (test : T) : PredicateFilter T E D :=
  { toTagsMixin := f.toTagsMixin.startTest
    currentTest := some test
    currentTestFiltered := some false
    bufferedCalls := f.bufferedCalls ++ [.startTest test] }

/-- `addError`, `addFailure`, `addSkip`, `addExpectedFailure`, `addSuccess` and
`addUnexpectedSuccess` -/
def addOutcome (predicate : Predicate T E D) (outcome : Outcome E D) (test : T) :
    PredicateFilter T E D :=
  if outcome.passes predicate test f.getActiveTags then
    { f with bufferedCalls := f.bufferedCalls ++ [.outcome outcome test] }
  else { f with currentTestFiltered := some true }

def stopTest (test : T) : PredicateFilter T E D × List (Call T E D) :=
  ({ toTagsMixin := f.toTagsMixin.stopTest },
    if f.currentTestFiltered ≠ some true then f.bufferedCalls ++ [.stopTest test] else [])

def tags (newTags goneTags : Finset String) : PredicateFilter T E D × List (Call T E D) :=
  let f' := { f with toTagsMixin := f.toTagsMixin.tags newTags goneTags }
  if f.currentTest.isSome then
    ({ f' with bufferedCalls := f.bufferedCalls ++ [.tags newTags goneTags] }, [])
  else (f', [.tags newTags goneTags])

end PredicateFilter

/-- `_PredicateFilter` -/
def predicateFilter (predicate : Predicate T E D) :
    Transducer (PredicateFilter T E D) (Call T E D) (Call T E D) where
  step f call :=
    match call with
    | .startTest test => (f.startTest test, [])
    | .outcome outcome test => (f.addOutcome predicate outcome test, [])
    | .stopTest test => f.stopTest test
    | .tags newTags goneTags => f.tags newTags goneTags
    | .progress offset whence => (f, [.progress offset whence])
    | .time aTime => (f, [.time aTime])

/-! ## TestResultFilter -/

/-- The arguments of a `TestResultFilter`. -/
structure Options (T E D : Type) where
  filterError : Bool := false
  filterFailure : Bool := false
  filterSuccess : Bool := true
  filterSkip : Bool := false
  filterXfail : Bool := false
  filterPredicate : Option (FilterPredicate T E D) := none
  fixupExpectedFailures : Option (Finset String) := none

namespace Options

variable (o : Options T E D) (id : T → String)

/-- `lambda t, outcome, e, d, tags: outcome != name` -/
def isNot (name : String) : Predicate T E D := fun _ outcome _ _ _ => outcome != name

def predicates : List (Predicate T E D) :=
  (if o.filterError then [isNot "error"] else [])
    ++ (if o.filterFailure then [isNot "failure"] else [])
    ++ (if o.filterSuccess then [isNot "success"] else [])
    ++ (if o.filterSkip then [isNot "skip"] else [])
    ++ (if o.filterXfail then [isNot "expectedfailure"] else [])
    ++ o.filterPredicate.toList.map FilterPredicate.compat

def predicate : Predicate T E D := andPredicates o.predicates

/-- `_failure_expected` -/
def failureExpected (test : T) : Bool := id test ∈ o.fixupExpectedFailures.getD ∅

/-- What the filter makes of an outcome. -/
def fixup (outcome : Outcome E D) (test : T) : Outcome E D :=
  if o.failureExpected id test then outcome.expected else outcome

/-- `TestResultFilter`, up to the filter that it decorates. -/
def fixupCall : Call T E D → Call T E D
  | .outcome outcome test => .outcome (o.fixup id outcome test) test
  | call => call

end Options

/-- `TestResultFilter`, with all the decorators that it is made of. -/
def testResultFilter (o : Options T E D) (id : T → String) :
    Transducer (Unit × PredicateFilter T E D × Times × TagsMixin) (Call T E D) (Call T E D) :=
  (Transducer.map (o.fixupCall id)).comp
    ((predicateFilter o.predicate).comp (timeCollapsingDecorator.comp tagCollapsingDecorator))

/-- The calls that a decorated result receives in a run of a new filter. -/
def filterRun (o : Options T E D) (id : T → String) (calls : List (Call T E D)) :
    List (Call T E D) :=
  ((testResultFilter o id).run ((), {}, {}, {}) calls).2

end Decorators

end Pysubunit.Filter
