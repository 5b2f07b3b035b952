/-
Pysubunit.Tap.Tap2SubUnit — `TAP2SubUnit` (`__init__.py`): a TAP script is turned
into status events.

The regular expressions of the loop are patterns with the same groups, matched as
`re.match` does. The local variables of the function are `Locals`.
What a line does is the calls of `output.status` that it leads to, and the
variables afterwards or the exception that is raised; a call that raises ends the
function too, which `tap2SubUnit` adds. A line is a list of characters.
-/
import Pysubunit.ByteLib.Pattern
import Pysubunit.ByteLib.Words
import Pysubunit.V2.Writer

namespace Pysubunit.Tap

open ByteLib
open ByteLib.Pattern (literal either optional many many1)
open V2 (StatusEvent TestStatus StatusCall PartialWrites OutputStream)

/-! ## Characters -/

/-- The zeros of the decimal digits of Unicode 9.0, which is that of Python 3.6. -/
def decimalZeros : List Nat :=
  [0x30, 0x660, 0x6F0, 0x7C0, 0x966, 0x9E6, 0xA66, 0xAE6, 0xB66, 0xBE6, 0xC66, 0xCE6, 0xD66, 0xDE6,
    0xE50, 0xED0, 0xF20, 0x1040, 0x1090, 0x17E0, 0x1810, 0x1946, 0x19D0, 0x1A80, 0x1A90, 0x1B50,
    0x1BB0, 0x1C40, 0x1C50, 0xA620, 0xA8D0, 0xA900, 0xA9D0, 0xA9F0, 0xAA50, 0xABF0, 0xFF10, 0x104A0,
    0x11066, 0x110F0, 0x11136, 0x111D0, 0x112F0, 0x11450, 0x114D0, 0x11650, 0x116C0, 0x11730,
    0x118E0, 0x11C50, 0x16A60, 0x16B50, 0x1D7CE, 0x1D7D8, 0x1D7E2, 0x1D7EC, 0x1D7F6, 0x1E950]

/-- The value of a decimal digit. -/
def decimalValue (c : Char) : Option Nat :=
  (decimalZeros.find? fun z => z ≤ c.toNat && c.toNat < z + 10).map fun z => c.toNat - z

/-- `\d` -/
def isDecimal (c : Char) : Bool := (decimalValue c).isSome

/-- `int(digits)`, of a group `\d+`. -/
def intOfDigits (digits : List Char) : Nat :=
  digits.foldl (fun n c => n * 10 + (decimalValue c).getD 0) 0

/-- `.` -/
def isDot (c : Char) : Bool := c != '\n'

/-! ## Patterns -/

def newline : Pattern Char (List Char) := literal ['\n']

/-- `(\d+)\.\.(\d+)\s*(?:\#\s+(.*))?\n`, without its first group. -/
def planPattern : Pattern Char (List Char × Option (List Char)) := do
  let _ ← many1 isDecimal
  let _ ← literal ['.', '.']
  let planStop ← many1 isDecimal
  let _ ← many isSpaceChar
  let comment ← optional (do
    let _ ← literal ['#']
    let _ ← many1 isSpaceChar
    many isDot)
  let _ ← newline
  return (planStop, comment)

/-- The groups of a result line. -/
structure ResultLine where
  status : List Char
  number : Option (List Char)
  description : Option (List Char)
  directive : Option (List Char)
  directiveComment : Option (List Char)
  deriving DecidableEq

/-- `(ok|not ok)` -/
def statusPattern : Pattern Char (List Char) := either (literal "ok".toList) (literal "not ok".toList)

/-- `(?:\s+(\d+)?)?` -/
def numberPattern : Pattern Char (Option (List Char)) := do
  let group ← optional (do
    let _ ← many1 isSpaceChar
    optional (many1 isDecimal))
  return group.join

/-- `(?:\s+([^#]*[^#\s]+)\s*)?` -/
def descriptionPattern : Pattern Char (Option (List Char)) :=
  optional (do
    let _ ← many1 isSpaceChar
    let start ← many fun c => c != '#'
    let stop ← many1 fun c => c != '#' && !isSpaceChar c
    let _ ← many isSpaceChar
    return start ++ stop)

/-- `(TODO|SKIP|skip|todo)` -/
def directiveWord : Pattern Char (List Char) :=
  either (literal "TODO".toList) (either (literal "SKIP".toList)
    (either (literal "skip".toList) (literal "todo".toList)))

/-- `(?:\s+(.*))?` -/
def directiveComment : Pattern Char (Option (List Char)) :=
  optional (do
    let _ ← many1 isSpaceChar
    many isDot)

/-- `(?:\s+#\s+(TODO|SKIP|skip|todo)(?:\s+(.*))?)?` -/
def directivePattern : Pattern Char (Option (List Char × Option (List Char))) :=
  optional (do
    let _ ← many1 isSpaceChar
    let _ ← literal ['#']
    let _ ← many1 isSpaceChar
    let directive ← directiveWord
    let comment ← directiveComment
    return (directive, comment))

/-- The pattern of a result line. -/
def resultPattern : Pattern Char ResultLine := do
  let status ← statusPattern
  let number ← numberPattern
  let description ← descriptionPattern
  let directive ← directivePattern
  let _ ← newline
  return {
    status, number, description
    directive := directive.map Prod.fst
    directiveComment := directive.bind Prod.snd }

/-- `Bail out\!(?:\s*(.*))?\n` -/
def bailOutPattern : Pattern Char (Option (List Char)) := do
  let _ ← literal "Bail out!".toList
  let reason ← optional (do
    let _ ← many isSpaceChar
    many isDot)
  let _ ← newline
  return reason

/-- `\#.*\n` -/
def commentPattern : Pattern Char Unit := do
  let _ ← literal ['#']
  let _ ← many isDot
  let _ ← newline
  return ()

/-! ## The function -/

/-- The values of `state`. -/
inductive Stage where
  | beforePlan
  | afterPlan
  | skipStream
  deriving DecidableEq, Repr

/-- What a line is taken for, with the groups of the pattern. -/
inductive Reading where
  | plan (planStop : List Char) (comment : Option (List Char))
  | result (groups : ResultLine)
  | bailOut (reason : Option (List Char))
  | comment
  | other
  deriving DecidableEq

/-- The matches of the loop, in their order. -/
def readLine (state : Stage) (line : List Char) : Reading :=
  match if state = .beforePlan then planPattern.first line else none with
  | some (planStop, comment) => .plan planStop comment
  | none =>
    match resultPattern.first line with
    | some groups => .result groups
    | none =>
      match bailOutPattern.first line with
      | some reason => .bailOut reason
      | none => if (commentPattern.first line).isSome then .comment else .other

/-- The local variables. -/
structure Locals where
  state : Stage := .beforePlan
  planStart : Nat := 1
  planStop : Nat := 0
  testName : Option String := none
  log : List (List Char) := []
  result : Option TestStatus := none

/-- An exception that leaves the function. -/
inductive Raised where
  /-- `None` has no `encode`. -/
  | attributeError
  /-- of `output.status` -/
  | status (e : V2.Error)
  deriving DecidableEq

/-- `UTF8_TEXT` -/
def utf8Text : String := "text/plain; charset=UTF8"

/-- `"test %d%s"` -/
def numberedName (number : Nat) (description : List Char) : String :=
  "test " ++ toString number ++ String.ofList description

/-- `missing_test` -/
def missingTest (planStart : Nat) : StatusEvent where
  testId := some (numberedName planStart [])
  testStatus := some .fail
  runnable := false
  mimeType := some utf8Text
  eof := true
  fileName := some "tap meta"
  fileBytes := some (ascii "test missing from TAP output")

/-- `while plan_start < stop` -/
def missingTests (planStart stop : Nat) : List StatusEvent :=
  (List.range' planStart (stop - planStart)).map missingTest

/-- The event of a plan for no tests. -/
def fileSkip (comment : List Char) : StatusEvent where
  testId := some "file skip"
  testStatus := some .skip
  fileBytes := some (Utf8.encode comment)
  eof := true
  fileName := some "tap comment"

/-- The event of a line that is none of TAP. -/
def stdOut (line : List Char) : StatusEvent where
  fileBytes := some (Utf8.encode line)
  fileName := some "stdout"
  mimeType := some utf8Text

/-- `log_bytes` -/
def logBytes (log : List (List Char)) : Bytes := [10].intercalate (log.map Utf8.encode)

/-- The event of a test with its log. -/
def testEvent (testName : String) (result : Option TestStatus) (log : List (List Char)) :
    StatusEvent :=
  if log.isEmpty then { testId := testName, testStatus := result, eof := true, runnable := false }
  else
    { testId := testName
      testStatus := result
      fileBytes := some (logBytes log)
      mimeType := some utf8Text
      eof := true
      fileName := some "tap comment"
      runnable := false }

namespace ResultLine

variable (groups : ResultLine)

/-- `result` -/
def testStatus : TestStatus :=
  let result := if groups.status = "ok".toList then .success else .fail
  match groups.directive with
  | none => result
  | some directive =>
    if directive.map Char.toUpper = "TODO".toList then .xfail
    else if directive.map Char.toUpper = "SKIP".toList then .skip
    else result

/-- `description`, with a blank in front. -/
def suffix : List Char :=
  match groups.description with
  | none => []
  | some description => ' ' :: description

/-- What is appended to the log. -/
def logged : List (List Char) :=
  if groups.directive.isSome then groups.directiveComment.toList else []

/-- The number that the line gives, or 0. -/
def givenNumber : Nat := (groups.number.map intOfDigits).getD 0

end ResultLine

namespace Locals

variable (t : Locals)

/-- `_emit_test` -/
def emitTest : List StatusEvent × Locals :=
  match t.testName with
  | none => ([], t)
  | some testName => ([testEvent testName t.result t.log], { t with log := [] })

def plan (planStop : List Char) (comment : Option (List Char)) :
    List StatusEvent × Except Raised Locals :=
  let stop := intOfDigits planStop
  if stop < t.planStart ∧ stop = 0 then
    match comment with
    | none => ([], .error .attributeError)
    | some comment => ([fileSkip comment], .ok { t with state := .skipStream, planStop := stop })
  else ([], .ok { t with state := .afterPlan, planStop := stop })

def testLine (groups : ResultLine) : List StatusEvent × Locals :=
  let (calls, t) := t.emitTest
  let number := max t.planStart groups.givenNumber
  (calls ++ missingTests t.planStart groups.givenNumber,
    { t with
      log := t.log ++ groups.logged
      result := some groups.testStatus
      testName := some (numberedName number groups.suffix)
      planStart := number + 1 })

def bailOut (reason : Option (List Char)) : List StatusEvent × Locals :=
  let (calls, t) := t.emitTest
  let extra := match reason with
    | none => []
    | some reason => ' ' :: reason
  (calls,
    { t with
      testName := some ("Bail out!" ++ String.ofList extra)
      result := some .fail
      state := .skipStream })

/-- The body of the loop. -/
def handle (line : List Char) : List StatusEvent × Except Raised Locals :=
  match readLine t.state line with
  | .plan planStop comment => t.plan planStop comment
  | .result groups => ((t.testLine groups).1, .ok (t.testLine groups).2)
  | .bailOut reason => ((t.bailOut reason).1, .ok (t.bailOut reason).2)
  | .comment => ([], .ok { t with log := t.log ++ [line.dropLast] })
  | .other => ([stdOut line], .ok t)

/-- What follows the loop. -/
def finish : List StatusEvent :=
  t.emitTest.1 ++ missingTests t.planStart (t.planStop + 1)

/-- The loop and what follows it: the calls, as long as none of them raises, and the
exception that is raised behind them. -/
def events : Locals → List (List Char) → List StatusEvent × Except Raised Unit
  | t, [] => (t.finish, .ok ())
  | t, line :: lines =>
    match t.handle line with
    | (calls, .error e) => (calls, .error e)
    | (calls, .ok t) => (calls ++ (events t lines).1, (events t lines).2)

end Locals

/-- The call of `output.status` for an event, which never has tags. -/
def statusCall (e : StatusEvent) : StatusCall where
  event := { e with testTags := none }
  tagOrder := []
  tagOrder_enumerates := V2.noTags_enumerates

/-- Make the calls, until one raises. -/
def writeAll (w : PartialWrites) : OutputStream → List StatusEvent → Except V2.Error Unit × OutputStream
  | out, [] => (.ok (), out)
  | out, e :: events =>
    match V2.status w out (statusCall e) with
    | (.error x, out) => (.error x, out)
    | (.ok (), out) => writeAll w out events

/-- `TAP2SubUnit(tap, output_stream)` -/
def tap2SubUnit (w : PartialWrites) (out : OutputStream) (tap : List (List Char)) :
    Except Raised Nat × OutputStream :=
  let events := Locals.events {} tap
  match writeAll w out events.1 with
  | (.error x, out) => (.error (.status x), out)
  | (.ok (), out) => (events.2.map fun _ => 0, out)

/-- The events that are written. -/
def emitted (tap : List (List Char)) : List StatusEvent :=
  (Locals.events {} tap).1.takeWhile fun e =>
    match V2.writePacket (statusCall e) with
    | .ok _ => true
    | .error _ => false

example : (Locals.events {} ["1..2\n".toList, "# a\n".toList, "ok 2 - b # TODO c\n".toList]).1.map
    (fun e => (e.testId, e.testStatus, e.fileBytes))
    = [(some "test 1", some .fail, some (ascii "test missing from TAP output")),
        (some "test 2 - b", some .xfail, some (ascii "# a\nc"))] := by
  decide +kernel

end Pysubunit.Tap
