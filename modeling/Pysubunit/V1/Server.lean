/-
Pysubunit.V1.Server — the version 1 parser (`TestProtocolServer` and its state
objects in `__init__.py`).

A line is given to the object that `_state` refers to. The three kinds of
state object are `State`; a state that reads details holds its parser, since
`set_simple()` and `set_multipart()` make a new one whenever such a state
is entered. What a line makes the server do is an `Effect`: the calls of the
client and the writes to the two streams in their order, the server afterwards
and the exception that ended it, if any. Work done before an exception is kept.

The client is an extended test result, so `ExtendedToOriginalDecorator` hands
every call on as it is. `parseDate` stands for `dateutil.parser.parse`.
-/
import Pysubunit.V1.Details

namespace Pysubunit.V1

open ByteLib

/-- `_state`: one of the state objects of the server. -/
inductive State where
  | outsideTest
  | inTest
  | readingDetails (outcome : Outcome) (detailsParser : DetailsParser)
  deriving DecidableEq

/-- An attribute that `__init__` does not set: until it is, reading it raises. -/
inductive Attribute (α : Type) where
  | unset
  | none
  | some (value : α)
  deriving DecidableEq

/-- The attributes of a `TestProtocolServer` that lines change. `_current_test` is
unset too at first, but it is set with `current_test_description`, which is always
read before it. -/
structure Server where
  state : State := .outsideTest
  currentTest : Option RemotedTestCase := none
  currentTestDescription : Attribute String := .unset
  deriving DecidableEq

/-- What a server does to the objects it was given. -/
inductive Output where
  | call (call : Call)
  /-- `subunitLineReceived(line)` -/
  | subunit (line : Bytes)
  /-- `stdOutLineReceived(line)` -/
  | stdOut (line : Bytes)
  /-- `addError(None, RemoteError(description))` and `stopTest(None)` -/
  | lostNone (description : String)
  deriving DecidableEq

/-- What becomes of a server, and what it has done. -/
structure Effect where
  server : Server
  outputs : List Output := []
  raised : Option Error := none
  deriving DecidableEq

/-! ## Outcomes -/

/-- The label of a state that reads details, `_outcome_label()`. -/
def Outcome.label : Outcome → String
  | .error => "error"
  | .failure => "failure"
  | .skip => "skip"
  | .success => "success"
  | .xfail => "xfail"
  | .uxsuccess => "uxsuccess"

/-- The style that `_report_outcome` asks `get_details` for. -/
def Outcome.style : Outcome → Option String
  | .skip => some "skip"
  | .success => some "success"
  | _ => none

/-- The details of a line that brings none: `_uxsuccess` passes no dict, the
others an empty one. -/
def Outcome.noDetails : Outcome → Option Details
  | .uxsuccess => none
  | _ => some ∅

/-- The directives of the parser's commands. -/
inductive Command where
  | startTest
  | outcome (outcome : Outcome)
  | progress
  | tags
  | time
  deriving DecidableEq, Repr

/-- The command that a first word names. The symbols are tuples, apart from
`_skip_sym`, which is a byte string: every part of it names the command. -/
def commandOf (cmd : Bytes) : Option Command :=
  if cmd = ascii "test" ∨ cmd = ascii "testing" then some .startTest
  else if cmd = ascii "error" then some (.outcome .error)
  else if cmd = ascii "failure" then some (.outcome .failure)
  else if cmd = ascii "progress" then some .progress
  else if cmd <:+: ascii "skip" then some (.outcome .skip)
  else if cmd = ascii "success" ∨ cmd = ascii "successful" then some (.outcome .success)
  else if cmd = ascii "tags" then some .tags
  else if cmd = ascii "time" then some .time
  else if cmd = ascii "xfail" then some (.outcome .xfail)
  else if cmd = ascii "uxsuccess" then some (.outcome .uxsuccess)
  else none

/-- The command of a line with the offset of what follows its first word and
one separator, if the line is a directive. -/
def directive (line : Bytes) : Option (Command × Nat) :=
  match splitFirst line with
  | [first, _] =>
    if first <+: line then
      (commandOf (first.rdropWhile fun b => b == 58)).map fun command => (command, first.length + 1)
    else none
  | _ => none

/-- `tags_to_new_gone` -/
def tagsToNewGone : List (List Char) → Finset String × Finset String
  | [] => (∅, ∅)
  | tag :: tags =>
    let others := tagsToNewGone tags
    match tag with
    | '-' :: gone => (others.1, insert (String.ofList gone) others.2)
    | _ => (insert (String.ofList tag) others.1, others.2)

/-- The whence and the offset of a progress directive. -/
def progressOf (argument : Bytes) : Except Error (Option Int × Whence) :=
  let delta : Except Error Int :=
    match intOf 10 argument with
    | some n => .ok n
    | none => .error (.valueError (.bytes "invalid literal for int() with base 10: %r" argument))
  match argument with
  | [] => .error .indexError
  | b :: _ =>
    if b = 43 ∨ b = 45 then delta.map fun n => (some n, .cur)
    else if argument = ascii "push" then .ok (none, .push)
    else if argument = ascii "pop" then .ok (none, .pop)
    else delta.map fun n => (some n, .set)

namespace Server

/-- `" ["` and `" [ multipart"` -/
def startSimple : String := " ["
def startMultipart : String := " [ multipart"

variable (parseDate : Bytes → Except Error DateTime) (s : Server)

def raises (e : Error) : Effect := { server := s, raised := some e }

def stdOutLineReceived (line : Bytes) : Effect := { server := s, outputs := [.stdOut line] }

/-- Calls on the current test, which there is wherever there is a description. -/
def onCurrentTest (call : RemotedTestCase → Call) : List Output :=
  match s.currentTest with
  | some test => [.call (call test)]
  | none => []

/-- `_handleProgress` -/
def handleProgress (offset : Nat) (line : Bytes) : Effect :=
  match progressOf (strip (line.drop offset)) with
  | .error e => s.raises e
  | .ok (delta, whence) => { server := s, outputs := [.call (.progress delta whence)] }

/-- `_handleTags`, and `subunitLineReceived(line)` -/
def handleTags (offset : Nat) (line : Bytes) : Effect :=
  match Utf8.decodeString (line.drop offset) with
  | none => s.raises .unicodeDecodeError
  | some text =>
    let (newTags, goneTags) := tagsToNewGone (words text.toList)
    { server := s, outputs := [.call (.tags newTags goneTags), .subunit line] }

/-- `_handleTime`, and `subunitLineReceived(line)` -/
def handleTime (offset : Nat) (line : Bytes) : Effect :=
  match parseDate (dropLastBytes (line.drop offset) 1) with
  | .error (.typeError _) => s.raises (.typeError (.bytes "Failed to parse %r, got %r" line))
  | .error (.valueError _) => s.raises (.typeError (.bytes "Failed to parse %r, got %r" line))
  | .error e => s.raises e
  | .ok eventTime => { server := s, outputs := [.call (.time eventTime), .subunit line] }

/-- `_OutSideTest.startTest`: the state is changed before the line is
decoded. -/
def startTest (offset : Nat) (line : Bytes) : Effect :=
  match decodeLine (line.drop offset) with
  | .error e => { s with state := .inTest }.raises e
  | .ok testName =>
    { server := ⟨.inTest, some ⟨testName⟩, .some testName⟩
      outputs := [.call (.startTest ⟨testName⟩), .subunit line] }

/-- `_InTest._outcome` -/
def outcome (outcome : Outcome) (offset : Nat) (line : Bytes) : Effect :=
  match decodeLine (line.drop offset) with
  | .error e => s.raises e
  | .ok testName =>
    match s.currentTestDescription with
    | .unset => s.raises (.attributeError "current_test_description")
    -- `None + " ["`
    | .none => s.raises (.typeError (.text "unsupported operand type(s) for +"))
    | .some description =>
      if description = testName then
        { server := ⟨.outsideTest, none, .none⟩
          outputs := s.onCurrentTest (.outcome outcome · outcome.noDetails)
            ++ s.onCurrentTest .stopTest ++ [.subunit line] }
      else if description ++ startSimple = testName then
        { server := { s with state := .readingDetails outcome .newSimple }
          outputs := [.subunit line] }
      else if description ++ startMultipart = testName then
        { server := { s with state := .readingDetails outcome .newMultipart }
          outputs := [.subunit line] }
      else s.stdOutLineReceived line

/-- `_ReadingDetails.endDetails`, the parser having the details. -/
def endDetails (outcome : Outcome) (detailsParser : DetailsParser) : Effect :=
  { server := { s with state := .outsideTest, currentTestDescription := .none }
    outputs :=
      s.onCurrentTest (.outcome outcome · (some (detailsParser.getDetails outcome.style)))
        ++ s.onCurrentTest .stopTest }

/-- `_ReadingDetails.lineReceived` -/
def detailsLineReceived (outcome : Outcome) (detailsParser : DetailsParser) (line : Bytes) :
    Effect :=
  let received := detailsParser.lineReceived line
  let going : Server := { s with state := .readingDetails outcome received.parser }
  match received.result with
  | .error e => going.raises e
  | .ok false => { server := going, outputs := [.subunit line] }
  | .ok true =>
    let ended := s.endDetails outcome received.parser
    { ended with outputs := ended.outputs ++ [.subunit line] }

/-- `lineReceived` of the states outside a details region. `_OutSideTest` has
no `addUnexpectedSuccess`, and `startTest` and the outcomes write the line
to the stream where a state does not override them. -/
def commandReceived (inTest : Bool) (line : Bytes) : Effect :=
  match directive line with
  | none => s.stdOutLineReceived line
  | some (.startTest, offset) =>
    if inTest then s.stdOutLineReceived line else s.startTest offset line
  | some (.outcome label, offset) =>
    if inTest then s.outcome label offset line
    else if label = .uxsuccess then s.raises (.attributeError "addUnexpectedSuccess")
    else s.stdOutLineReceived line
  | some (.progress, offset) => s.handleProgress offset line
  | some (.tags, offset) => s.handleTags offset line
  | some (.time, offset) => s.handleTime parseDate offset line

/-- `lineReceived` -/
def lineReceived (line : Bytes) : Effect :=
  match s.state with
  | .outsideTest => s.commandReceived parseDate false line
  | .inTest => s.commandReceived parseDate true line
  | .readingDetails label detailsParser => s.detailsLineReceived label detailsParser line

/-- `_lostConnectionInTest`, of that description. Behind a `test` line that raised there
may be no test, or still the one before it. -/
def lostTest (stateString description : String) : Effect :=
  let errorString := "lost connection during " ++ stateString ++ "test '" ++ description ++ "'"
  { server := s
    outputs :=
      match s.currentTest with
      | some test => [.call (.remoteError test errorString), .call (.stopTest test)]
      | none => [.lostNone errorString] }

/-- `_lostConnectionInTest` -/
def lostConnectionInTest (stateString : String) : Effect :=
  match s.currentTestDescription with
  | .unset => s.raises (.attributeError "current_test_description")
  | .none => s.lostTest stateString "None"
  | .some description => s.lostTest stateString description

/-- `lostConnection` -/
def lostConnection : Effect :=
  match s.state with
  | .outsideTest => { server := s }
  | .inTest => s.lostConnectionInTest ""
  | .readingDetails outcome _ => s.lostConnectionInTest (outcome.label ++ " report of ")

/-- `lineReceived` for each line, up to the first that raises. -/
def linesReceived : Server → List Bytes → Effect
  | s, [] => { server := s }
  | s, line :: lines =>
    let first := s.lineReceived parseDate line
    match first.raised with
    | some _ => first
    | none =>
      let rest := linesReceived first.server lines
      { rest with outputs := first.outputs ++ rest.outputs }

/-- `readFrom`: every line of a pipe, then the end of the connection. -/
def readFrom (pipe : Bytes) : Effect :=
  let read := s.linesReceived parseDate (lines pipe)
  match read.raised with
  | some _ => read
  | none =>
    let lost := read.server.lostConnection
    { lost with outputs := read.outputs ++ lost.outputs }

end Server

end Pysubunit.V1
