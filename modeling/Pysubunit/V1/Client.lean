/-
Pysubunit.V1.Client — the version 1 writer (`TestProtocolClient` in
`__init__.py`).

Each call is turned into the bytes it writes to the stream, or the exception
it raises; what a call that raises has written before is left out. A Python
set is written in the order in which it is iterated, which nothing fixes:
`setOrder` stands for it. `traceback` stands for the pieces of
`testtools.content.TracebackContent`.
-/
import Mathlib.Data.Finset.Sort
import Mathlib.Data.Finset.Union
import Mathlib.Data.String.Basic
import Pysubunit.V1.Chunked

namespace Pysubunit.V1

open ByteLib

namespace Client

/-- `compat._b`: Latin-1. -/
def latin1 (s : String) : Except Error Bytes :=
  if s.toList.all fun c => c.toNat < 256 then .ok (ascii s) else .error .unicodeEncodeError

/-- `str(n)` -/
def decimal (n : Int) : Bytes :=
  if n < 0 then 45 :: numeral 10 n.natAbs else numeral 10 n.natAbs

/-- `"%0{width}d" % n` -/
def padded (width n : Nat) : Bytes :=
  List.replicate (width - (numeral 10 n).length) 48 ++ numeral 10 n

/-- `_test_id` -/
def testId (test : RemotedTestCase) : Bytes := Utf8.encode test.description.toList

/-- `sorted(details.items())` -/
def sortedItems (details : Details) : List (String × Content) :=
  details.keys.sort.filterMap fun name => (details.lookup name).map fun content => (name, content)

/-- The parameters of a content type. -/
def writeParameters (parameters : List (String × String)) : Except Error Bytes :=
  if parameters.isEmpty then .ok []
  else
    match latin1 (",".intercalate (parameters.map fun p => p.1 ++ "=" ++ p.2)) with
    | .error e => .error e
    | .ok written => .ok (59 :: written)

/-- One item of `_write_details`. -/
def writePart (name : String) (content : Content) : Except Error Bytes := do
  let contentType ← latin1 ("Content-Type: " ++ content.contentType.type ++ "/"
    ++ content.contentType.subtype)
  let parameters ← writeParameters content.contentType.parameters
  let name ← latin1 ("\n" ++ name ++ "\n")
  return contentType ++ parameters ++ name ++ Encoder.encode {} content.iterBytes

def writeParts : List (String × Content) → Except Error Bytes
  | [] => .ok []
  | (name, content) :: items => do
    let part ← writePart name content
    let parts ← writeParts items
    return part ++ parts

/-- `_write_details` -/
def writeDetails (details : Details) : Except Error Bytes := do
  let parts ← writeParts (sortedItems details)
  return ascii " [ multipart\n" ++ parts

/-- What `_addOutcome` writes behind the test id; an `error` is given by the
pieces of its traceback. -/
def outcomeBody (error : Option (List Bytes)) (details : Option Details) : Except Error Bytes :=
  match error, details with
  | some pieces, _ => .ok (ascii " [\n" ++ pieces.flatten)
  | none, some details => writeDetails details
  | none, none => .ok (ascii "\n")

/-- `_addOutcome` -/
def addOutcome (outcome : String) (test : RemotedTestCase) (error : Option (List Bytes))
    (details : Option Details) (errorPermitted : Bool) : Except Error Bytes := do
  let outcome ← latin1 (outcome ++ ": ")
  if errorPermitted ∧ error.isNone ∧ details.isNone then .error (.valueError (.text ""))
  else if ¬ errorPermitted ∧ error.isSome then .error (.valueError (.text ""))
  else
    let body ← outcomeBody error details
    let last := if details.isSome ∨ error.isSome then ascii "]\n" else []
    return outcome ++ testId test ++ body ++ last

section Outcomes

variable (test : RemotedTestCase) (error : Option (List Bytes)) (details : Option Details)

def addError : Except Error Bytes := addOutcome "error" test error details true

def addExpectedFailure : Except Error Bytes := addOutcome "xfail" test error details true

def addFailure : Except Error Bytes := addOutcome "failure" test error details true

def addSuccess : Except Error Bytes := addOutcome "successful" test none details false

def addUnexpectedSuccess : Except Error Bytes := addOutcome "uxsuccess" test none details false

/-- `addSkip`; with a reason, the text is written in Latin-1. -/
def addSkip (reason : Option String) : Except Error Bytes :=
  match reason with
  | none => addOutcome "skip" test none details true
  | some reason => do
    let head ← latin1 ("skip: " ++ test.description ++ " [\n")
    let text ← latin1 (reason ++ "\n")
    return head ++ text ++ ascii "]\n"

end Outcomes

def startTest (test : RemotedTestCase) : Bytes := ascii "test: " ++ testId test ++ ascii "\n"

/-- `progress`; an `offset` of `None` is no number to compare. -/
def progress (offset : Option Int) (whence : Whence) : Except Error Bytes :=
  let line (argument : Bytes) : Bytes := ascii "progress: " ++ argument ++ ascii "\n"
  match whence, offset with
  | .cur, some n => .ok (line (if -1 < n then 43 :: decimal n else decimal n))
  | .cur, none => .error (.typeError (.text "'>' not supported between instances"))
  | .push, _ => .ok (line (ascii "push"))
  | .pop, _ => .ok (line (ascii "pop"))
  | .set, some n => .ok (line (decimal n))
  | .set, none => .ok (line (ascii "None"))

/-- `tags` -/
def tags (setOrder : Finset Bytes → List Bytes) (newTags goneTags : Finset String) : Bytes :=
  if newTags = ∅ ∧ goneTags = ∅ then []
  else
    let tags := newTags.image (fun tag => Utf8.encode tag.toList)
      ∪ goneTags.image fun tag => 45 :: Utf8.encode tag.toList
    ascii "tags: " ++ [32].intercalate (setOrder tags) ++ ascii "\n"

/-- `time`, of a `datetime` in UTC. -/
def time (t : DateTime) : Bytes :=
  ascii "time: " ++ padded 4 t.year ++ ascii "-" ++ padded 2 t.month ++ ascii "-" ++ padded 2 t.day
    ++ ascii " " ++ padded 2 t.hour ++ ascii ":" ++ padded 2 t.minute ++ ascii ":"
    ++ padded 2 t.second ++ ascii "." ++ padded 6 t.microsecond ++ ascii "Z\n"

variable (setOrder : Finset Bytes → List Bytes) (traceback : String → List Bytes)

/-- What a call writes. -/
def write : Call → Except Error Bytes
  | .startTest test => .ok (startTest test)
  | .outcome .error test details => addError test none details
  | .outcome .failure test details => addFailure test none details
  | .outcome .skip test details => addSkip test details none
  | .outcome .success test details => addSuccess test details
  | .outcome .xfail test details => addExpectedFailure test none details
  | .outcome .uxsuccess test details => addUnexpectedSuccess test details
  | .remoteError test description => addError test (some (traceback description)) none
  | .stopTest _ => .ok []
  | .tags newTags goneTags => .ok (tags setOrder newTags goneTags)
  | .progress offset whence => progress offset whence
  | .time t => .ok (time t)

/-- What the stream holds after a list of calls. -/
def writeAll : List Call → Except Error Bytes
  | [] => .ok []
  | call :: calls => do
    let written ← write setOrder traceback call
    let rest ← writeAll calls
    return written ++ rest

end Client

end Pysubunit.V1
