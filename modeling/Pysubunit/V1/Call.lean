/-
Pysubunit.V1.Call — the calls a version 1 test result receives, and what they
carry (`__init__.py`, and the content types of `testtools`).

`TestProtocolClient` turns these calls into lines of bytes and
`TestProtocolServer` turns the lines into calls again. A details dict is a
`Finmap`: two dicts are equal when they map the same names to the same
contents, in whatever order the names were put in. A test is known by its
description, the only thing `RemotedTestCase` holds.
-/
import Mathlib.Data.Finmap
import Pysubunit.ByteLib.Bytes

namespace Pysubunit.V1

open ByteLib

/-- The text of an exception: a message, or one with the value it is about. -/
inductive Message where
  | text (message : String)
  | bytes (template : String) (value : Bytes)
  | string (template : String) (value : String)
  deriving DecidableEq, Repr

/-- The exceptions that the version 1 classes raise or let through. -/
inductive Error where
  | unicodeDecodeError
  | unicodeEncodeError
  | valueError (message : Message)
  | typeError (message : Message)
  | attributeError (name : String)
  | indexError
  | assertionError (message : Message)
  /-- An exception of a callee that no handler here names. -/
  | other
  deriving DecidableEq, Repr

/-- `testtools.content_type.ContentType`; the parameters in the order of
their dict. -/
structure ContentType where
  type : String
  subtype : String
  parameters : List (String × String) := []
  deriving DecidableEq, Repr

/-- `testtools.content.Content`, with the pieces that `iter_bytes()` yields. -/
structure Content where
  contentType : ContentType
  iterBytes : List Bytes
  deriving DecidableEq, Repr

/-- A details dict. -/
abbrev Details := Finmap fun _ : String => Content

/-- `RemotedTestCase` -/
structure RemotedTestCase where
  description : String
  deriving DecidableEq, Repr

/-- The outcomes of a test. -/
inductive Outcome where
  | error
  | failure
  | skip
  | success
  | xfail
  | uxsuccess
  deriving DecidableEq, Repr

/-- `PROGRESS_SET`, `PROGRESS_CUR`, `PROGRESS_PUSH` and `PROGRESS_POP` -/
inductive Whence where
  | set
  | cur
  | push
  | pop
  deriving DecidableEq, Repr

/-- A `datetime` in UTC. -/
structure DateTime where
  year : Nat
  month : Nat
  day : Nat
  hour : Nat
  minute : Nat
  second : Nat
  microsecond : Nat
  deriving DecidableEq, Repr

/-- A call of a test result. -/
inductive Call where
  | startTest (test : RemotedTestCase)
  /-- `addError`, `addFailure`, `addSkip`, `addSuccess`, `addExpectedFailure`
  or `addUnexpectedSuccess`, with the `details` that are passed. -/
  | outcome (outcome : Outcome) (test : RemotedTestCase) (details : Option Details)
  /-- `addError(test, RemoteError(description))` -/
  | remoteError (test : RemotedTestCase) (description : String)
  | stopTest (test : RemotedTestCase)
  | tags (newTags goneTags : Finset String)
  | progress (offset : Option Int) (whence : Whence)
  | time (time : DateTime)
  deriving DecidableEq

end Pysubunit.V1
