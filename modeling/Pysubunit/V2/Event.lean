/-
Pysubunit.V2.Event — status events and the constants of the version 2
packet format (`v2.py`, module level).

A `StatusEvent` is what one `status(...)` call carries. Strings are Unicode
texts that UTF-8 can encode, so a lone surrogate, on which `encode('utf-8')`
raises, has no counterpart here. A tag set is a `Finset`; a call also knows
the order in which it will be iterated (`StatusCall`). A time stamp is an
aware UTC `datetime`, held as its distance from `EPOCH` in microseconds.
-/
import Pysubunit.ByteLib.Bytes
import Mathlib.Data.Finset.Basic

namespace Pysubunit.V2

open ByteLib

/-- The exceptions this module raises or lets through. -/
inductive Error where
  | assertionError
  | valueError (message : String)
  | typeError
  | structError
  | parseError (message : String)
  /-- `Exception("Non subunit content", content)` -/
  | nonSubunitContent (content : Bytes)
  deriving DecidableEq, Repr

/-- The statuses that have a name; `None` is the eighth. -/
inductive TestStatus where
  | exists
  | inprogress
  | success
  | uxsuccess
  | skip
  | fail
  | xfail
  deriving DecidableEq, Repr

/-- An aware UTC `datetime`, as microseconds since `EPOCH`. -/
structure DateTime where
  micros : Int
  deriving DecidableEq, Repr

/-- A normalised `datetime.timedelta`. -/
structure Timedelta where
  days : Int
  seconds : Int
  microseconds : Int
  deriving DecidableEq, Repr

/-- `timestamp - EPOCH` -/
def DateTime.sinceEpoch (t : DateTime) : Timedelta where
  days := t.micros / 86400000000
  seconds := t.micros / 1000000 % 86400
  microseconds := t.micros % 1000000

/-- The arguments of `status(...)`, with its defaults. -/
structure StatusEvent where
  testId : Option String := none
  testStatus : Option TestStatus := none
  testTags : Option (Finset String) := none
  runnable : Bool := true
  fileName : Option String := none
  fileBytes : Option Bytes := none
  eof : Bool := false
  mimeType : Option String := none
  routeCode : Option String := none
  timestamp : Option DateTime := none
  deriving DecidableEq

/-- A `status(...)` call: its arguments and the iteration order of its tag
set. -/
structure StatusCall where
  event : StatusEvent
  tagOrder : List String
  tagOrder_enumerates : (tagOrder : Multiset String) = (event.testTags.getD ∅).val

/-- The order of no tags. -/
theorem noTags_enumerates :
    (([] : List String) : Multiset String) = ((none : Option (Finset String)).getD ∅).val := rfl

/-! ## Fallible steps -/

theorem ok_bind {ε α β : Type} (a : α) (f : α → Except ε β) :
    ((Except.ok a : Except ε α) >>= f) = f a := rfl

theorem error_bind {ε α β : Type} (e : ε) (f : α → Except ε β) :
    ((Except.error e : Except ε α) >>= f) = .error e := rfl

theorem ok_of_bind {ε α β : Type} {x : Except ε α} {f : α → Except ε β} {r : β}
    (h : (x >>= f) = .ok r) : ∃ a, x = .ok a ∧ f a = .ok r := by
  cases x with
  | error e => cases h
  | ok a => exact ⟨a, rfl, h⟩

/-! ## The packet format -/

def signature : UInt8 := 0xB3

def flagTestId : Nat := 0x0800
def flagRouteCode : Nat := 0x0400
def flagTimestamp : Nat := 0x0200
def flagRunnable : Nat := 0x0100
def flagTags : Nat := 0x0080
def flagMimeType : Nat := 0x0020
def flagEof : Nat := 0x0010
def flagFileContent : Nat := 0x0040

/-- `StreamResultToBytes.status_mask` -/
def statusMask : Option TestStatus → Nat
  | none => 0
  | some .exists => 0x1
  | some .inprogress => 0x2
  | some .success => 0x3
  | some .uxsuccess => 0x4
  | some .skip => 0x5
  | some .fail => 0x6
  | some .xfail => 0x7

/-- `ByteStreamToStreamResult.status_lookup`, on the low three bits. -/
def statusLookup (bits : Nat) : Option TestStatus :=
  match bits with
  | 0x1 => some .exists
  | 0x2 => some .inprogress
  | 0x3 => some .success
  | 0x4 => some .uxsuccess
  | 0x5 => some .skip
  | 0x6 => some .fail
  | 0x7 => some .xfail
  | _ => none

/-- `flags & mask` as a truth value. -/
def hasFlag (flags mask : Nat) : Bool := flags &&& mask != 0

/-- `struct.pack` of an unsigned big-endian word of `width` octets. -/
def structPack (width : Nat) (value : Int) : Except Error Bytes :=
  if 0 ≤ value ∧ value < 256 ^ width then .ok (beBytes width value.toNat) else .error .structError

/-- `struct.unpack` of an unsigned big-endian word of `width` octets. -/
def structUnpack (width : Nat) (b : Bytes) : Except Error Nat :=
  if b.length = width then .ok (beNat b) else .error .structError

theorem structPack_ofNat {width value : Nat} (h : value < 256 ^ width) :
    structPack width (value : Int) = .ok (beBytes width value) := by
  have hcast : (value : Int) < 256 ^ width := by
    have := Int.ofNat_lt.mpr h
    rwa [Int.natCast_pow] at this
  rw [structPack, if_pos ⟨Int.natCast_nonneg value, hcast⟩, Int.toNat_natCast]

theorem structPack_range {width : Nat} {value : Int} {b : Bytes}
    (h : structPack width value = .ok b) : 0 ≤ value ∧ value < 256 ^ width := by
  unfold structPack at h
  split at h
  · assumption
  · cases h

theorem structUnpack_of_length {width : Nat} {b : Bytes} (h : b.length = width) :
    structUnpack width b = .ok (beNat b) := if_pos h

theorem structUnpack_beBytes {width value : Nat} (h : value < 256 ^ width) :
    structUnpack width (beBytes width value) = .ok value := by
  rw [structUnpack_of_length (length_beBytes _ _), beNat_beBytes _ _ h]

/-- Every status is found again under its mask. -/
theorem statusLookup_statusMask (s : Option TestStatus) : statusLookup (statusMask s) = s := by
  cases s with
  | none => rfl
  | some s => cases s <;> rfl

end Pysubunit.V2
