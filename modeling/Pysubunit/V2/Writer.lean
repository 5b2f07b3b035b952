/-
Pysubunit.V2.Writer — `StreamResultToBytes` (`v2.py`).

`_write_packet` appends its fields to one list in a fixed order; here each
field is a function returning what it appends, and `packetFields` puts them
in that order. The flags are accumulated by the same tests, in `packetFlags`.
The length of the length field depends on the length of everything else
(`lengthLength`), and a packet past the limit is refused before anything is
written.

The output stream may accept less than it is offered (`PartialWrites`); the
write loop offers the rest again.
-/
import Pysubunit.V2.Event
import Pysubunit.ByteLib.Utf8
import Pysubunit.ByteLib.Crc32

namespace Pysubunit.V2

open ByteLib

/-! ## Fields -/

/-- `_encode_number` -/
def encodeNumber (value : Int) : Except Error (List Bytes) :=
  if value < 0 then .error .assertionError
  else
    let value := value.toNat
    if value < 64 then do
      return [← structPack 1 value]
    else if value < 16384 then do
      let value := value ||| 0x4000
      return [← structPack 2 value]
    else if value < 4194304 then do
      let value := value ||| 0x800000
      return [← structPack 2 (value >>> 8 : Nat), ← structPack 1 (value &&& 0xFF : Nat)]
    else if value < 1073741824 then do
      let value := value ||| 0xC0000000
      return [← structPack 4 value]
    else .error (.valueError ("value too large to encode: " ++ toString value))

/-- `_write_number`: `packet.extend(self._encode_number(value))` -/
def writeNumber (value : Int) (packet : List Bytes) : Except Error Unit × List Bytes :=
  match encodeNumber value with
  | .error e => (.error e, packet)
  | .ok pieces => (.ok (), packet ++ pieces)

/-- The UTF-8 bytes of a string. -/
def utf8Bytes (s : String) : Bytes := Utf8.encode s.toList

/-- `_write_utf8` -/
def writeUtf8 (s : String) : Except Error (List Bytes) := do
  let utf8 := utf8Bytes s
  return (← encodeNumber utf8.length) ++ [utf8]

/-- `if timestamp is not None` -/
def timestampField : Option DateTime → Except Error (List Bytes)
  | none => .ok []
  | some timestamp => do
    let sinceEpoch := timestamp.sinceEpoch
    let nanoseconds := sinceEpoch.microseconds * 1000
    let seconds := sinceEpoch.seconds + sinceEpoch.days * 24 * 3600
    return [← structPack 4 seconds] ++ (← encodeNumber nanoseconds)

/-- A string field that is written when it is not `None`. -/
def utf8Field : Option String → Except Error (List Bytes)
  | none => .ok []
  | some s => writeUtf8 s

/-- `for tag in test_tags` -/
def writeTags : List String → Except Error (List Bytes)
  | [] => .ok []
  | tag :: tags => do
    let first ← writeUtf8 tag
    let rest ← writeTags tags
    return first ++ rest

/-- `if test_tags`: neither `None` nor empty. -/
def tagsField (tags : List String) : Except Error (List Bytes) :=
  if tags.isEmpty then .ok []
  else do
    return (← encodeNumber tags.length) ++ (← writeTags tags)

/-- `if mime_type`: neither `None` nor empty. -/
def mimeField (mimeType : Option String) : Except Error (List Bytes) :=
  utf8Field (mimeType.filter (· ≠ ""))

/-- `if file_name is not None`; `len(None)` is a type error. -/
def fileField : Option String → Option Bytes → Except Error (List Bytes)
  | none, _ => .ok []
  | some fileName, fileBytes => do
    let name ← writeUtf8 fileName
    match fileBytes with
    | none => .error .typeError
    | some fileBytes => return name ++ (← encodeNumber fileBytes.length) ++ [fileBytes]

/-- Everything between the length and the checksum. -/
def packetFields (call : StatusCall) : Except Error (List Bytes) := do
  let timestamp ← timestampField call.event.timestamp
  let testId ← utf8Field call.event.testId
  let tags ← tagsField call.tagOrder
  let mime ← mimeField call.event.mimeType
  let file ← fileField call.event.fileName call.event.fileBytes
  let routeCode ← utf8Field call.event.routeCode
  return timestamp ++ testId ++ tags ++ mime ++ file ++ routeCode

/-- `flags = flags | mask` under a condition. -/
def setFlag (present : Bool) (mask : Nat) : Nat := if present then mask else 0

/-- The flags, with version 0x2 in the top nibble. -/
def packetFlags (call : StatusCall) : Nat :=
  0x2000
    ||| setFlag call.event.timestamp.isSome flagTimestamp
    ||| setFlag call.event.testId.isSome flagTestId
    ||| setFlag (!call.tagOrder.isEmpty) flagTags
    ||| setFlag call.event.runnable flagRunnable
    ||| setFlag (call.event.mimeType.filter (· ≠ "")).isSome flagMimeType
    ||| setFlag call.event.fileName.isSome flagFileContent
    ||| setFlag call.event.eof flagEof
    ||| setFlag call.event.routeCode.isSome flagRouteCode
    ||| statusMask call.event.testStatus

/-! ## The packet -/

/-- How many octets the length field takes, if the policy admits any. -/
def lengthLength (baseLength : Nat) : Except Error Nat :=
  if baseLength ≤ 62 then .ok 1
  else if baseLength ≤ 16381 then .ok 2
  else if baseLength ≤ 4194300 then .ok 3
  else .error (.valueError ("Length too long: " ++ toString baseLength))

/-- `b''.join` -/
def join (packet : List Bytes) : Bytes := packet.flatten

/-- `_write_packet` up to the write: the bytes to be written. -/
def writePacket (call : StatusCall) : Except Error Bytes := do
  let fields ← packetFields call
  let flagBytes ← structPack 2 (packetFlags call)
  let baseLength := (join ([signature] :: flagBytes :: [] :: fields)).length + 4
  let lengthLength ← lengthLength baseLength
  let lengthBytes ← encodeNumber (baseLength + lengthLength : Nat)
  let content := join ([signature] :: flagBytes :: lengthBytes ++ fields)
  return content ++ (← structPack 4 (Crc32.crc32 content 0).toNat)

/-! ## The output stream -/

/-- How much of what it is offered an output stream accepts: at call number
`call`, offered `offered > 0` bytes, at least one and at most all of them. -/
structure PartialWrites where
  accept : Nat → Nat → Nat
  accepts_one : ∀ call offered, 0 < offered → 1 ≤ accept call offered
  accepts_at_most : ∀ call offered, accept call offered ≤ offered

/-- An output stream: what it has accepted, and how often it was called. -/
structure OutputStream where
  written : Bytes := []
  calls : Nat := 0
  deriving DecidableEq, Repr

/-- `output_stream.write(data)`: the count it returns and the stream after. -/
def OutputStream.write (w : PartialWrites) (out : OutputStream) (data : Bytes) :
    Nat × OutputStream :=
  let n := w.accept out.calls data.length
  (n, { written := out.written ++ data.take n, calls := out.calls + 1 })

/-- `while offset < datalen` -/
def writeLoop (w : PartialWrites) (data : Bytes) (out : OutputStream) (offset : Nat) :
    OutputStream :=
  if _h : offset < data.length then
    writeLoop w data (out.write w (data.drop offset)).2
      (offset + (out.write w (data.drop offset)).1)
  else out
termination_by data.length - offset
decreasing_by
  have := w.accepts_one out.calls (data.drop offset).length
    (by rw [List.length_drop]; omega)
  simp only [OutputStream.write]
  omega

/-- `StreamResultToBytes.status(...)` on a stream: the exception it raises,
if any, and the stream after. -/
def status (w : PartialWrites) (out : OutputStream) (call : StatusCall) :
    Except Error Unit × OutputStream :=
  match writePacket call with
  | .error e => (.error e, out)
  | .ok data => (.ok (), writeLoop w data out 0)

/-- A sequence of calls; a caller goes on after one that raised. -/
def statusAll (w : PartialWrites) : OutputStream → List StatusCall → OutputStream
  | out, [] => out
  | out, call :: calls => statusAll w (status w out call).2 calls

end Pysubunit.V2
