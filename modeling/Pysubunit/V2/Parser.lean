/-
Pysubunit.V2.Parser — `ByteStreamToStreamResult._parse_packet` and what it
calls (`v2.py`).

The body of a packet is walked by positional readers, one for each kind of
field, in the order in which `_parse` takes them. `parse` keeps beside its
result the fragments it had put into `packet` and the bytes it left unread,
because `_parse_packet` reports the fragments when a `ParseError` is raised
and the source goes on from the bytes left.

`struct.unpack` on a slice that a short body has cut shorter raises
`struct.error`, which `_parse_packet` does not catch.
-/
import Pysubunit.V2.Writer
import Pysubunit.ByteLib.Reader

namespace Pysubunit.V2

open ByteLib

/-! ## Numbers and strings -/

/-- `struct.unpack('>HB', b)` -/
def structUnpackHB (b : Bytes) : Except Error (Nat × Nat) :=
  if b.length = 3 then .ok (beNat (b.take 2), beNat (b.drop 2)) else .error .structError

/-- `_parse_varint`: the number and how many octets it took. -/
def parseVarint (data : Bytes) (pos : Nat) (max3Bytes : Bool) : Except Error (Nat × Nat) := do
  let data0 ← structUnpack 1 (slice data pos 1)
  let typeenum := data0 &&& 0xC0
  let value0 := data0 &&& 0x3F
  if typeenum = 0x00 then
    return (value0, 1)
  else if typeenum = 0x40 then
    let data1 ← structUnpack 1 (slice data (pos + 1) 1)
    return ((value0 <<< 8) ||| data1, 2)
  else if typeenum = 0x80 then
    let data1 ← structUnpack 2 (slice data (pos + 1) 2)
    return ((value0 <<< 16) ||| data1, 3)
  else if max3Bytes then
    throw (.parseError "3 byte maximum given but 4 byte value found.")
  else
    let (data1, data2) ← structUnpackHB (slice data (pos + 1) 3)
    return ((value0 <<< 24) ||| (data1 <<< 8) ||| data2, 4)

/-- A number, and the offset after it. -/
def readNumber : Reader Error Nat := fun body pos => do
  let (value, consumed) ← parseVarint body pos false
  return (value, pos + consumed)

/-- `_read_utf8` -/
def readUtf8 : Reader Error String := fun buf pos => do
  let (length, consumed) ← parseVarint buf pos false
  let pos := pos + consumed
  let offset := toString ((pos : Int) - 2)
  let utf8 := slice buf pos length
  if length ≠ utf8.length then
    throw (.parseError ("UTF8 string at offset " ++ offset ++ " extends past end of packet: "
      ++ "claimed " ++ toString length ++ " bytes, " ++ toString utf8.length ++ " available"))
  else if 0 ∈ utf8 then
    throw (.parseError ("UTF8 string at offset " ++ offset ++ " contains NUL byte"))
  else
    match Utf8.decode utf8 with
    | none => throw (.parseError ("UTF8 string at offset " ++ offset ++ " is not UTF8"))
    | some (chars, kept) =>
      if length - kept.length ≠ length then
        throw (.parseError ("Invalid (partially decodable) string at offset " ++ offset ++ ", "
          ++ toString kept.length ++ " undecoded bytes"))
      else return (String.ofList chars, length + pos)

/-! ## Fields -/

/-- `n / 1000` rounded to an integer, halves to even, as `timedelta` rounds
its microseconds. -/
def roundedThousandth (n : Nat) : Nat :=
  if n % 1000 < 500 ∨ (n % 1000 = 500 ∧ n / 1000 % 2 = 0) then n / 1000 else n / 1000 + 1

/-- `if flags & FLAG_TIMESTAMP` -/
def readTimestamp : Reader Error DateTime := fun body pos => do
  let seconds ← structUnpack 4 (slice body pos 4)
  let (nanoseconds, consumed) ← parseVarint body (pos + 4) false
  return (⟨seconds * 1000000 + roundedThousandth nanoseconds⟩, pos + 4 + consumed)

/-- `if flags & FLAG_TAGS` -/
def readTags : Reader Error (Finset String) := do
  let tagCount ← readNumber
  let tags ← Reader.replicate readUtf8 tagCount
  return tags.toFinset

/-- The content of a file, of a length already read. -/
def readContent (contentLength : Nat) : Reader Error Bytes := fun body pos =>
  let fileBytes := slice body pos contentLength
  if fileBytes.length ≠ contentLength then
    throw (.parseError ("File content extends past end of packet: claimed "
      ++ toString contentLength ++ " bytes, " ++ toString fileBytes.length ++ " available"))
  else return (fileBytes, pos + contentLength)

/-- `if flags & FLAG_FILE_CONTENT` -/
def readFile : Reader Error (String × Bytes) := do
  let fileName ← readUtf8
  let contentLength ← readNumber
  let fileBytes ← readContent contentLength
  return (fileName, fileBytes)

/-- The fields that the flags announce, in the order of the format. -/
def readFields (flags : Nat) : Reader Error StatusEvent := do
  let timestamp ← Reader.optionally (hasFlag flags flagTimestamp) readTimestamp
  let testId ← Reader.optionally (hasFlag flags flagTestId) readUtf8
  let testTags ← Reader.optionally (hasFlag flags flagTags) readTags
  let mimeType ← Reader.optionally (hasFlag flags flagMimeType) readUtf8
  let file ← Reader.optionally (hasFlag flags flagFileContent) readFile
  let routeCode ← Reader.optionally (hasFlag flags flagRouteCode) readUtf8
  return {
    testId, testTags, mimeType, routeCode, timestamp
    testStatus := statusLookup (flags &&& 0x0007)
    runnable := hasFlag flags flagRunnable
    eof := hasFlag flags flagEof
    fileName := file.map (·.1)
    fileBytes := file.map (·.2) }

/-! ## Packets -/

/-- `source.read(k)` of a source that takes every negative `k` for all that is
left, as `io.BytesIO` and an unbuffered file do: what is read and what is left.
`io.BufferedReader` raises `ValueError` for a `k` below -1; that is left out. -/
def sourceRead (source : Bytes) (k : Int) : Bytes × Bytes :=
  if k < 0 then (source, []) else (source.take k.toNat, source.drop k.toNat)

/-- `'%x' % n` -/
def hex (n : Nat) : String := String.ofList (Nat.toDigits 16 n)

/-- What one call of `_parse` leaves behind. -/
structure ParseResult where
  packet : List Bytes
  unread : Bytes
  result : Except Error StatusEvent

/-- The checksum over the fragments before the last and over the last
without its own four octets. -/
def packetChecksum (packet : List Bytes) (last : Bytes) : Nat :=
  (Crc32.crc32 (dropLastBytes last 4)
    (packet.foldl (fun crc fragment => Crc32.crc32 fragment crc) 0)).toNat

/-- `_parse` once the packet is complete: `before` are the fragments before
the last one. -/
def parseBody (flags : Nat) (before : List Bytes) (last : Bytes) (pos : Nat) :
    Except Error StatusEvent := do
  let crc := packetChecksum before last
  let packetCrc ← structUnpack 4 (lastBytes last 4)
  if crc ≠ packetCrc then
    throw (.parseError ("Bad checksum - calculated (0x" ++ hex crc ++ "), stored (0x"
      ++ hex packetCrc ++ ")"))
  else
    let (event, _) ← readFields flags (dropLastBytes last 4) pos
    return event

/-- The flags, the declared length and how many octets that took. -/
def parseHeader (header : Bytes) : Except Error (Nat × Nat × Nat) := do
  let flags ← structUnpack 2 (header.take 2)
  let (length, consumed) ← parseVarint header 2 true
  return (flags, length, consumed)

/-- `_parse`, on the bytes after the signature. -/
def parse (source : Bytes) : ParseResult :=
  let header := source.take 5
  let source := source.drop 5
  if header.length ≠ 5 then
    { packet := [[signature], header]
      unread := source
      result := .error (.parseError ("Short read - got " ++ toString header.length
        ++ " bytes, wanted 5")) }
  else
    match parseHeader header with
    | .error e => { packet := [[signature], header], unread := source, result := .error e }
    | .ok (flags, length, consumed) =>
      let wanted := (length : Int) - 6
      let remainder := (sourceRead source wanted).1
      let source := (sourceRead source wanted).2
      if (remainder.length : Int) ≠ wanted then
        { packet := [[signature], header]
          unread := source
          result := .error (.parseError ("Short read - got " ++ toString remainder.length
            ++ " bytes, wanted " ++ toString wanted ++ " bytes")) }
      else if consumed ≠ 3 then
        { packet := [[signature], header ++ remainder]
          unread := source
          result := parseBody flags [[signature]] (header ++ remainder) (2 + consumed) }
      else
        { packet := [[signature], header, remainder]
          unread := source
          result := parseBody flags [[signature], header] remainder 0 }

/-- The two events that report a `ParseError`. -/
def parserErrors (packet : List Bytes) (message : String) : List StatusEvent :=
  [{ testId := some "subunit.parser"
     eof := true
     fileName := some "Packet data"
     fileBytes := some (join packet)
     mimeType := some "application/octet-stream" },
   { testId := some "subunit.parser"
     testStatus := some .fail
     eof := true
     fileName := some "Parser Error"
     fileBytes := some (utf8Bytes message)
     mimeType := some "text/plain;charset=utf8" }]

/-- The events `_parse_packet` emits. -/
def ParseResult.events (r : ParseResult) : List StatusEvent :=
  match r.result with
  | .ok event => [event]
  | .error (.parseError message) => parserErrors r.packet message
  | .error _ => []

/-- The exception `_parse_packet` lets through. -/
def ParseResult.raised (r : ParseResult) : Option Error :=
  match r.result with
  | .ok _ => none
  | .error (.parseError _) => none
  | .error e => some e

end Pysubunit.V2
