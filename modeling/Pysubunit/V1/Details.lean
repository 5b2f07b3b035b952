/-
Pysubunit.V1.Details — the parsers of a details region (`details.py`).

A region ends with a line `]`. In a simple region every other line is text, with
one blank taken off in front of a `]`. In a multipart region each part is a
`Content-Type` line, a line with the name and a chunked body; the state of the
parser holds what the part has given so far. `lineReceived` says whether the
region has ended, that is, whether `endDetails()` has been called.
-/
import Pysubunit.V1.Chunked

namespace Pysubunit.V1

open ByteLib

/-- `line[:-1].decode('utf8')` -/
def decodeLine (line : Bytes) : Except Error String :=
  match Utf8.decodeString (dropLastBytes line 1) with
  | some text => .ok text
  | none => .error .unicodeDecodeError

def endMarker : Bytes := ascii "]\n"

def quotedMarker : Bytes := ascii " ]"

/-- `_parse_state` of a `MultipartDetailsParser`, with the attributes that are
set by then. -/
inductive MultipartState where
  | lookForContent
  | getName (contentType : ContentType)
  | feedChunks (contentType : ContentType) (name : String) (body : Bytes) (chunkParser : Decoder)
  deriving DecidableEq, Repr

inductive DetailsParser where
  | simple (message : Bytes)
  | multipart (details : Details) (parseState : MultipartState)
  deriving DecidableEq

namespace DetailsParser

/-- `SimpleDetailsParser(state)` -/
def newSimple : DetailsParser := .simple []

/-- `MultipartDetailsParser(state)` -/
def newMultipart : DetailsParser := .multipart ∅ .lookForContent

/-- What a line does to a parser. -/
structure Received where
  parser : DetailsParser
  /-- whether `endDetails()` has been called -/
  result : Except Error Bool

/-- `SimpleDetailsParser.lineReceived` -/
def simpleLineReceived (message line : Bytes) : Received :=
  if line = endMarker then ⟨.simple message, .ok true⟩
  else if line.take 2 = quotedMarker then ⟨.simple (message ++ line.drop 1), .ok false⟩
  else ⟨.simple (message ++ line), .ok false⟩

/-- The content type that a `Content-Type` line announces. -/
def contentTypeOf (line : Bytes) : Except Error ContentType :=
  match decodeLine line with
  | .error e => .error e
  | .ok text =>
    -- `text.split(' ', 1)`
    match text.toList.dropWhile fun c => c != ' ' with
    | [] => .error (.valueError (.text "not enough values to unpack (expected 2, got 1)"))
    | _ :: value =>
      match value.splitOnP fun c => c == '/' with
      | [main, sub] => .ok { type := String.ofList main, subtype := String.ofList sub }
      | _ => .error (.valueError (.string "Invalid MIME type %r" (String.ofList value)))

/-- `_look_for_content` -/
def lookForContent (details : Details) (line : Bytes) : Received :=
  if line = endMarker then ⟨.multipart details .lookForContent, .ok true⟩
  else
    match contentTypeOf line with
    | .error e => ⟨.multipart details .lookForContent, .error e⟩
    | .ok contentType => ⟨.multipart details (.getName contentType), .ok false⟩

/-- `_get_name` -/
def getName (details : Details) (contentType : ContentType) (line : Bytes) : Received :=
  match decodeLine line with
  | .error e => ⟨.multipart details (.getName contentType), .error e⟩
  | .ok name => ⟨.multipart details (.feedChunks contentType name [] {}), .ok false⟩

/-- `_feed_chunks` -/
def feedChunks (details : Details) (contentType : ContentType) (name : String) (body : Bytes)
    (chunkParser : Decoder) (line : Bytes) : Received :=
  let written := chunkParser.write line
  let body' := body ++ written.output
  let going := MultipartState.feedChunks contentType name body' written.decoder
  match written.result with
  | .error e => ⟨.multipart details going, .error e⟩
  | .ok none => ⟨.multipart details going, .ok false⟩
  | .ok (some residue) =>
    if residue ≠ [] then
      ⟨.multipart details going, .error (.assertionError (.bytes "residue: %r" residue))⟩
    else
      let details' := details.insert name { contentType, iterBytes := [body'] }
      match written.decoder.close with
      | .error e => ⟨.multipart details' going, .error e⟩
      | .ok () => ⟨.multipart details' .lookForContent, .ok false⟩

/-- `lineReceived` -/
def lineReceived (parser : DetailsParser) (line : Bytes) : Received :=
  match parser with
  | .simple message => simpleLineReceived message line
  | .multipart details .lookForContent => lookForContent details line
  | .multipart details (.getName contentType) => getName details contentType line
  | .multipart details (.feedChunks contentType name body chunkParser) =>
    feedChunks details contentType name body chunkParser line

/-- `SimpleDetailsParser.get_details` -/
def simpleDetails (message : Bytes) : Option String → Details
  | none => Finmap.singleton "traceback"
      { contentType := ⟨"text", "x-traceback", [("charset", "utf8")]⟩, iterBytes := [message] }
  | some style =>
    Finmap.singleton (if style = "skip" then "reason" else "message")
      { contentType := ⟨"text", "plain", []⟩, iterBytes := [message] }

/-- `get_details` -/
def getDetails (parser : DetailsParser) (style : Option String) : Details :=
  match parser with
  | .simple message => simpleDetails message style
  | .multipart details _ => details

end DetailsParser

end Pysubunit.V1
