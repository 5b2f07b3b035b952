/-
Pysubunit.V1.Chunked — HTTP chunked coding (`chunked.py`).

`Decoder.write` buffers a piece and calls the method that `self.state` names.
A state method either returns to the caller of `write`, raises, or ends in
`return self.state()`; the last makes a loop, which `Decoder.states` runs.
Every pass that goes round takes bytes off the buffer, so the loop ends. The
bytes written to `output` are the outputs of the loop. A decoder that raises is
kept, as it is after the exception.
-/
import Mathlib.Algebra.Order.BigOperators.Group.List
import Pysubunit.ByteLib.Loop
import Pysubunit.ByteLib.Numeral
import Pysubunit.V1.Call

namespace Pysubunit.V1

open ByteLib

/-! ## Decoder -/

/-- The state methods of a decoder. -/
inductive DecoderState where
  | readLength
  | readBody
  | finished
  deriving DecidableEq, Repr

structure Decoder where
  strict : Bool := true
  bufferedBytes : List Bytes := []
  state : DecoderState := .readLength
  bodyLength : Nat := 0
  deriving DecidableEq, Repr

/-- How a state method ends. -/
inductive StateEnd where
  | returns (residue : Option Bytes)
  | raises (e : Error)
  /-- `return self.state()` -/
  | calls
  deriving DecidableEq, Repr

namespace Decoder

/-- `_match_chars` -/
def matchChars : Bytes := ascii "0123456789abcdefABCDEF\r\n"

/-- `close` -/
def close (d : Decoder) : Except Error Unit :=
  if d.state = .finished then .ok () else .error (.valueError (.text "incomplete stream"))

/-- `_finished` -/
def finished (d : Decoder) : Decoder × StateEnd :=
  if d.bufferedBytes.isEmpty then (d, .raises (.valueError (.text "stream is finished")))
  else ({ d with bufferedBytes := [] }, .returns (some d.bufferedBytes.flatten))

/-- `_read_body`: the bytes passed on, and how the method ends. -/
def readBodyFrom (d : Decoder) : List Bytes → Nat → List Bytes × Decoder × StateEnd
  | [], n => ([], { d with bufferedBytes := [], bodyLength := n }, .returns none)
  | piece :: pieces, n =>
    if n = 0 then
      ([], { d with bufferedBytes := piece :: pieces, bodyLength := 0 }, .returns none)
    else if piece.length ≤ n then
      let d' := if n - piece.length = 0 then { d with state := .readLength } else d
      let rest := readBodyFrom d' pieces (n - piece.length)
      (piece :: rest.1, rest.2)
    else
      ([piece.take n],
        { d with bufferedBytes := piece.drop n :: pieces, bodyLength := 0, state := .readLength },
        .calls)

def readBody (d : Decoder) : List Bytes × Decoder × StateEnd :=
  d.readBodyFrom d.bufferedBytes d.bodyLength

/-- The characters of one piece that can belong to a header, up to a newline. -/
def countChars : Bytes → Bytes
  | [] => []
  | b :: bs =>
    if b ∉ matchChars then []
    else if b = 10 then [b]
    else b :: countChars bs

/-- Take `excess` bytes off the buffer. -/
def dropExcess : List Bytes → Nat → List Bytes
  | [], _ => []
  | piece :: pieces, excess =>
    if excess = 0 then piece :: pieces
    else if piece.length ≤ excess then dropExcess pieces (excess - piece.length)
    else piece.drop excess :: pieces

/-- The length that a header announces, or what is wrong with the header. -/
def headerLength (strict : Bool) (countStr : Bytes) : Except Error Nat :=
  if strict ∧ lastBytes countStr 2 ≠ [13, 10] then
    .error (.valueError (.bytes "chunk header invalid: %r" countStr))
  else if strict ∧ 13 ∈ dropLastBytes countStr 2 then
    .error (.valueError (.bytes "too many CRs in chunk header %r" countStr))
  else
    let digits := countStr.rdropWhile fun b => b == 10 || b == 13
    match intOf 16 digits with
    | some n => .ok n.toNat
    | none => .error (.valueError (.bytes "invalid literal for int() with base 16: %r" digits))

/-- `_read_length` -/
def readLength (d : Decoder) : Decoder × StateEnd :=
  let countStr := d.bufferedBytes.flatMap countChars
  -- an empty `count_chars` returns as well
  if countStr.getLast? ≠ some 10 then (d, .returns none)
  else
    match headerLength d.strict countStr with
    | .error e => (d, .raises e)
    | .ok n =>
      let buffered := dropExcess d.bufferedBytes countStr.length
      if n = 0 then
        let d' := { d with bufferedBytes := buffered, bodyLength := 0, state := .finished }
        -- `_finished` may not be called with no buffered data
        if buffered.isEmpty then (d', .returns (some [])) else (d', .calls)
      else
        ({ d with bufferedBytes := buffered, bodyLength := n, state := .readBody }, .calls)

/-- `self.state()`, with the bytes written to `output`. -/
def callState (d : Decoder) : List Bytes × Decoder × StateEnd :=
  match d.state with
  | .readLength => ([], d.readLength)
  | .readBody => d.readBody
  | .finished => ([], d.finished)

/-! ### The calls of `self.state()` end -/

/-- The bytes that wait in the buffer. -/
def buffered (d : Decoder) : Bytes := d.bufferedBytes.flatten

theorem flatten_dropExcess (pieces : List Bytes) (excess : Nat) :
    (dropExcess pieces excess).flatten = pieces.flatten.drop excess := by
  induction pieces generalizing excess with
  | nil => simp [dropExcess]
  | cons piece pieces ih =>
    rw [dropExcess]
    split
    · rename_i h
      simp [h]
    · split
      · rename_i h
        rw [ih, List.flatten_cons, List.drop_append, List.drop_of_length_le h, List.nil_append]
      · rename_i h
        rw [List.flatten_cons, List.flatten_cons, List.drop_append,
          Nat.sub_eq_zero_of_le (Nat.le_of_not_le h), List.drop_zero]

theorem length_countChars_le (piece : Bytes) : (countChars piece).length ≤ piece.length := by
  induction piece with
  | nil => simp [countChars]
  | cons b bs ih =>
    rw [countChars]
    split
    · simp
    · split
      · simp
      · simpa using ih

theorem length_flatMap_countChars_le (pieces : List Bytes) :
    (pieces.flatMap countChars).length ≤ pieces.flatten.length := by
  induction pieces with
  | nil => simp
  | cons piece pieces ih =>
    have := length_countChars_le piece
    rw [List.flatMap_cons, List.flatten_cons, List.length_append, List.length_append]
    exact Nat.add_le_add this ih

theorem readLength_calls {d d' : Decoder} (h : d.readLength = (d', .calls)) :
    d'.buffered.length < d.buffered.length := by
  unfold readLength at h
  simp only at h
  split at h
  · cases h
  · rename_i hlast
    split at h
    · cases h
    · have hne : d.bufferedBytes.flatMap countChars ≠ [] := by
        intro hnil
        simp [hnil] at hlast
      have hpos := List.length_pos_iff.mpr hne
      have hle := length_flatMap_countChars_le d.bufferedBytes
      have hbuffered : d'.bufferedBytes
          = dropExcess d.bufferedBytes (d.bufferedBytes.flatMap countChars).length := by
        split at h
        · split at h <;> cases h
          rfl
        · cases h
          rfl
      rw [buffered, hbuffered, flatten_dropExcess, List.length_drop, buffered]
      omega

theorem readBodyFrom_calls {d d' : Decoder} {pieces os : List Bytes} {n : Nat}
    (h : d.readBodyFrom pieces n = (os, d', .calls)) :
    d'.buffered.length < pieces.flatten.length := by
  induction pieces generalizing d n os with
  | nil => simp [readBodyFrom] at h
  | cons piece pieces ih =>
    rw [readBodyFrom] at h
    split at h
    · simp at h
    · split at h
      · simp only [Prod.mk.injEq] at h
        have := ih (Prod.ext rfl h.2)
        rw [List.flatten_cons, List.length_append]
        omega
      · rename_i hn hlen
        simp only [Prod.mk.injEq] at h
        rw [buffered, ← h.2.1]
        simp only [List.flatten_cons, List.length_append, List.length_drop]
        omega

theorem callState_calls {d d' : Decoder} {os : List Bytes} (h : d.callState = (os, d', .calls)) :
    d'.buffered.length < d.buffered.length := by
  unfold callState at h
  split at h
  · exact readLength_calls (Prod.mk.inj h).2
  · exact readBodyFrom_calls h
  · simp only [finished] at h
    split at h <;> simp at h

/-- Where the loop of state calls is: about to call, or back in `write` with
what it returns. -/
inductive Turn where
  | call (d : Decoder)
  | back (d : Decoder) (residue : Option Bytes)

/-- One call. -/
def turn : Turn → List Bytes × Pass Turn (Decoder × Error)
  | .back _ _ => ([], .stop)
  | .call d =>
    match d.callState with
    | (os, d', .returns residue) => (os, .again (.back d' residue))
    | (os, d', .raises e) => (os, .raise (d', e))
    | (os, d', .calls) => (os, .again (.call d'))

/-- The calls of `self.state()` that one `write` leads to. They are nested in
the source; the interpreter's limit on that, which a `write` of some 500 chunks
reaches, is left out. -/
def states : Loop Turn Bytes (Decoder × Error) where
  body := turn
  size
    | .call d => d.buffered.length + 1
    | .back _ _ => 0
  shrinks t t' h := by
    cases t with
    | back d residue => simp [turn] at h
    | call d =>
      rw [turn] at h
      split at h
      · cases h
        exact Nat.succ_pos _
      · cases h
      · rename_i hcall
        cases h
        exact Nat.succ_lt_succ (callState_calls hcall)

/-- What a `write` does: the decoder afterwards, the bytes written to
`output`, and what is returned or raised. -/
structure Written where
  decoder : Decoder
  output : Bytes
  result : Except Error (Option Bytes)
  deriving DecidableEq

/-- `self.state()`, to whatever depth. -/
def runStates (d : Decoder) : Written :=
  match states.run (.call d) with
  | (os, .ok (.back d' residue)) => ⟨d', os.flatten, .ok residue⟩
  | (os, .ok (.call d')) => ⟨d', os.flatten, .ok none⟩
  | (os, .error (d', e)) => ⟨d', os.flatten, .error e⟩

/-- `write` -/
def write (d : Decoder) (bytes : Bytes) : Written :=
  if bytes.isEmpty then d.runStates
  else runStates { d with bufferedBytes := d.bufferedBytes ++ [bytes] }

/-- `write` each piece: the decoder afterwards, and what each of them did. -/
def writes : Decoder → List Bytes → Decoder × List Written
  | d, [] => (d, [])
  | d, piece :: pieces =>
    let written := d.write piece
    let rest := writes written.decoder pieces
    (rest.1, written :: rest.2)

end Decoder

/-! ## Encoder -/

structure Encoder where
  bufferedBytes : List Bytes := []
  bufferSize : Nat := 0
  deriving DecidableEq, Repr

namespace Encoder

/-- `"%X\r\n" % n` -/
def header (n : Nat) : Bytes := numeral 16 n ++ [13, 10]

/-- `flush`, with what it writes to `output`. -/
def flush (e : Encoder) (extraLen : Nat) : Encoder × Bytes :=
  if e.bufferSize = 0 ∧ extraLen = 0 then (e, [])
  else
    let buffered := if e.bufferSize = 0 then [] else e.bufferedBytes.flatten
    ({ bufferedBytes := [], bufferSize := 0 }, header (e.bufferSize + extraLen) ++ buffered)

/-- `write` -/
def write (e : Encoder) (bytes : Bytes) : Encoder × Bytes :=
  if 65536 ≤ e.bufferSize + bytes.length then
    let flushed := e.flush bytes.length
    (flushed.1, flushed.2 ++ bytes)
  else
    ({ bufferedBytes := e.bufferedBytes ++ [bytes], bufferSize := e.bufferSize + bytes.length }, [])

/-- `close` -/
def close (e : Encoder) : Bytes := (e.flush 0).2 ++ ascii "0\r\n"

/-- A call of an encoder that is not closed yet. -/
inductive Step where
  | write (bytes : Bytes)
  | flush
  deriving DecidableEq, Repr

/-- One call: the encoder behind it, and what it writes to `output`. -/
def step (e : Encoder) : Step → Encoder × Bytes
  | .write bytes => e.write bytes
  | .flush => e.flush 0

/-- Each of the calls. -/
def run (e : Encoder) : List Step → Encoder × Bytes
  | [] => (e, [])
  | s :: steps =>
    let called := e.step s
    let rest := run called.1 steps
    (rest.1, called.2 ++ rest.2)

/-- Each of the calls, then `close`. -/
def session (e : Encoder) (steps : List Step) : Bytes :=
  let called := e.run steps
  called.2 ++ called.1.close

/-- `write` each piece, then `close`. -/
def encode (e : Encoder) (pieces : List Bytes) : Bytes := e.session (pieces.map .write)

end Encoder

end Pysubunit.V1
