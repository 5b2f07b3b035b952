/-
Pysubunit.V2.Run — `ByteStreamToStreamResult.run` (`v2.py`).

One pass of `while True` reads a byte. A signature byte between characters
starts a packet; any other byte starts a piece of non-subunit content, which
an inner loop goes on aggregating while `select` says that there is more.
The pass then emits the piece, tests the last byte it read once more, and
may parse a packet.

`Polls` is the environment: whether the source can be selected on at all
(the platform is not win32 and `fileno()` works), and the outcome of the
poll made while a given number of bytes is still unread. A run makes at most
one poll with a given number of bytes unread, so every sequence of outcomes
is some `readable`.

The codec is that of the declared Pythons 3.5 and 3.6 (`ByteLib.Utf8`): a
surrogate is refused at its second byte.

What the run does is recorded as `Action`s, each with the suffix of the input
that begins at its own first byte.
-/
import Pysubunit.V2.Parser
import Pysubunit.ByteLib.Loop

namespace Pysubunit.V2

open ByteLib

/-- What the run loop cannot see coming: whether the source can be polled,
and what the poll made with so many bytes unread answers. -/
structure Polls where
  selectable : Bool
  readable : Nat → Bool

/-- An in-memory source has no `fileno()`. -/
def inMemory : Polls := { selectable := false, readable := fun _ => false }

/-- `mid_character` and the incremental decoder's buffer. -/
structure Codec where
  midCharacter : Bool := false
  pending : Bytes := []
  deriving DecidableEq, Repr

/-- `if self.codec.decode(content)`; on an error the decoder keeps what it
had pending. -/
def Codec.feed (codec : Codec) (b : UInt8) : Codec :=
  match Utf8.decode (codec.pending ++ [b]) with
  | some (chars, pending) => { midCharacter := chars.isEmpty, pending }
  | none => { codec with midCharacter := false }

/-- What `run` does to `result`. -/
inductive Action where
  /-- A piece of non-subunit content is emitted. -/
  | content (at_ : Bytes) (bytes : Bytes)
  /-- `_parse_packet` is called. -/
  | packet (at_ : Bytes) (parsed : ParseResult)

/-- The suffix of the input that an action begins at. -/
def Action.start : Action → Bytes
  | .content at_ _ => at_
  | .packet at_ _ => at_

/-- The events of an action. -/
def Action.events (nonSubunitName : Option String) : Action → List StatusEvent
  | .content _ bytes => [{ fileName := nonSubunitName, fileBytes := some bytes }]
  | .packet _ parsed => parsed.events

/-- 1MiB -/
def aggregationLimit : Nat := 1048576

/-- What the inner loop leaves: the decoder, the bytes unread, the piece, and
the last `content` read. -/
structure Aggregation where
  codec : Codec
  unread : Bytes
  buffered : Bytes
  content : Bytes

/-- The source can be polled, and the poll with so many bytes unread says
that there is more. -/
def Polls.more (polls : Polls) (unread : Nat) : Bool := polls.selectable && polls.readable unread

/-- `while len(buffered[-1])`: every buffered read is one byte, so the loop
ends only by its breaks. -/
def aggregate (polls : Polls) (codec : Codec) (buffered content : Bytes) (source : Bytes) :
    Aggregation :=
  if polls.more source.length then
    match source with
    | [] => { codec, unread := [], buffered, content := [] }
    | c :: rest =>
      if !codec.midCharacter && c == signature then
        { codec, unread := rest, buffered, content := [c] }
      else if aggregationLimit ≤ (buffered ++ [c]).length then
        { codec := codec.feed c, unread := rest, buffered := buffered ++ [c], content := [c] }
      else aggregate polls (codec.feed c) (buffered ++ [c]) [c] rest
  else { codec, unread := source, buffered, content }

structure RunState where
  codec : Codec := {}
  source : Bytes

/-- `self._parse_packet(result)` and on round the loop. -/
def dispatch (before : List Action) (codec : Codec) (source : Bytes) :
    List Action × Pass RunState Error :=
  let parsed := parse source
  let actions := before ++ [.packet (signature :: source) parsed]
  match parsed.raised with
  | some e => (actions, .raise e)
  | none => (actions, .again { codec, source := parsed.unread })

/-- One pass of `while True`. -/
def runPass (polls : Polls) (nonSubunitName : Option String) (s : RunState) :
    List Action × Pass RunState Error :=
  match s.source with
  | [] => ([], .stop)
  | b :: source =>
    if !s.codec.midCharacter && b == signature then dispatch [] s.codec source
    else
      match nonSubunitName with
      | none => ([], .raise (.nonSubunitContent [b]))
      | some _ =>
        let piece := aggregate polls (s.codec.feed b) [b] [b] source
        let emitted := Action.content (b :: source) piece.buffered
        if piece.codec.midCharacter || piece.content.isEmpty
            || piece.content.head? != some signature then
          ([emitted], .again { codec := piece.codec, source := piece.unread })
        else dispatch [emitted] piece.codec piece.unread

/-! ## Every pass uses up input -/

theorem length_sourceRead (source : Bytes) (k : Int) :
    (sourceRead source k).2.length ≤ source.length := by
  unfold sourceRead
  split <;> simp

theorem length_parse_unread (source : Bytes) : (parse source).unread.length ≤ source.length := by
  have h := fun k => length_sourceRead (source.drop 5) k
  simp only [List.length_drop] at h
  simp only [parse]
  split
  · simp
  · split
    · simp
    · rename_i flags length consumed _
      have := h ((length : Int) - 6)
      split
      · dsimp only; omega
      · split <;> dsimp only <;> omega

section Aggregate

variable {polls : Polls} {codec : Codec} {buffered content rest : Bytes} {c : UInt8}

/-- The inner loop breaks at once when the poll does not say there is more. -/
theorem aggregate_cut {source : Bytes} (h : polls.more source.length = false) :
    aggregate polls codec buffered content source
      = { codec, unread := source, buffered, content } := by
  rw [aggregate.eq_def, h]
  rfl

/-- The inner loop breaks at the end of input. -/
theorem aggregate_eof (h : polls.more 0 = true) :
    aggregate polls codec buffered content []
      = { codec, unread := [], buffered, content := [] } := by
  rw [aggregate, List.length_nil, h]
  rfl

/-- The inner loop breaks at a signature between characters. -/
theorem aggregate_signature (h : polls.more (rest.length + 1) = true)
    (hc : (!codec.midCharacter && c == signature) = true) :
    aggregate polls codec buffered content (c :: rest)
      = { codec, unread := rest, buffered, content := [c] } := by
  rw [aggregate, List.length_cons, h, if_pos rfl, if_pos hc]

/-- Any other byte is buffered, and the loop goes on below the limit. -/
theorem aggregate_read (h : polls.more (rest.length + 1) = true)
    (hc : (!codec.midCharacter && c == signature) = false) :
    aggregate polls codec buffered content (c :: rest)
      = if aggregationLimit ≤ buffered.length + 1 then
          { codec := codec.feed c, unread := rest, buffered := buffered ++ [c], content := [c] }
        else aggregate polls (codec.feed c) (buffered ++ [c]) [c] rest := by
  rw [aggregate, List.length_cons, h, if_pos rfl, hc, if_neg (by simp), List.length_append,
    List.length_singleton]

end Aggregate

theorem length_aggregate_unread (polls : Polls) (codec : Codec) (buffered content source : Bytes) :
    (aggregate polls codec buffered content source).unread.length ≤ source.length := by
  induction source generalizing codec buffered content with
  | nil =>
    cases h : polls.more 0 with
    | true => rw [aggregate_eof h]
    | false => rw [aggregate_cut h]
  | cons c rest ih =>
    cases h : polls.more (rest.length + 1) with
    | false => rw [aggregate_cut (by simpa using h)]
    | true =>
      cases hc : (!codec.midCharacter && c == signature) with
      | true => rw [aggregate_signature h hc]; simp
      | false =>
        rw [aggregate_read h hc]
        split
        · simp
        · exact Nat.le_succ_of_le (ih _ _ _)

theorem dispatch_fst (before : List Action) (codec : Codec) (source : Bytes) :
    (dispatch before codec source).1
      = before ++ [.packet (signature :: source) (parse source)] := by
  unfold dispatch
  dsimp only
  cases (parse source).raised <;> rfl

theorem dispatch_snd (before : List Action) (codec : Codec) (source : Bytes) :
    (dispatch before codec source).2
      = match (parse source).raised with
        | some e => .raise e
        | none => .again { codec, source := (parse source).unread } := by
  unfold dispatch
  dsimp only
  cases (parse source).raised <;> rfl

theorem dispatch_again {before : List Action} {codec : Codec} {source : Bytes} {s' : RunState}
    (h : (dispatch before codec source).2 = .again s') :
    s' = { codec, source := (parse source).unread } := by
  rw [dispatch_snd] at h
  split at h
  · cases h
  · cases h
    rfl

theorem runPass_shrinks (polls : Polls) (name : Option String) (s s' : RunState)
    (h : (runPass polls name s).2 = .again s') : s'.source.length < s.source.length := by
  unfold runPass at h
  split at h
  · cases h
  · rename_i b source hs
    rw [hs, List.length_cons]
    have hp := length_parse_unread source
    split at h
    · rw [dispatch_again h]
      dsimp only
      omega
    · split at h
      · cases h
      · have ha := length_aggregate_unread polls (s.codec.feed b) [b] [b] source
        dsimp only at h
        split at h
        · cases h
          dsimp only
          omega
        · have hp' := length_parse_unread
            (aggregate polls (s.codec.feed b) [b] [b] source).unread
          rw [dispatch_again h]
          dsimp only
          omega

/-! ## The run -/

/-- The loop of `run`. -/
def runLoop (polls : Polls) (nonSubunitName : Option String) : Loop RunState Action Error where
  body := runPass polls nonSubunitName
  size s := s.source.length
  shrinks := runPass_shrinks polls nonSubunitName

@[simp] theorem runLoop_body (polls : Polls) (nonSubunitName : Option String) :
    (runLoop polls nonSubunitName).body = runPass polls nonSubunitName := rfl

/-- `run`: what it does, and the bytes left unread or the exception raised. -/
structure RunResult where
  actions : List Action
  result : Except Error Bytes

/-- `ByteStreamToStreamResult(source, non_subunit_name).run(result)` -/
def run (polls : Polls) (nonSubunitName : Option String) (input : Bytes) : RunResult :=
  let r := (runLoop polls nonSubunitName).run { source := input }
  { actions := r.1, result := r.2.map (·.source) }

/-- The events of a run, in the order in which they are emitted. -/
def RunResult.events (r : RunResult) (nonSubunitName : Option String) : List StatusEvent :=
  r.actions.flatMap (Action.events nonSubunitName)

end Pysubunit.V2
