/-
Pysubunit.V1.RejectionTheorems — what a line that raises leaves behind.

No line that raises has done anything to the client or to the streams before. Most of them
leave the server alone too: a handler looks at its argument first. Two do not. Outside a
test, the state is changed before the label of a test is decoded; and a decoder
keeps what it is given before it looks at it. `Accepts` says that a line is neither, of a
decoder by the headers that the line completes (`Admits`); for every server that lines have
brought about without an exception, it is what a line needs to be all or nothing
(`atomic_iff`), and a caller that goes on behind the exceptions of such lines sees what it
would see without them (`rejected_lines`).
-/
import Pysubunit.V1.ChunkedTheorems
import Pysubunit.V1.Server

namespace Pysubunit.V1

open ByteLib

/-! ## A decoder that is given more -/

namespace Decoder

/-- A decoder that has not come to the end, and holds no empty pieces. -/
structure Open (d : Decoder) : Prop where
  unfinished : d.state ≠ .finished
  pieces : ∀ piece ∈ d.bufferedBytes, piece ≠ []

/-- The header that some pieces begin with: `count_str`. -/
def countStr (pieces : List Bytes) : Bytes := pieces.flatMap countChars

/-- The header is complete. -/
def Complete (pieces : List Bytes) : Prop := (countStr pieces).getLast? = some 10

/-- What is behind a chunk of `n` bytes that ends inside one of the pieces. -/
def behindChunk : List Bytes → Nat → Option (List Bytes)
  | [], _ => none
  | piece :: pieces, n =>
    if n = 0 then none
    else if piece.length ≤ n then behindChunk pieces (n - piece.length)
    else some (piece.drop n :: pieces)

/-- Where a header is due, no header that the pieces complete is rejected, and nothing stands
behind the end marker. -/
inductive Admits (strict : Bool) : List Bytes → Prop where
  /-- The header is not complete. -/
  | waits {pieces : List Bytes} (h : ¬ Complete pieces) : Admits strict pieces
  /-- The end marker. -/
  | ends {pieces : List Bytes} (h : Complete pieces)
      (hlength : headerLength strict (countStr pieces) = .ok 0)
      (hrest : dropExcess pieces (countStr pieces).length = []) : Admits strict pieces
  /-- A chunk that the pieces end in, or that ends with one of them. -/
  | inside {pieces : List Bytes} {n : Nat} (h : Complete pieces)
      (hlength : headerLength strict (countStr pieces) = .ok n) (hn : n ≠ 0)
      (hrest : behindChunk (dropExcess pieces (countStr pieces).length) n = none) :
      Admits strict pieces
  /-- A chunk, and what is behind it. -/
  | past {pieces rest : List Bytes} {n : Nat} (h : Complete pieces)
      (hlength : headerLength strict (countStr pieces) = .ok n) (hn : n ≠ 0)
      (hrest : behindChunk (dropExcess pieces (countStr pieces).length) n = some rest)
      (hadmits : Admits strict rest) : Admits strict pieces

/-- The header that the decoder holds is one that it rejects. -/
def Stuck (d : Decoder) : Prop :=
  d.state = .readLength ∧ Complete d.bufferedBytes
    ∧ ∃ e, headerLength d.strict (countStr d.bufferedBytes) = .error e

/-- What the decoder holds, with the piece. -/
def given (d : Decoder) (piece : Bytes) : List Bytes :=
  d.bufferedBytes ++ if piece = [] then [] else [piece]

/-- With the piece, the decoder completes no header that it rejects and has nothing behind the
end marker; or it is given nothing and is stuck. -/
def Accepts (d : Decoder) (piece : Bytes) : Prop :=
  match d.state with
  | .readLength => Admits d.strict (d.given piece) ∨ (piece = [] ∧ d.Stuck)
  | .readBody => ∀ rest, behindChunk (d.given piece) d.bodyLength = some rest → Admits d.strict rest
  | .finished => False

/-- What `_read_length` does: it waits, it rejects the header, it comes to the end marker, or it
goes on with a chunk. -/
theorem readLength_cases (d : Decoder) :
    d.readLength = (d, .returns none) ∨ (∃ e, d.readLength = (d, .raises e))
      ∨ (∃ d' : Decoder, d'.state = .finished ∧ (d.readLength = (d', .returns (some []))
        ∨ (d'.bufferedBytes ≠ [] ∧ d.readLength = (d', .calls))))
      ∨ ∃ d' : Decoder, d'.state = .readBody ∧ d'.bodyLength ≠ 0 ∧ d.readLength = (d', .calls) := by
  unfold readLength
  dsimp only
  split
  · exact .inl rfl
  · split
    · exact .inr (.inl ⟨_, rfl⟩)
    · split
      · split
        · exact .inr (.inr (.inl ⟨_, rfl, .inl rfl⟩))
        · rename_i hmore
          exact .inr (.inr (.inl ⟨_, rfl, .inr ⟨by simpa using hmore, rfl⟩⟩))
      · rename_i hn
        exact .inr (.inr (.inr ⟨_, rfl, hn, rfl⟩))

theorem dropExcess_ne_nil {pieces : List Bytes} (h : ∀ piece ∈ pieces, piece ≠ [])
    (excess : Nat) : ∀ piece ∈ dropExcess pieces excess, piece ≠ [] := by
  induction pieces generalizing excess with
  | nil => simp [dropExcess]
  | cons piece pieces ih =>
    rw [List.forall_mem_cons] at h
    rw [dropExcess]
    split
    · exact List.forall_mem_cons.mpr h
    · split
      · exact ih h.2 _
      · rename_i hlen
        refine List.forall_mem_cons.mpr ⟨?_, h.2⟩
        rw [ne_eq, List.drop_eq_nil_iff]
        exact hlen

theorem readLength_pieces {d : Decoder} (h : ∀ piece ∈ d.bufferedBytes, piece ≠ []) :
    ∀ piece ∈ d.readLength.1.bufferedBytes, piece ≠ [] := by
  unfold readLength
  dsimp only
  split
  · exact h
  · split
    · exact h
    · split
      · split <;> exact dropExcess_ne_nil h _
      · exact dropExcess_ne_nil h _

theorem readBodyFrom_pieces (d : Decoder) {pieces : List Bytes}
    (h : ∀ piece ∈ pieces, piece ≠ []) (n : Nat) :
    ∀ piece ∈ (d.readBodyFrom pieces n).2.1.bufferedBytes, piece ≠ [] := by
  induction pieces generalizing d n with
  | nil => simp [readBodyFrom]
  | cons piece pieces ih =>
    rw [readBodyFrom]
    split
    · exact h
    · split
      · exact ih _ (fun piece hpiece => h piece (by simp [hpiece])) _
      · rename_i hlen
        refine List.forall_mem_cons.mpr ⟨?_, fun piece hpiece => h piece (by simp [hpiece])⟩
        rw [ne_eq, List.drop_eq_nil_iff]
        exact hlen

theorem callState_pieces {d : Decoder} (h : ∀ piece ∈ d.bufferedBytes, piece ≠ []) :
    ∀ piece ∈ d.callState.2.1.bufferedBytes, piece ≠ [] := by
  unfold callState
  split
  · exact readLength_pieces h
  · exact readBodyFrom_pieces d h _
  · simp only [finished]
    split
    · exact h
    · simp

/-- Where a state method leaves the decoder, by how it ends. -/
def Left (d : Decoder) : StateEnd → Prop
  | .returns none => d.state ≠ .finished
  | .returns (some _) => d.state = .finished
  | .raises _ => d.state ≠ .readBody
  | .calls => True

theorem readLength_left {d : Decoder} (h : d.state = .readLength) :
    d.readLength.1.Left d.readLength.2 := by
  rcases readLength_cases d
    with hend | ⟨e, hend⟩ | ⟨d', hfinished, hend | ⟨-, hend⟩⟩ | ⟨d', -, -, hend⟩
  · simp [hend, Left, h]
  · simp [hend, Left, h]
  · simp [hend, Left, hfinished]
  · simp [hend, Left]
  · simp [hend, Left]

theorem readBodyFrom_left {d : Decoder} (h : d.state ≠ .finished) (pieces : List Bytes) (n : Nat) :
    (d.readBodyFrom pieces n).2.1.Left (d.readBodyFrom pieces n).2.2 := by
  induction pieces generalizing d n with
  | nil => exact h
  | cons piece pieces ih =>
    rw [readBodyFrom]
    split
    · exact h
    · split
      · refine ih ?_ _
        split
        · simp
        · exact h
      · trivial

theorem callState_left (d : Decoder) : d.callState.2.1.Left d.callState.2.2 := by
  unfold callState
  split
  · rename_i h
    exact readLength_left h
  · rename_i h
    exact readBodyFrom_left (by simp [h]) _ _
  · rename_i h
    simp only [finished]
    split <;> simp [Left, h]

/-- How the calls of a `write` end. -/
def Written.ends (w : Written) : StateEnd :=
  match w.result with
  | .ok residue => .returns residue
  | .error e => .raises e

/-- **The calls of a `write`** leave the decoder as the last of them does. -/
theorem runStates_left (d : Decoder) (h : ∀ piece ∈ d.bufferedBytes, piece ≠ []) :
    d.runStates.decoder.Left d.runStates.ends
      ∧ ∀ piece ∈ d.runStates.decoder.bufferedBytes, piece ≠ [] := by
  induction hn : d.buffered.length using Nat.strongRecOn generalizing d with
  | ind n ih =>
  have hleft := callState_left d
  have hpieces := callState_pieces h
  rcases hcall : d.callState with ⟨os, d', how⟩
  rw [hcall] at hleft hpieces
  cases how with
  | returns residue =>
    rw [runStates_returns hcall]
    exact ⟨hleft, hpieces⟩
  | raises e =>
    rw [runStates_raises hcall]
    exact ⟨hleft, hpieces⟩
  | calls =>
    obtain ⟨hleft', hpieces'⟩ := ih _ (hn ▸ callState_calls hcall) d' hpieces rfl
    rw [runStates_calls hcall]
    exact ⟨hleft', hpieces'⟩

/-- The decoder that a `write` calls. -/
theorem write_eq (d : Decoder) (bytes : Bytes) :
    d.write bytes = runStates { d with
      bufferedBytes := d.bufferedBytes ++ if bytes = [] then [] else [bytes] } := by
  unfold write
  cases bytes with
  | nil => simp
  | cons b bytes => simp

theorem Open.pieces_append {d : Decoder} (h : d.Open) (bytes : Bytes) :
    ∀ piece ∈ d.bufferedBytes ++ (if bytes = [] then [] else [bytes]), piece ≠ [] := by
  intro piece hpiece
  rcases List.mem_append.mp hpiece with hpiece | hpiece
  · exact h.pieces piece hpiece
  · split at hpiece
    · simp at hpiece
    · rename_i hbytes
      rw [List.mem_singleton.mp hpiece]
      exact hbytes

theorem write_left {d : Decoder} (h : d.Open) (bytes : Bytes) :
    (d.write bytes).decoder.Left (d.write bytes).ends
      ∧ ∀ piece ∈ (d.write bytes).decoder.bufferedBytes, piece ≠ [] := by
  rw [write_eq]
  exact runStates_left _ (h.pieces_append bytes)

/-- A decoder that waits for more is open. -/
theorem Open.write {d : Decoder} (h : d.Open) {bytes : Bytes}
    (hresult : (d.write bytes).result = .ok none) : (d.write bytes).decoder.Open := by
  obtain ⟨hleft, hpieces⟩ := write_left h bytes
  rw [Written.ends, hresult] at hleft
  exact ⟨hleft, hpieces⟩

theorem write_finished {d : Decoder} (h : d.Open) {bytes residue : Bytes}
    (hresult : (d.write bytes).result = .ok (some residue)) :
    (d.write bytes).decoder.state = .finished := by
  obtain ⟨hleft, -⟩ := write_left h bytes
  rw [Written.ends, hresult] at hleft
  exact hleft

/-- Inside a chunk something is put out, unless the decoder waits. -/
theorem runStates_readBody {d : Decoder} (hstate : d.state = .readBody) (hn : d.bodyLength ≠ 0)
    (h : ∀ piece ∈ d.bufferedBytes, piece ≠ []) :
    d.runStates.output ≠ [] ∨ d.runStates.result = .ok none := by
  have hcall : d.callState = d.readBodyFrom d.bufferedBytes d.bodyLength := by
    rw [callState, hstate]
    rfl
  cases hbuffered : d.bufferedBytes with
  | nil =>
    right
    rw [hbuffered, readBodyFrom] at hcall
    rw [runStates_returns hcall]
  | cons piece pieces =>
    left
    have hpiece : piece ≠ [] := h piece (by simp [hbuffered])
    rw [hbuffered, readBodyFrom, if_neg hn] at hcall
    intro hnil
    split at hcall
    · have hout := prefix_runStates hcall
      rw [hnil, List.flatten_cons] at hout
      exact hpiece (List.append_eq_nil_iff.mp (List.prefix_nil.mp hout)).1
    · have hout := prefix_runStates hcall
      rw [hnil, List.flatten_singleton, List.prefix_nil, List.take_eq_nil_iff] at hout
      exact hout.elim hn hpiece

/-- What is behind the end marker is returned. -/
theorem callState_finished {d : Decoder} (h : d.state = .finished) (hmore : d.bufferedBytes ≠ []) :
    d.callState
      = ([], { d with bufferedBytes := [] }, .returns (some d.bufferedBytes.flatten)) := by
  rw [callState, h]
  simp [finished, hmore, h]

/-- A decoder that raises at a header stops there at once, or has put something out. -/
theorem runStates_raises_at {d : Decoder} (hstate : d.state = .readLength)
    (hpieces : ∀ piece ∈ d.bufferedBytes, piece ≠ []) {e : Error}
    (hresult : d.runStates.result = .error e) :
    (∃ e, d.callState = ([], d, .raises e)) ∨ d.runStates.output ≠ [] := by
  have hcall : d.callState = ([], d.readLength) := by
    rw [callState, hstate]
  have hkept := callState_pieces hpieces
  rcases readLength_cases d with h | ⟨e', h⟩ | ⟨d', hfinished, h | ⟨hmore, h⟩⟩ | ⟨d', hbody, hn, h⟩
  · rw [h] at hcall
    rw [runStates_returns hcall] at hresult
    cases hresult
  · rw [h] at hcall
    exact .inl ⟨e', hcall⟩
  · rw [h] at hcall
    rw [runStates_returns hcall] at hresult
    cases hresult
  · rw [h] at hcall
    rw [runStates_calls hcall, runStates_returns (callState_finished hfinished hmore)] at hresult
    cases hresult
  · rw [h] at hcall
    rw [hcall] at hkept
    rw [runStates_calls hcall] at hresult ⊢
    rcases runStates_readBody hbody hn hkept with hout | hwaits
    · exact .inr (by simpa using hout)
    · rw [hwaits] at hresult
      cases hresult

/-- **A decoder that raises** is not what it was, or has put something out, unless it is given
nothing. -/
theorem write_raises {d : Decoder} (h : d.Open) {bytes : Bytes} {e : Error}
    (hresult : (d.write bytes).result = .error e)
    (hnot : ¬ (bytes = [] ∧ ∃ e, d.callState = ([], d, .raises e))) :
    (d.write bytes).decoder ≠ d ∨ (d.write bytes).output ≠ [] := by
  obtain ⟨hleft, -⟩ := write_left h bytes
  rw [Written.ends, hresult] at hleft
  cases hstate : d.state with
  | finished => exact absurd hstate h.unfinished
  | readBody =>
    left
    intro heq
    rw [heq] at hleft
    exact hleft hstate
  | readLength =>
    rw [write_eq] at hresult ⊢
    rcases @runStates_raises_at { d with
      bufferedBytes := d.bufferedBytes ++ if bytes = [] then [] else [bytes] }
      hstate (h.pieces_append bytes) e hresult with ⟨e, hcall⟩ | hout
    · left
      by_cases hbytes : bytes = []
      · refine absurd ⟨hbytes, e, ?_⟩ hnot
        simpa [hbytes] using hcall
      · rw [runStates_raises hcall, if_neg hbytes]
        intro heq
        have hlength := congrArg (fun d => d.bufferedBytes.length) heq
        simp at hlength
    · exact .inr hout

/-! ### Headers -/

theorem readLength_incomplete {d : Decoder} (h : ¬ Complete d.bufferedBytes) :
    d.readLength = (d, .returns none) := by
  unfold readLength
  exact if_pos h

theorem readLength_complete {d : Decoder} (h : Complete d.bufferedBytes) :
    d.readLength
      = match headerLength d.strict (countStr d.bufferedBytes) with
        | .error e => (d, .raises e)
        | .ok n =>
          let rest := dropExcess d.bufferedBytes (countStr d.bufferedBytes).length
          if n = 0 then
            let d' := { d with bufferedBytes := rest, bodyLength := 0, state := .finished }
            if rest.isEmpty then (d', .returns (some [])) else (d', .calls)
          else ({ d with bufferedBytes := rest, bodyLength := n, state := .readBody }, .calls) := by
  unfold readLength
  exact if_neg (not_not.mpr h)

theorem readBodyFrom_none {d : Decoder} {pieces : List Bytes} {n : Nat}
    (h : behindChunk pieces n = none) : (d.readBodyFrom pieces n).2.2 = .returns none := by
  induction pieces generalizing d n with
  | nil => rfl
  | cons piece pieces ih =>
    rw [behindChunk] at h
    rw [readBodyFrom]
    split
    · rfl
    · rename_i hn
      rw [if_neg hn] at h
      split
      · rename_i hlength
        rw [if_pos hlength] at h
        exact ih h
      · rename_i hlength
        rw [if_neg hlength] at h
        cases h

theorem readBodyFrom_some {d : Decoder} {pieces rest : List Bytes} {n : Nat}
    (h : behindChunk pieces n = some rest) :
    (d.readBodyFrom pieces n).2
      = ({ d with bufferedBytes := rest, bodyLength := 0, state := .readLength }, .calls) := by
  induction pieces generalizing d n with
  | nil => cases h
  | cons piece pieces ih =>
    rw [behindChunk] at h
    rw [readBodyFrom]
    split
    · rename_i hn
      rw [if_pos hn] at h
      cases h
    · rename_i hn
      rw [if_neg hn] at h
      split
      · rename_i hlength
        rw [if_pos hlength] at h
        have hmore : n - piece.length ≠ 0 := by
          intro hzero
          rw [hzero] at h
          cases pieces <;> simp [behindChunk] at h
        rw [if_neg hmore]
        exact ih h
      · rename_i hlength
        rw [if_neg hlength] at h
        cases h
        rfl

/-- The calls end, with nothing left over. -/
def Written.Fine (w : Written) : Prop := w.result = .ok none ∨ w.result = .ok (some [])

/-- A call inside a chunk that is all there. -/
theorem callState_behind {d : Decoder} (hstate : d.state = .readBody) {rest : List Bytes}
    (h : behindChunk d.bufferedBytes d.bodyLength = some rest) :
    d.callState = (d.callState.1,
      { d with bufferedBytes := rest, bodyLength := 0, state := .readLength }, .calls) := by
  have hcall : d.callState = d.readBodyFrom d.bufferedBytes d.bodyLength := by
    rw [callState, hstate]
    rfl
  exact Prod.ext rfl ((congrArg Prod.snd hcall).trans (readBodyFrom_some h))

/-- Inside a chunk, the calls end as they do behind it. -/
theorem runStates_body_fine {d : Decoder} (hstate : d.state = .readBody) :
    d.runStates.Fine ↔ ∀ rest, behindChunk d.bufferedBytes d.bodyLength = some rest →
      (runStates { d with bufferedBytes := rest, bodyLength := 0, state := .readLength }).Fine := by
  cases hbehind : behindChunk d.bufferedBytes d.bodyLength with
  | none =>
    have hcall : d.callState = d.readBodyFrom d.bufferedBytes d.bodyLength := by
      rw [callState, hstate]
      rfl
    have hend := readBodyFrom_none (d := d) hbehind
    rw [← hcall] at hend
    rw [runStates_returns (Prod.ext rfl (Prod.ext rfl hend))]
    simp [Written.Fine]
  | some rest =>
    rw [runStates_calls (callState_behind hstate hbehind)]
    simp [Written.Fine]

/-- Pieces whose header is rejected are not admitted. -/
theorem not_admits_error {strict : Bool} {pieces : List Bytes} {e : Error}
    (hcomplete : Complete pieces) (hlength : headerLength strict (countStr pieces) = .error e) :
    ¬ Admits strict pieces := by
  intro hadmits
  cases hadmits with
  | waits h => exact h hcomplete
  | ends _ h _ => cases hlength.symm.trans h
  | inside _ h _ _ => cases hlength.symm.trans h
  | past _ h _ _ _ => cases hlength.symm.trans h

/-- The end marker is admitted where nothing is behind it. -/
theorem admits_zero_iff {strict : Bool} {pieces : List Bytes} (hcomplete : Complete pieces)
    (hlength : headerLength strict (countStr pieces) = .ok 0) :
    Admits strict pieces ↔ dropExcess pieces (countStr pieces).length = [] := by
  constructor
  · intro hadmits
    cases hadmits with
    | waits h => exact absurd hcomplete h
    | ends _ _ hrest => exact hrest
    | inside _ h hn _ =>
      cases hlength.symm.trans h
      exact absurd rfl hn
    | past _ h hn _ _ =>
      cases hlength.symm.trans h
      exact absurd rfl hn
  · exact .ends hcomplete hlength

/-- A chunk is admitted with what is behind it. -/
theorem admits_chunk_iff {strict : Bool} {pieces : List Bytes} {n : Nat}
    (hcomplete : Complete pieces) (hlength : headerLength strict (countStr pieces) = .ok n)
    (hn : n ≠ 0) :
    Admits strict pieces
      ↔ ∀ rest, behindChunk (dropExcess pieces (countStr pieces).length) n = some rest →
          Admits strict rest := by
  constructor
  · intro hadmits rest hbehind
    cases hadmits with
    | waits h => exact absurd hcomplete h
    | ends _ h _ =>
      cases hlength.symm.trans h
      exact absurd rfl hn
    | inside _ h _ hrest =>
      cases hlength.symm.trans h
      rw [hrest] at hbehind
      cases hbehind
    | past _ h _ hrest hadmits =>
      cases hlength.symm.trans h
      rw [hrest] at hbehind
      cases hbehind
      exact hadmits
  · intro hmore
    cases hbehind : behindChunk (dropExcess pieces (countStr pieces).length) n with
    | none => exact .inside hcomplete hlength hn hbehind
    | some rest => exact .past hcomplete hlength hn hbehind (hmore rest hbehind)

/-- At the end marker the calls end, with what is behind it left over. -/
theorem runStates_ends_fine {d : Decoder} (hstate : d.state = .readLength)
    (hpieces : ∀ piece ∈ d.bufferedBytes, piece ≠ []) (hcomplete : Complete d.bufferedBytes)
    (hlength : headerLength d.strict (countStr d.bufferedBytes) = .ok 0) :
    d.runStates.Fine ↔ dropExcess d.bufferedBytes (countStr d.bufferedBytes).length = [] := by
  have hcall : d.callState = ([], d.readLength) := by rw [callState, hstate]
  have hkept := callState_pieces hpieces
  have hread := readLength_complete hcomplete
  rw [hlength] at hread
  dsimp only at hread
  rw [if_pos rfl] at hread
  by_cases hrest : dropExcess d.bufferedBytes (countStr d.bufferedBytes).length = []
  · rw [hrest] at hread
    rw [hread] at hcall
    rw [runStates_returns hcall]
    exact iff_of_true (.inr rfl) hrest
  · rw [if_neg (by simpa using hrest)] at hread
    rw [hread] at hcall
    rw [hcall] at hkept
    obtain ⟨piece, more, hcons⟩ := List.exists_cons_of_ne_nil hrest
    have hpiece : piece ≠ [] := hkept piece (by simp [hcons])
    rw [runStates_calls hcall, runStates_returns (callState_finished rfl hrest)]
    exact iff_of_false (by simp [Written.Fine, hcons, hpiece]) hrest

/-- **Where a header is due**, the calls end with nothing left over exactly if the pieces hold
no header that is rejected and nothing behind the end marker. -/
theorem runStates_fine_iff {d : Decoder} (hstate : d.state = .readLength)
    (hpieces : ∀ piece ∈ d.bufferedBytes, piece ≠ []) :
    d.runStates.Fine ↔ Admits d.strict d.bufferedBytes := by
  induction hsize : d.buffered.length using Nat.strongRecOn generalizing d with
  | ind k ih =>
  have hcall : d.callState = ([], d.readLength) := by rw [callState, hstate]
  by_cases hcomplete : Complete d.bufferedBytes
  · have hread := readLength_complete hcomplete
    cases hlength : headerLength d.strict (countStr d.bufferedBytes) with
    | error e =>
      rw [hlength] at hread
      rw [hread] at hcall
      rw [runStates_raises hcall]
      exact iff_of_false (by simp [Written.Fine]) (not_admits_error hcomplete hlength)
    | ok n =>
      by_cases hn : n = 0
      · subst hn
        rw [admits_zero_iff hcomplete hlength]
        exact runStates_ends_fine hstate hpieces hcomplete hlength
      · have hkept := callState_pieces hpieces
        rw [hlength] at hread
        dsimp only at hread
        rw [if_neg hn] at hread
        rw [hread] at hcall
        rw [admits_chunk_iff hcomplete hlength hn, runStates_calls hcall]
        refine Iff.trans (runStates_body_fine rfl) (forall_congr' fun rest => ?_)
        refine imp_congr_right fun hbehind => ?_
        -- behind the chunk there is less, so the induction goes on there
        have hbody := callState_behind rfl hbehind
        rw [hcall] at hkept
        have hkept' := callState_pieces hkept
        rw [hbody] at hkept'
        have hless := Nat.lt_trans (callState_calls hbody) (callState_calls hcall)
        exact ih _ (hsize ▸ hless) rfl hkept' rfl
  · rw [readLength_incomplete hcomplete] at hcall
    rw [runStates_returns hcall]
    exact iff_of_true (.inl rfl) (.waits hcomplete)

/-- A decoder that stops at once where it is holds a header that it rejects. -/
theorem stuck_iff {d : Decoder} (h : d.state = .readLength) :
    d.Stuck ↔ ∃ e, d.callState = ([], d, .raises e) := by
  have hcall : d.callState = ([], d.readLength) := by rw [callState, h]
  rw [hcall]
  constructor
  · rintro ⟨-, hcomplete, e, hlength⟩
    exact ⟨e, by rw [readLength_complete hcomplete, hlength]⟩
  · rintro ⟨e, hraises⟩
    have hraises := congrArg (fun r => r.2.2) hraises
    by_cases hcomplete : Complete d.bufferedBytes
    · rw [readLength_complete hcomplete] at hraises
      cases hlength : headerLength d.strict (countStr d.bufferedBytes) with
      | error e' => exact ⟨h, hcomplete, e', hlength⟩
      | ok n =>
        rw [hlength] at hraises
        dsimp only at hraises
        split at hraises
        · split at hraises <;> cases hraises
        · cases hraises
    · rw [readLength_incomplete hcomplete] at hraises
      cases hraises

/-- The calls behind a chunk end with nothing left over as the pieces behind it are admitted. -/
theorem runStates_body_admits {d : Decoder} (hstate : d.state = .readBody)
    (hpieces : ∀ piece ∈ d.bufferedBytes, piece ≠ []) :
    d.runStates.Fine
      ↔ ∀ rest, behindChunk d.bufferedBytes d.bodyLength = some rest → Admits d.strict rest := by
  refine Iff.trans (runStates_body_fine hstate) (forall_congr' fun rest => ?_)
  refine imp_congr_right fun hbehind => ?_
  have hkept := callState_pieces hpieces
  rw [callState_behind hstate hbehind] at hkept
  exact runStates_fine_iff rfl hkept

/-- **What a decoder accepts**, by what its `write` does. -/
theorem accepts_iff {d : Decoder} (h : d.Open) (piece : Bytes) :
    d.Accepts piece
      ↔ (d.write piece).Fine ∨ piece = [] ∧ ∃ e, d.callState = ([], d, .raises e) := by
  let d' : Decoder := { d with bufferedBytes := d.given piece }
  have hpieces : ∀ p ∈ d'.bufferedBytes, p ≠ [] := h.pieces_append piece
  have hwrite : d.write piece = d'.runStates := write_eq d piece
  rw [hwrite]
  by_cases hread : d.state = .readLength
  · have hfine : d'.runStates.Fine ↔ Admits d.strict (d.given piece) :=
      runStates_fine_iff hread hpieces
    rw [hfine, ← stuck_iff hread, Accepts, hread]
  · have hbody : d.state = .readBody := by
      cases hstate : d.state with
      | readLength => exact absurd hstate hread
      | readBody => rfl
      | finished => exact absurd hstate h.unfinished
    have hfine : d'.runStates.Fine
        ↔ ∀ rest, behindChunk (d.given piece) d.bodyLength = some rest → Admits d.strict rest :=
      runStates_body_admits hbody hpieces
    have hraise : ¬ ∃ e, d.callState = ([], d, .raises e) := by
      rintro ⟨e, hcall⟩
      have hleft := callState_left d
      rw [hcall] at hleft
      exact hleft hbody
    rw [hfine, or_iff_left fun hstuck => hraise hstuck.2, Accepts, hbody]

end Decoder

/-! ## Details parsers -/

namespace DetailsParser

/-- The parser's decoder is open, if it feeds one. -/
def Open : DetailsParser → Prop
  | .multipart _ (.feedChunks _ _ _ chunkParser) => chunkParser.Open
  | _ => True

/-- The parser's decoder accepts the line, if it feeds one. -/
def Accepts (line : Bytes) : DetailsParser → Prop
  | .multipart _ (.feedChunks _ _ _ chunkParser) => chunkParser.Accepts line
  | _ => True

/-- What `_feed_chunks` does with a line that the decoder accepts: nothing, or it goes on. -/
theorem feedChunks_accepts {details : Details} {contentType : ContentType} {name : String}
    {body line : Bytes} {d : Decoder} (h : d.Open) (haccepts : d.Accepts line) :
    (∀ e, (feedChunks details contentType name body d line).result = .error e →
        (feedChunks details contentType name body d line).parser
          = .multipart details (.feedChunks contentType name body d))
      ∧ (∀ ended, (feedChunks details contentType name body d line).result = .ok ended →
        (feedChunks details contentType name body d line).parser.Open) := by
  rcases (Decoder.accepts_iff h line).mp haccepts with (hresult | hresult) | ⟨rfl, e, hcall⟩
  · have hopen := h.write hresult
    simp only [feedChunks, hresult]
    exact ⟨fun e he => (nomatch he), fun _ _ => hopen⟩
  · have hclose : (d.write line).decoder.close = .ok () := if_pos (Decoder.write_finished h hresult)
    simp only [feedChunks, hresult, hclose]
    exact ⟨fun e he => (nomatch he), fun _ _ => trivial⟩
  · have hwrite : d.write [] = ⟨d, [], .error e⟩ := by
      rw [Decoder.write_eq]
      simpa using Decoder.runStates_raises hcall
    simp [feedChunks, hwrite]

/-- What `_feed_chunks` does with a line that the decoder rejects. -/
theorem feedChunks_rejects {details : Details} {contentType : ContentType} {name : String}
    {body line : Bytes} {d : Decoder} (h : d.Open) (hrejects : ¬ d.Accepts line) :
    (∃ e, (feedChunks details contentType name body d line).result = .error e)
      ∧ (feedChunks details contentType name body d line).parser
        ≠ .multipart details (.feedChunks contentType name body d) := by
  rw [Decoder.accepts_iff h, not_or] at hrejects
  obtain ⟨hnotFine, hnotStuck⟩ := hrejects
  cases hresult : (d.write line).result with
  | error e =>
    simp only [feedChunks, hresult]
    refine ⟨⟨e, rfl⟩, fun heq => ?_⟩
    simp only [multipart.injEq, MultipartState.feedChunks.injEq, true_and] at heq
    obtain ⟨hbody, hsame⟩ := heq
    have hout : (d.write line).output = [] := List.append_right_eq_self.mp hbody
    have hchanged := Decoder.write_raises h hresult hnotStuck
    exact hchanged.elim (fun hne => hne hsame) fun hne => hne hout
  | ok residue =>
    cases residue with
    | none => exact absurd (.inl hresult) hnotFine
    | some residue =>
      have hresidue : residue ≠ [] := by
        rintro rfl
        exact hnotFine (.inr hresult)
      have hfinished := Decoder.write_finished h hresult
      simp only [feedChunks, hresult, if_pos hresidue]
      refine ⟨⟨_, rfl⟩, fun heq => ?_⟩
      simp only [multipart.injEq, MultipartState.feedChunks.injEq, true_and] at heq
      exact h.unfinished (heq.2 ▸ hfinished)

/-- **A line that is accepted** leaves the parser alone if it raises, and open if it does not. -/
theorem lineReceived_accepts {parser : DetailsParser} {line : Bytes} (h : parser.Open)
    (haccepts : parser.Accepts line) :
    (∀ e, (parser.lineReceived line).result = .error e → (parser.lineReceived line).parser = parser)
      ∧ (∀ ended, (parser.lineReceived line).result = .ok ended →
        (parser.lineReceived line).parser.Open) := by
  cases parser with
  | simple message =>
    simp only [lineReceived, simpleLineReceived]
    split
    · exact ⟨fun e he => (nomatch he), fun _ _ => trivial⟩
    · split <;> exact ⟨fun e he => (nomatch he), fun _ _ => trivial⟩
  | multipart details parseState =>
    cases parseState with
    | lookForContent =>
      simp only [lineReceived, lookForContent]
      split
      · exact ⟨fun e he => (nomatch he), fun _ _ => trivial⟩
      · split <;> simp [Open]
    | getName contentType =>
      simp only [lineReceived, getName]
      split
      · simp
      · exact ⟨fun e he => (nomatch he), fun _ _ => ⟨by simp, by simp⟩⟩
    | feedChunks contentType name body chunkParser => exact feedChunks_accepts h haccepts

/-- A line that is rejected raises, and has changed the parser. -/
theorem lineReceived_rejects {parser : DetailsParser} {line : Bytes} (h : parser.Open)
    (hrejects : ¬ parser.Accepts line) :
    (∃ e, (parser.lineReceived line).result = .error e)
      ∧ (parser.lineReceived line).parser ≠ parser := by
  cases parser with
  | simple message => exact absurd trivial hrejects
  | multipart details parseState =>
    cases parseState with
    | lookForContent => exact absurd trivial hrejects
    | getName contentType => exact absurd trivial hrejects
    | feedChunks contentType name body chunkParser => exact feedChunks_rejects h hrejects

end DetailsParser

/-! ## Servers -/

namespace Server

variable (parseDate : Bytes → Except Error DateTime)

/-- The server's decoder is open, if it feeds one. -/
def Open (s : Server) : Prop :=
  match s.state with
  | .readingDetails _ detailsParser => detailsParser.Open
  | _ => True

/-- What a line needs to be all or nothing: outside a test, a label that can be decoded if it
starts one; in a region, a decoder that accepts it. -/
def Accepts (s : Server) (line : Bytes) : Prop :=
  match s.state with
  | .outsideTest => ∀ offset, directive line = some (.startTest, offset) →
      ∃ label, decodeLine (line.drop offset) = .ok label
  | .inTest => True
  | .readingDetails _ detailsParser => detailsParser.Accepts line

/-- A line that raises has called nobody, and the server is what it was. -/
def Atomic (s : Server) (line : Bytes) : Prop :=
  (s.lineReceived parseDate line).raised ≠ none →
    (s.lineReceived parseDate line).outputs = [] ∧ (s.lineReceived parseDate line).server = s

variable {parseDate}

/-- An effect that is all or nothing, and keeps the server's decoder open. -/
def Clean (s : Server) (effect : Effect) : Prop :=
  (effect.raised ≠ none → effect.outputs = [] ∧ effect.server = s)
    ∧ (effect.raised = none → effect.server.Open)

theorem clean_raises (s : Server) (e : Error) : s.Clean (s.raises e) :=
  ⟨fun _ => ⟨rfl, rfl⟩, fun h => nomatch h⟩

theorem clean_of_raised {s : Server} {effect : Effect} (h : effect.raised = none)
    (hopen : effect.server.Open) : s.Clean effect :=
  ⟨fun hne => absurd h hne, fun _ => hopen⟩

theorem clean_handleProgress {s : Server} (h : s.Open) (offset : Nat) (line : Bytes) :
    s.Clean (s.handleProgress offset line) := by
  unfold handleProgress
  split
  · exact clean_raises s _
  · exact clean_of_raised rfl h

theorem clean_handleTags {s : Server} (h : s.Open) (offset : Nat) (line : Bytes) :
    s.Clean (s.handleTags offset line) := by
  unfold handleTags
  split
  · exact clean_raises s _
  · exact clean_of_raised rfl h

theorem clean_handleTime {s : Server} (h : s.Open) (offset : Nat) (line : Bytes) :
    s.Clean (s.handleTime parseDate offset line) := by
  unfold handleTime
  split
  · exact clean_raises s _
  · exact clean_raises s _
  · exact clean_raises s _
  · exact clean_of_raised rfl h

theorem clean_outcome {s : Server} (h : s.Open) (label : Outcome) (offset : Nat) (line : Bytes) :
    s.Clean (s.outcome label offset line) := by
  unfold outcome
  split
  · exact clean_raises s _
  · split
    · exact clean_raises s _
    · exact clean_raises s _
    · split
      · exact clean_of_raised rfl trivial
      · split
        · exact clean_of_raised rfl trivial
        · split
          · exact clean_of_raised rfl trivial
          · exact clean_of_raised rfl h

/-- The states outside a region, if the label of a test can be decoded. -/
theorem clean_command {s : Server} (h : s.Open) {inTest : Bool} {line : Bytes}
    (hlabel : inTest = false → ∀ offset, directive line = some (.startTest, offset) →
      ∃ label, decodeLine (line.drop offset) = .ok label) :
    s.Clean (s.commandReceived parseDate inTest line) := by
  unfold commandReceived
  cases hdirective : directive line with
  | none => exact clean_of_raised rfl h
  | some found =>
    obtain ⟨command, offset⟩ := found
    cases command with
    | startTest =>
      cases inTest with
      | true => exact clean_of_raised rfl h
      | false =>
        obtain ⟨label, hdecode⟩ := hlabel rfl offset hdirective
        dsimp only
        rw [if_neg (by simp), startTest, hdecode]
        exact clean_of_raised rfl trivial
    | outcome label =>
      cases inTest with
      | true => exact clean_outcome h label offset line
      | false =>
        dsimp only
        rw [if_neg (by simp)]
        split
        · exact clean_raises s _
        · exact clean_of_raised rfl h
    | progress => exact clean_handleProgress h offset line
    | tags => exact clean_handleTags h offset line
    | time => exact clean_handleTime h offset line

theorem clean_details {s : Server} {label : Outcome} {detailsParser : DetailsParser} {line : Bytes}
    (hstate : s.state = .readingDetails label detailsParser) (h : detailsParser.Open)
    (haccepts : detailsParser.Accepts line) :
    s.Clean (s.detailsLineReceived label detailsParser line) := by
  obtain ⟨herror, hok⟩ := DetailsParser.lineReceived_accepts h haccepts
  cases hresult : (detailsParser.lineReceived line).result with
  | error e =>
    have hsame : { s with state := .readingDetails label (detailsParser.lineReceived line).parser }
        = s := by
      rw [herror e hresult, ← hstate]
    have heffect : s.detailsLineReceived label detailsParser line = s.raises e := by
      simp only [detailsLineReceived, hresult, hsame]
    rw [heffect]
    exact clean_raises s e
  | ok ended =>
    have hopen := hok ended hresult
    cases ended with
    | false =>
      simp only [detailsLineReceived, hresult]
      exact clean_of_raised rfl hopen
    | true =>
      simp only [detailsLineReceived, hresult]
      exact clean_of_raised rfl trivial

/-- **A line that is accepted** is all or nothing. -/
theorem clean_line {s : Server} (h : s.Open) {line : Bytes} (haccepts : s.Accepts line) :
    s.Clean (s.lineReceived parseDate line) := by
  unfold Accepts at haccepts
  unfold lineReceived
  cases hstate : s.state with
  | outsideTest =>
    rw [hstate] at haccepts
    exact clean_command h fun _ => haccepts
  | inTest => exact clean_command h fun hfalse => nomatch hfalse
  | readingDetails label detailsParser =>
    rw [hstate] at haccepts
    rw [Open, hstate] at h
    exact clean_details hstate h haccepts

/-- **A line that is rejected** raises, and has changed the server. -/
theorem lineReceived_rejects {s : Server} (h : s.Open) {line : Bytes}
    (hrejects : ¬ s.Accepts line) :
    (s.lineReceived parseDate line).raised ≠ none
      ∧ (s.lineReceived parseDate line).server ≠ s := by
  unfold Accepts at hrejects
  unfold lineReceived
  cases hstate : s.state with
  | outsideTest =>
    rw [hstate] at hrejects
    dsimp only at hrejects
    push Not at hrejects
    obtain ⟨offset, hdirective, hlabel⟩ := hrejects
    simp only [commandReceived, hdirective, startTest]
    cases hdecode : decodeLine (line.drop offset) with
    | ok label => exact absurd hdecode (hlabel label)
    | error e =>
      refine ⟨by simp [raises], fun heq => ?_⟩
      have hsame : State.inTest = s.state := congrArg Server.state heq
      rw [hstate] at hsame
      cases hsame
  | inTest =>
    rw [hstate] at hrejects
    exact absurd trivial hrejects
  | readingDetails label detailsParser =>
    rw [hstate] at hrejects
    rw [Open, hstate] at h
    obtain ⟨⟨e, hresult⟩, hchanged⟩ := DetailsParser.lineReceived_rejects h hrejects
    simp only [detailsLineReceived, hresult]
    refine ⟨by simp [raises], fun heq => ?_⟩
    have hsame : State.readingDetails label (detailsParser.lineReceived line).parser = s.state :=
      congrArg Server.state heq
    rw [hstate] at hsame
    exact hchanged (State.readingDetails.inj hsame).2

/-- **All or nothing**: exactly the lines that are accepted. -/
theorem atomic_iff {s : Server} (h : s.Open) (line : Bytes) :
    s.Atomic parseDate line ↔ s.Accepts line := by
  constructor
  · intro hatomic
    by_contra hrejects
    obtain ⟨hraised, hchanged⟩ := @lineReceived_rejects parseDate s h line hrejects
    exact hchanged (hatomic hraised).2
  · intro haccepts
    exact (clean_line h haccepts).1

/-- Lines that raise nothing keep the server's decoder open. -/
theorem Open.linesReceived {s : Server} (h : s.Open) {lines : List Bytes}
    (hraised : (s.linesReceived parseDate lines).raised = none) :
    (s.linesReceived parseDate lines).server.Open := by
  induction lines generalizing s with
  | nil => exact h
  | cons line lines ih =>
    rw [Server.linesReceived] at hraised ⊢
    cases hfirst : (s.lineReceived parseDate line).raised with
    | some e =>
      rw [hfirst] at hraised
      dsimp only at hraised
      rw [hfirst] at hraised
      cases hraised
    | none =>
      rw [hfirst] at hraised
      have haccepts : s.Accepts line := by
        by_contra hrejects
        exact (@lineReceived_rejects parseDate s h line hrejects).1 hfirst
      exact ih ((clean_line h haccepts).2 hfirst) hraised

/-! ## A caller that goes on -/

/-- What a caller sees that goes on behind exceptions: the server, the outputs, and the lines that
have not raised. -/
structure Tolerated where
  server : Server
  outputs : List Output
  lines : List Bytes

variable (parseDate)

/-- `lineReceived` for each line, whatever it raises. -/
def tolerate : Server → List Bytes → Tolerated
  | s, [] => ⟨s, [], []⟩
  | s, line :: lines =>
    let first := s.lineReceived parseDate line
    let rest := tolerate first.server lines
    { server := rest.server
      outputs := first.outputs ++ rest.outputs
      lines := if first.raised = none then line :: rest.lines else rest.lines }

/-- Each line is accepted where it comes. -/
def AcceptsAll : Server → List Bytes → Prop
  | _, [] => True
  | s, line :: lines => s.Accepts line ∧ AcceptsAll (s.lineReceived parseDate line).server lines

variable {parseDate}

/-- Without the lines that raise, the same is seen. -/
theorem tolerate_eq {s : Server} (h : s.Open) {lines : List Bytes}
    (haccepts : s.AcceptsAll parseDate lines) :
    s.linesReceived parseDate (s.tolerate parseDate lines).lines
      = { server := (s.tolerate parseDate lines).server
          outputs := (s.tolerate parseDate lines).outputs } := by
  induction lines generalizing s with
  | nil => rfl
  | cons line lines ih =>
    obtain ⟨hline, hlines⟩ := haccepts
    obtain ⟨hatomic, hopen⟩ := @clean_line parseDate s h line hline
    rw [tolerate]
    dsimp only
    by_cases hraised : (s.lineReceived parseDate line).raised = none
    · rw [if_pos hraised, Server.linesReceived, hraised]
      dsimp only
      rw [ih (hopen hraised) hlines]
    · obtain ⟨houtputs, hserver⟩ := hatomic hraised
      rw [hserver] at hlines ⊢
      rw [if_neg hraised, houtputs, List.nil_append]
      exact ih h hlines

/-- **Lines that raise** leave a server, which lines have brought about without an exception,
alone exactly if it accepts them; and a caller that goes on behind them, as long as it does, sees
what it would see without them. -/
theorem rejected_lines {before : List Bytes}
    (hbefore : (({} : Server).linesReceived parseDate before).raised = none) :
    let s := (({} : Server).linesReceived parseDate before).server
    (∀ line, s.Atomic parseDate line ↔ s.Accepts line)
      ∧ ∀ lines, s.AcceptsAll parseDate lines →
        s.linesReceived parseDate (s.tolerate parseDate lines).lines
          = { server := (s.tolerate parseDate lines).server
              outputs := (s.tolerate parseDate lines).outputs } := by
  intro s
  have hempty : ({} : Server).Open := trivial
  have hopen : s.Open := hempty.linesReceived hbefore
  exact ⟨atomic_iff hopen, fun lines haccepts => tolerate_eq hopen haccepts⟩

/-- A time that cannot be read, inside a test. -/
theorem rejected_time :
    let parseDate : Bytes → Except Error DateTime := fun _ => .error (.valueError (.text "unknown"))
    let s : Server := ⟨.inTest, some ⟨"a"⟩, .some "a"⟩
    s.linesReceived parseDate
        (s.tolerate parseDate [ascii "time: soon\n", ascii "success: a\n"]).lines
      = { server := (s.tolerate parseDate [ascii "time: soon\n", ascii "success: a\n"]).server
          outputs := (s.tolerate parseDate [ascii "time: soon\n", ascii "success: a\n"]).outputs } := by
  intro parseDate s
  have hbefore : ({} : Server).linesReceived parseDate [ascii "test: a\n"]
      = { server := s, outputs := [.call (.startTest ⟨"a"⟩), .subunit (ascii "test: a\n")] } := by
    decide +kernel
  have hraised : (({} : Server).linesReceived parseDate [ascii "test: a\n"]).raised = none := by
    rw [hbefore]
  have hall := (rejected_lines hraised).2 [ascii "time: soon\n", ascii "success: a\n"]
  rw [hbefore] at hall
  exact hall ⟨trivial, trivial, trivial⟩

/-- A test whose label cannot be decoded is not started, and the server takes itself to be in
it. -/
theorem startTest_not_atomic :
    let parseDate : Bytes → Except Error DateTime := fun _ => .error (.valueError (.text "unknown"))
    (({} : Server).linesReceived parseDate []).raised = none
      ∧ ¬ (({} : Server).linesReceived parseDate []).server.Atomic parseDate
        (ascii "test: " ++ [255, 10]) := by
  intro parseDate
  refine ⟨rfl, fun hatomic => ?_⟩
  have hline : ({} : Server).lineReceived parseDate (ascii "test: " ++ [255, 10])
      = { server := { state := .inTest }, raised := some .unicodeDecodeError } := by
    decide +kernel
  have hserver := (hatomic (by rw [Server.linesReceived, hline]; simp)).2
  rw [Server.linesReceived, hline] at hserver
  cases congrArg Server.state hserver

end Server

end Pysubunit.V1
