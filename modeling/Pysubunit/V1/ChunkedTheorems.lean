/-
Pysubunit.V1.ChunkedTheorems — what the chunked decoder does with what the
encoder writes.

A `stream` is a list of non-empty chunks behind their lengths, closed by an
empty one. Whatever is given to an encoder comes out as such a stream
(`session_stream`), and at any moment before that its output is whole chunks
and its buffer the rest (`run_chunks`). A decoder that has been given part of a stream `Awaits`
the rest, with all that a header cut in two leaves in its buffer; `write_takes`
says what one more piece does to it, wherever the stream is cut: the
decoder returns `None` and awaits what is left, or it returns the bytes behind
the end marker and has put out all the contents.
-/
import Pysubunit.V1.Chunked

namespace Pysubunit.V1

open ByteLib
open Encoder (header)

/-! ## Streams -/

/-- A chunk behind its length. -/
def chunk (body : Bytes) : Bytes := header body.length ++ body

/-- Chunks, and the end marker. -/
def stream (chunks : List Bytes) : Bytes := chunks.flatMap chunk ++ header 0

@[simp] theorem stream_nil : stream [] = header 0 := rfl

@[simp] theorem stream_cons (c : Bytes) (cs : List Bytes) :
    stream (c :: cs) = header c.length ++ (c ++ stream cs) := by
  simp [stream, chunk]

/-! ## The encoder writes streams -/

namespace Encoder

/-- `buffer_size` counts the bytes in the buffer. -/
def Counts (e : Encoder) : Prop := e.bufferSize = e.bufferedBytes.flatten.length

theorem counts_empty : Counts {} := rfl

theorem flush_counts {e : Encoder} (h : e.Counts) {extraLen : Nat}
    (hpos : e.bufferedBytes.flatten.length + extraLen ≠ 0) :
    e.flush extraLen
      = ({}, header (e.bufferedBytes.flatten.length + extraLen) ++ e.bufferedBytes.flatten) := by
  have hsize : ¬ (e.bufferSize = 0 ∧ extraLen = 0) := by
    rw [h]
    omega
  rw [flush, if_neg hsize, ← h]
  by_cases hzero : e.bufferSize = 0
  · have hnil : e.bufferedBytes.flatten = [] := by
      rw [← List.length_eq_zero_iff, ← h, hzero]
    simp [hzero, hnil]
  · simp [hzero]

theorem write_direct {e : Encoder} (h : e.Counts) {bytes : Bytes}
    (hlen : 65536 ≤ e.bufferSize + bytes.length) :
    e.write bytes = ({}, chunk (e.bufferedBytes.flatten ++ bytes)) := by
  have hpos : e.bufferedBytes.flatten.length + bytes.length ≠ 0 := by
    rw [← h]
    omega
  simp only [write, if_pos hlen, flush_counts h hpos, chunk, List.length_append, List.append_assoc]

theorem write_buffered {e : Encoder} (h : e.Counts) {bytes : Bytes}
    (hlen : ¬ 65536 ≤ e.bufferSize + bytes.length) :
    (e.write bytes).2 = [] ∧ (e.write bytes).1.Counts
      ∧ (e.write bytes).1.bufferedBytes = e.bufferedBytes ++ [bytes] := by
  simp only [write, if_neg hlen, Counts, List.flatten_append, List.length_append]
  simp [h.symm]

theorem close_counts {e : Encoder} (h : e.Counts) :
    e.close = stream (if e.bufferedBytes.flatten = [] then [] else [e.bufferedBytes.flatten]) := by
  by_cases hnil : e.bufferedBytes.flatten = []
  · have hzero : e.bufferSize = 0 := by rw [h, hnil]; rfl
    rw [if_pos hnil, close, flush, if_pos ⟨hzero, rfl⟩]
    show ascii "0\r\n" = header 0
    decide
  · have hpos : e.bufferedBytes.flatten.length + 0 ≠ 0 := by
      rw [Nat.add_zero]
      exact fun h0 => hnil (List.length_eq_zero_iff.mp h0)
    rw [if_neg hnil, close, flush_counts h hpos, stream_cons, stream_nil]
    simp only [Nat.add_zero, List.append_assoc]
    rw [show ascii "0\r\n" = header 0 by decide]

/-- The bytes that are given to an encoder. -/
def given (steps : List Step) : Bytes :=
  steps.flatMap fun
    | .write bytes => bytes
    | .flush => []

@[simp] theorem given_nil : given [] = [] := rfl

@[simp] theorem given_write (bytes : Bytes) (steps : List Step) :
    given (.write bytes :: steps) = bytes ++ given steps := rfl

@[simp] theorem given_flush (steps : List Step) : given (.flush :: steps) = given steps := rfl

/-- An encoder that counts what it holds back, and holds back little. -/
structure Ready (e : Encoder) : Prop where
  counts : e.Counts
  small : e.bufferSize < 65536

theorem ready_empty : Ready {} := ⟨counts_empty, by decide⟩

/-- A call writes chunks; they and the buffer hold what the buffer held and what is given. -/
theorem step_chunks {e : Encoder} (h : e.Ready) (s : Step) :
    (e.step s).1.Ready ∧ ∃ bodies : List Bytes, (∀ body ∈ bodies, body ≠ [])
      ∧ (e.step s).2 = bodies.flatMap chunk
      ∧ bodies.flatten ++ (e.step s).1.bufferedBytes.flatten
        = e.bufferedBytes.flatten ++ given [s] := by
  cases s with
  | write bytes =>
    by_cases hlen : 65536 ≤ e.bufferSize + bytes.length
    · have hstep : e.step (.write bytes) = _ := write_direct h.counts hlen
      rw [hstep]
      refine ⟨ready_empty, [e.bufferedBytes.flatten ++ bytes], ?_, by simp, by simp⟩
      intro body hbody hnil
      rw [List.mem_singleton.mp hbody] at hnil
      rw [h.counts, ← List.length_append, hnil] at hlen
      simp at hlen
    · obtain ⟨hout, hcounts, hbuf⟩ := write_buffered h.counts hlen
      have hsmall : (e.write bytes).1.bufferSize < 65536 := by
        rw [write, if_neg hlen]
        exact Nat.lt_of_not_le hlen
      exact ⟨⟨hcounts, hsmall⟩, [], by simp, hout, by simp [step, hbuf]⟩
  | flush =>
    by_cases hnil : e.bufferedBytes.flatten = []
    · have hzero : e.bufferSize = 0 := by rw [h.counts, hnil]; rfl
      have hstep : e.step .flush = (e, []) := by
        rw [step, flush, if_pos ⟨hzero, rfl⟩]
      rw [hstep]
      exact ⟨h, [], by simp, rfl, by simp⟩
    · have hpos : e.bufferedBytes.flatten.length + 0 ≠ 0 := by
        rw [Nat.add_zero]
        exact fun h0 => hnil (List.length_eq_zero_iff.mp h0)
      have hstep : e.step .flush = _ := flush_counts h.counts hpos
      rw [hstep]
      exact ⟨ready_empty, [e.bufferedBytes.flatten], by simpa using hnil, by simp [chunk], by simp⟩

/-- Calls write chunks. -/
theorem run_bodies {e : Encoder} (h : e.Ready) (steps : List Step) :
    (e.run steps).1.Ready ∧ ∃ bodies : List Bytes, (∀ body ∈ bodies, body ≠ [])
      ∧ (e.run steps).2 = bodies.flatMap chunk
      ∧ bodies.flatten ++ (e.run steps).1.bufferedBytes.flatten
        = e.bufferedBytes.flatten ++ given steps := by
  induction steps generalizing e with
  | nil => exact ⟨h, [], by simp, rfl, by simp [run]⟩
  | cons s steps ih =>
    obtain ⟨hready, bodies, hne, hout, hflat⟩ := step_chunks h s
    obtain ⟨hready', bodies', hne', hout', hflat'⟩ := ih hready
    refine ⟨hready', bodies ++ bodies', ?_, ?_, ?_⟩
    · intro body hbody
      exact (List.mem_append.mp hbody).elim (hne body) (hne' body)
    · simp only [run, hout, hout', List.flatMap_append]
    · have hgiven : given (s :: steps) = given [s] ++ given steps := by simp [given]
      rw [hgiven, ← List.append_assoc, ← hflat, List.flatten_append, List.append_assoc]
      simp only [run]
      rw [hflat', List.append_assoc]

/-- **What is given to an encoder comes out as a stream** of non-empty chunks
with the same bytes, wherever it is flushed. -/
theorem session_stream {e : Encoder} (h : e.Ready) (steps : List Step) :
    ∃ chunks : List Bytes, (∀ c ∈ chunks, c ≠ []) ∧ e.session steps = stream chunks
      ∧ chunks.flatten = e.bufferedBytes.flatten ++ given steps := by
  obtain ⟨hready, bodies, hne, hout, hflat⟩ := run_bodies h steps
  simp only [session, hout, close_counts hready.counts]
  by_cases hnil : (e.run steps).1.bufferedBytes.flatten = []
  · rw [if_pos hnil]
    rw [hnil, List.append_nil] at hflat
    exact ⟨bodies, hne, rfl, hflat⟩
  · rw [if_neg hnil]
    refine ⟨bodies ++ [(e.run steps).1.bufferedBytes.flatten], ?_, ?_, by simpa using hflat⟩
    · intro c hc
      rcases List.mem_append.mp hc with hc | hc
      · exact hne c hc
      · rw [List.mem_singleton.mp hc]
        exact hnil
    · simp [stream]

theorem given_map_write (pieces : List Bytes) : given (pieces.map .write) = pieces.flatten := by
  induction pieces with
  | nil => rfl
  | cons piece pieces ih => exact congrArg (piece ++ ·) ih

/-- What is written to an encoder comes out as a stream. -/
theorem encode_stream {e : Encoder} (h : e.Ready) (pieces : List Bytes) :
    ∃ chunks : List Bytes, (∀ c ∈ chunks, c ≠ []) ∧ e.encode pieces = stream chunks
      ∧ chunks.flatten = e.bufferedBytes.flatten ++ pieces.flatten := by
  rw [← given_map_write pieces]
  exact session_stream h _

end Encoder

/-! ## Headers -/

/-- A digit of a header is a character the decoder looks for, and ends no
line. -/
theorem digitByte_match {d : Nat} (hd : d < 16) :
    digitByte d ∈ Decoder.matchChars ∧ digitByte d ≠ 10 ∧ digitByte d ≠ 13 := by
  have htable : ∀ e < 16, digitByte e ∈ Decoder.matchChars ∧ digitByte e ≠ 10
      ∧ digitByte e ≠ 13 := by decide
  exact htable d hd

theorem numeral_match {n : Nat} {b : UInt8} (h : b ∈ numeral 16 n) :
    b ∈ Decoder.matchChars ∧ b ≠ 10 ∧ b ≠ 13 := by
  obtain ⟨d, hd, rfl⟩ := mem_numeral (by decide) h
  exact digitByte_match hd

/-- All but the newline of a header. -/
def headerLine (n : Nat) : Bytes := numeral 16 n ++ [13]

theorem header_eq (n : Nat) : header n = headerLine n ++ [10] := by simp [header, headerLine]

theorem headerLine_match {n : Nat} {b : UInt8} (h : b ∈ headerLine n) :
    b ∈ Decoder.matchChars ∧ b ≠ 10 := by
  rcases List.mem_append.mp h with h | h
  · have := numeral_match h
    exact ⟨this.1, this.2.1⟩
  · rw [List.mem_singleton] at h
    subst h
    decide

namespace Encoder

/-- A complete chunk as it stands in the output: upper-case hexadecimal digits,
a line end, and as many bytes as the digits say. -/
def IsChunk (bytes body : Bytes) : Prop :=
  ∃ digits : Bytes, bytes = digits ++ [13, 10] ++ body ∧ body ≠ []
    ∧ (∀ b ∈ digits, b ∈ ascii "0123456789ABCDEF") ∧ intOf 16 digits = some body.length

theorem isChunk_chunk {body : Bytes} (h : body ≠ []) : IsChunk (chunk body) body := by
  refine ⟨numeral 16 body.length, rfl, h, ?_, intOf_numeral (by decide) (by decide) _⟩
  intro b hb
  obtain ⟨d, hd, rfl⟩ := mem_numeral (by decide) hb
  have htable : ∀ e < 16, digitByte e ∈ ascii "0123456789ABCDEF" := by decide
  exact htable d hd

/-- The output of calls, cut into its chunks. -/
theorem isChunk_bodies {bodies : List Bytes} (h : ∀ body ∈ bodies, body ≠ []) :
    List.Forall₂ IsChunk (bodies.map chunk) bodies := by
  induction bodies with
  | nil => exact .nil
  | cons body bodies ih =>
    exact .cons (isChunk_chunk (h body (by simp))) (ih fun c hc => h c (by simp [hc]))

/-- **After any calls** the buffer is counted and small, the output is whole
non-empty chunks, and nothing is lost between the two; the empty chunk comes
with `close` alone. -/
theorem run_chunks (steps : List Step) :
    let e := (run {} steps).1
    let output := (run {} steps).2
    e.bufferSize = e.bufferedBytes.flatten.length ∧ e.bufferSize < 65536
      ∧ (∃ chunks bodies, List.Forall₂ IsChunk chunks bodies ∧ output = chunks.flatten
        ∧ bodies.flatten ++ e.bufferedBytes.flatten = given steps)
      ∧ ∃ chunks bodies, List.Forall₂ IsChunk chunks bodies
        ∧ output ++ e.close = chunks.flatten ++ ascii "0\r\n" ∧ bodies.flatten = given steps := by
  intro e output
  obtain ⟨hready, bodies, hne, hout, hflat⟩ := run_bodies ready_empty steps
  obtain ⟨bodies', hne', hsession, hflat'⟩ := session_stream ready_empty steps
  refine ⟨hready.counts, hready.small, ⟨bodies.map chunk, bodies, isChunk_bodies hne, ?_, ?_⟩,
    bodies'.map chunk, bodies', isChunk_bodies hne', ?_, hflat'⟩
  · exact hout.trans (by rw [List.flatMap_def])
  · exact hflat
  · have hmarker : header 0 = ascii "0\r\n" := by decide
    have hclosed : output ++ e.close = session {} steps := rfl
    rw [hclosed, hsession, stream, hmarker, List.flatMap_def]

end Encoder

namespace Decoder

/-- A length behind which there is a CRLF or, if the decoder is not strict, a
bare LF. -/
def IsHeader (strict : Bool) (n : Nat) (bytes : Bytes) : Prop :=
  bytes = header n ∨ (strict = false ∧ bytes = numeral 16 n ++ [10])

theorem isHeader_header (strict : Bool) (n : Nat) : IsHeader strict n (header n) := .inl rfl

/-- A header is a line. -/
theorem IsHeader.line {strict : Bool} {n : Nat} {bytes : Bytes} (h : IsHeader strict n bytes) :
    ∃ line, bytes = line ++ [10] ∧ ∀ b ∈ line, b ∈ matchChars ∧ b ≠ 10 := by
  rcases h with rfl | ⟨-, rfl⟩
  · exact ⟨headerLine n, header_eq n, fun b hb => headerLine_match hb⟩
  · refine ⟨numeral 16 n, rfl, fun b hb => ?_⟩
    have := numeral_match hb
    exact ⟨this.1, this.2.1⟩

theorem IsHeader.ne_nil {strict : Bool} {n : Nat} {bytes : Bytes} (h : IsHeader strict n bytes) :
    bytes ≠ [] := by
  obtain ⟨line, rfl, -⟩ := h.line
  simp

/-- The line end is stripped off. -/
theorem rdropWhile_numeral (n : Nat) :
    (numeral 16 n).rdropWhile (fun b => b == 10 || b == 13) = numeral 16 n := by
  rw [List.rdropWhile_eq_self_iff]
  intro hne hend
  have := numeral_match (List.getLast_mem hne)
  simp [this.2.1, this.2.2] at hend

/-- A header announces its length. -/
theorem IsHeader.headerLength {strict : Bool} {n : Nat} {bytes : Bytes}
    (h : IsHeader strict n bytes) : headerLength strict bytes = .ok n := by
  have hcr : 13 ∉ numeral 16 n := fun h => (numeral_match h).2.2 rfl
  rcases h with rfl | ⟨rfl, rfl⟩
  · have hlast : lastBytes (header n) 2 = [13, 10] := lastBytes_append _ _
    have hinit : dropLastBytes (header n) 2 = numeral 16 n := dropLastBytes_append _ _
    have hstrip : (header n).rdropWhile (fun b => b == 10 || b == 13) = numeral 16 n := by
      rw [header, show numeral 16 n ++ [13, 10] = numeral 16 n ++ [13] ++ [10] by simp,
        List.rdropWhile_concat_pos _ _ _ (by decide), List.rdropWhile_concat_pos _ _ _ (by decide),
        rdropWhile_numeral]
    simp [Decoder.headerLength, hlast, hinit, hcr, hstrip, intOf_numeral]
  · have hstrip : (numeral 16 n ++ [10]).rdropWhile (fun b => b == 10 || b == 13) = numeral 16 n := by
      rw [List.rdropWhile_concat_pos _ _ _ (by decide), rdropWhile_numeral]
    simp [Decoder.headerLength, hstrip, intOf_numeral]

/-! ## Reading a header -/

theorem countChars_all {piece : Bytes} (h : ∀ b ∈ piece, b ∈ matchChars ∧ b ≠ 10) (more : Bytes) :
    countChars (piece ++ more) = piece ++ countChars more := by
  induction piece with
  | nil => rfl
  | cons b piece ih =>
    have hb := h b (by simp)
    rw [List.cons_append, countChars, if_neg (by simp [hb.1]), if_neg hb.2,
      ih fun c hc => h c (by simp [hc])]
    rfl

theorem flatMap_countChars_all {pieces : List Bytes}
    (h : ∀ b ∈ pieces.flatten, b ∈ matchChars ∧ b ≠ 10) :
    pieces.flatMap countChars = pieces.flatten := by
  induction pieces with
  | nil => rfl
  | cons piece pieces ih =>
    have hpiece : countChars piece = piece := by
      have hall : ∀ b ∈ piece, b ∈ matchChars ∧ b ≠ 10 := fun b hb => h b (by simp [hb])
      simpa [countChars] using countChars_all hall []
    rw [List.flatMap_cons, hpiece, ih fun b hb => h b (by
      rw [List.flatten_cons, List.mem_append]
      exact .inr hb)]
    rfl

/-- Pieces that make up only part of a header wait. -/
theorem readLength_waits {d : Decoder} {strict : Bool} {n : Nat} {rest : Bytes}
    (h : IsHeader strict n (d.buffered ++ rest)) (hrest : rest ≠ []) :
    d.readLength = (d, .returns none) := by
  obtain ⟨line, hline, hmatch⟩ := h.line
  have hpre : d.buffered <+: line := by
    have hprefix : d.buffered <+: line ++ [10] := ⟨rest, hline⟩
    exact (List.prefix_concat_iff.mp hprefix).resolve_left fun heq => by
      rw [heq] at hline
      exact hrest (List.append_right_eq_self.mp hline)
  have hall : ∀ b ∈ d.bufferedBytes.flatten, b ∈ matchChars ∧ b ≠ 10 := by
    intro b hb
    exact hmatch b (hpre.subset hb)
  have hlast : (d.bufferedBytes.flatMap countChars).getLast? ≠ some 10 := by
    rw [flatMap_countChars_all hall]
    intro h10
    exact (hall 10 (List.mem_of_getLast? h10)).2 rfl
  unfold readLength
  simp only [if_pos hlast]

/-- What a whole header leaves in the buffer: at most one piece. -/
def remnant (more : Bytes) : List Bytes := if more = [] then [] else [more]

theorem dropExcess_append {pieces : List Bytes} {excess : Nat} (more : List Bytes)
    (h : pieces.flatten.length < excess) :
    dropExcess (pieces ++ more) excess = dropExcess more (excess - pieces.flatten.length) := by
  induction pieces generalizing excess with
  | nil => rfl
  | cons piece pieces ih =>
    rw [List.flatten_cons, List.length_append] at h
    rw [List.cons_append, dropExcess, if_neg (by omega), if_pos (by omega), ih (by omega),
      List.flatten_cons, List.length_append, Nat.sub_add_eq]

theorem dropExcess_header {pieces : List Bytes} {piece line more : Bytes}
    (h : pieces.flatten ++ piece = line ++ more) (hlen : pieces.flatten.length < line.length) :
    dropExcess (pieces ++ [piece]) line.length = remnant more := by
  have hpiece : piece = line.drop pieces.flatten.length ++ more := by
    have := congrArg (List.drop pieces.flatten.length) h
    rwa [List.drop_left, List.drop_append_of_le_length (Nat.le_of_lt hlen)] at this
  rw [dropExcess_append _ hlen, dropExcess, if_neg (by omega), remnant]
  by_cases hmore : more = []
  · rw [if_pos hmore, if_pos (by rw [hpiece, hmore]; simp), dropExcess]
  · have hpos := List.length_pos_iff.mpr hmore
    rw [if_neg hmore, if_neg (by rw [hpiece]; simp; omega), hpiece,
      List.drop_left' (by rw [List.length_drop])]

/-- Pieces of which the last completes a line, and what is read then. -/
theorem readLength_line {d : Decoder} {pieces : List Bytes} {part more : Bytes}
    (hbuf : d.bufferedBytes = pieces ++ [part ++ 10 :: more])
    (hline : ∀ b ∈ pieces.flatten ++ part, b ∈ matchChars ∧ b ≠ 10) :
    d.readLength =
      match headerLength d.strict (pieces.flatten ++ part ++ [10]) with
      | .error e => (d, .raises e)
      | .ok n =>
        if n = 0 then
          ({ d with bufferedBytes := remnant more, bodyLength := 0, state := .finished },
            if (remnant more).isEmpty then .returns (some []) else .calls)
        else
          ({ d with bufferedBytes := remnant more, bodyLength := n, state := .readBody }, .calls) := by
  have hcount : d.bufferedBytes.flatMap countChars = pieces.flatten ++ part ++ [10] := by
    have hbefore : pieces.flatMap countChars = pieces.flatten :=
      flatMap_countChars_all fun b hb => hline b (List.mem_append_left _ hb)
    have hafter : countChars (part ++ 10 :: more) = part ++ [10] := by
      rw [countChars_all fun b hb => hline b (List.mem_append_right _ hb)]
      rfl
    rw [hbuf, List.flatMap_append, hbefore, List.flatMap_singleton, hafter, List.append_assoc]
  have hlast : (pieces.flatten ++ part ++ [10]).getLast? = some 10 := List.getLast?_concat ..
  have hdrop : dropExcess d.bufferedBytes (pieces.flatten ++ part ++ [10]).length
      = remnant more := by
    rw [hbuf]
    apply dropExcess_header
    · simp
    · simp only [List.length_append, List.length_singleton]
      omega
  unfold readLength
  simp only [hcount, hlast, ne_eq, not_true_eq_false, if_false, hdrop]
  cases headerLength d.strict (pieces.flatten ++ part ++ [10]) with
  | error e => rfl
  | ok n =>
    dsimp only
    split
    · split <;> rfl
    · rfl

/-- Pieces of which the last completes a header. -/
theorem readLength_header {d : Decoder} {n : Nat} {pieces : List Bytes} {piece more bytes : Bytes}
    (hbuf : d.bufferedBytes = pieces ++ [piece]) (hheader : IsHeader d.strict n bytes)
    (h : pieces.flatten ++ piece = bytes ++ more) (hlen : pieces.flatten.length < bytes.length) :
    d.readLength =
      if n = 0 then
        ({ d with bufferedBytes := remnant more, bodyLength := 0, state := .finished },
          if (remnant more).isEmpty then .returns (some []) else .calls)
      else ({ d with bufferedBytes := remnant more, bodyLength := n, state := .readBody }, .calls) := by
  obtain ⟨line, hbytes, hmatch⟩ := hheader.line
  obtain ⟨part, hpart⟩ : pieces.flatten <+: line := by
    have hpre : pieces.flatten <+: bytes :=
      List.prefix_of_prefix_length_le ⟨piece, h⟩ ⟨more, rfl⟩ (Nat.le_of_lt hlen)
    rw [hbytes] at hpre hlen
    exact (List.prefix_concat_iff.mp hpre).resolve_left fun heq => by simp [heq] at hlen
  have hpiece : piece = part ++ 10 :: more := by
    rw [hbytes, ← hpart, List.append_assoc, List.append_assoc] at h
    exact List.append_cancel_left h
  rw [hpiece] at hbuf
  rw [readLength_line hbuf (by rwa [hpart]), hpart, ← hbytes, hheader.headerLength]

/-! ## The loop of state calls -/

theorem runStates_returns {d d' : Decoder} {os : List Bytes} {residue : Option Bytes}
    (h : d.callState = (os, d', .returns residue)) :
    d.runStates = ⟨d', os.flatten, .ok residue⟩ := by
  have hcall : states.body (.call d) = (os, .again (.back d' residue)) := by
    show turn (.call d) = _
    rw [turn, h]
  have hback : (states.body (.back d' residue)).2 = .stop := rfl
  have hnone : (states.body (.back d' residue)).1 = [] := rfl
  rw [runStates, Loop.run_again (by rw [hcall]), Loop.run_stop hback, hcall, hnone]
  simp

theorem runStates_raises {d d' : Decoder} {os : List Bytes} {e : Error}
    (h : d.callState = (os, d', .raises e)) : d.runStates = ⟨d', os.flatten, .error e⟩ := by
  have hcall : states.body (.call d) = (os, .raise (d', e)) := by
    show turn (.call d) = _
    rw [turn, h]
  rw [runStates, Loop.run_raise (by rw [hcall]), hcall]

theorem runStates_calls {d d' : Decoder} {os : List Bytes} (h : d.callState = (os, d', .calls)) :
    d.runStates
      = ⟨d'.runStates.decoder, os.flatten ++ d'.runStates.output, d'.runStates.result⟩ := by
  have hcall : states.body (.call d) = (os, .again (.call d')) := by
    show turn (.call d) = _
    rw [turn, h]
  rw [runStates, Loop.run_again (by rw [hcall]), hcall, runStates]
  rcases states.run (.call d') with ⟨os', r⟩
  rcases r with ⟨d'', e⟩ | t
  · simp
  · cases t <;> simp

/-- What a call puts out stays put out. -/
theorem prefix_runStates {d d' : Decoder} {os : List Bytes} {e : StateEnd}
    (h : d.callState = (os, d', e)) : os.flatten <+: d.runStates.output := by
  cases e with
  | returns residue => rw [runStates_returns h]
  | raises e => rw [runStates_raises h]
  | calls =>
    rw [runStates_calls h]
    exact List.prefix_append _ _

/-! ## A decoder that awaits the rest of a stream -/

/-- The length that the first header of a stream announces. -/
def firstLength : List Bytes → Nat
  | [] => 0
  | c :: _ => c.length

/-- A stream of the chunks, each length with one of the line ends that the
decoder takes. -/
inductive Spelled (strict : Bool) : List Bytes → Bytes → Prop where
  | nil {bytes : Bytes} (h : IsHeader strict 0 bytes) : Spelled strict [] bytes
  | cons {c bytes wire : Bytes} {cs : List Bytes} (h : IsHeader strict c.length bytes)
      (hwire : Spelled strict cs wire) : Spelled strict (c :: cs) (bytes ++ (c ++ wire))

theorem spelled_stream (strict : Bool) (chunks : List Bytes) :
    Spelled strict chunks (stream chunks) := by
  induction chunks with
  | nil => exact .nil (isHeader_header strict 0)
  | cons c cs ih =>
    rw [stream_cons]
    exact .cons (isHeader_header strict _) ih

/-- What comes behind the first header of a stream. -/
inductive Behind (strict : Bool) : List Bytes → Bytes → Prop where
  | nil : Behind strict [] []
  | cons {c wire : Bytes} {cs : List Bytes} (hwire : Spelled strict cs wire) :
      Behind strict (c :: cs) (c ++ wire)

/-- A stream begins with a header. -/
theorem Spelled.header {strict : Bool} {chunks : List Bytes} {wire : Bytes}
    (h : Spelled strict chunks wire) :
    ∃ bytes behind, wire = bytes ++ behind ∧ IsHeader strict (firstLength chunks) bytes
      ∧ Behind strict chunks behind := by
  cases h with
  | nil h => exact ⟨_, [], (List.append_nil _).symm, h, .nil⟩
  | cons h hwire => exact ⟨_, _, rfl, h, .cons hwire⟩

theorem Spelled.ne_nil {strict : Bool} {chunks : List Bytes} {wire : Bytes}
    (h : Spelled strict chunks wire) : wire ≠ [] := by
  obtain ⟨bytes, behind, rfl, hheader, -⟩ := h.header
  simp [hheader.ne_nil]

/-- The decoder has been given part of a stream of non-empty chunks: `wire` is
still to come, and with it `content`. -/
inductive Awaits : Decoder → (wire content : Bytes) → Prop where
  | header {strict : Bool} {pieces chunks : List Bytes} {rest behind : Bytes}
      (hchunks : ∀ c ∈ chunks, c ≠ []) (hrest : rest ≠ [])
      (h : IsHeader strict (firstLength chunks) (pieces.flatten ++ rest))
      (hbehind : Behind strict chunks behind) :
      Awaits ⟨strict, pieces, .readLength, 0⟩ (rest ++ behind) chunks.flatten
  | body {strict : Bool} {chunks : List Bytes} {left wire : Bytes}
      (hchunks : ∀ c ∈ chunks, c ≠ []) (hleft : left ≠ []) (hwire : Spelled strict chunks wire) :
      Awaits ⟨strict, [], .readBody, left.length⟩ (left ++ wire) (left ++ chunks.flatten)

theorem Awaits.ne_nil {d : Decoder} {wire content : Bytes} (h : Awaits d wire content) :
    wire ≠ [] := by
  cases h with
  | header hchunks hrest h hbehind => simp [hrest]
  | body hchunks hleft hwire => simp [hleft]

theorem awaits_spelled {strict : Bool} {chunks : List Bytes} {wire : Bytes}
    (hchunks : ∀ c ∈ chunks, c ≠ []) (hwire : Spelled strict chunks wire) :
    Awaits ⟨strict, [], .readLength, 0⟩ wire chunks.flatten := by
  obtain ⟨bytes, behind, rfl, hheader, hbehind⟩ := hwire.header
  exact .header hchunks hheader.ne_nil hheader hbehind

theorem awaits_stream (strict : Bool) {chunks : List Bytes} (hchunks : ∀ c ∈ chunks, c ≠ []) :
    Awaits ⟨strict, [], .readLength, 0⟩ (stream chunks) chunks.flatten :=
  awaits_spelled hchunks (spelled_stream strict chunks)

/-- What the decoder does with a piece of the stream: it takes the piece and
awaits what is left, or it reaches the end and hands back what is behind it. -/
inductive Takes (wire content piece : Bytes) : Written → Prop where
  | part {d : Decoder} {wire' output content' : Bytes} (hwire : wire = piece ++ wire')
      (hcontent : content = output ++ content') (h : Awaits d wire' content') :
      Takes wire content piece ⟨d, output, .ok none⟩
  | whole {d : Decoder} {behind : Bytes} (hpiece : piece = wire ++ behind)
      (hstate : d.state = .finished) (hbuf : d.bufferedBytes = []) :
      Takes wire content piece ⟨d, content, .ok (some behind)⟩

/-- Bytes that only pass through in front. -/
theorem Takes.prepend {wire content piece : Bytes} {r : Written} (h : Takes wire content piece r)
    (before passed : Bytes) :
    Takes (before ++ wire) (passed ++ content) (before ++ piece)
      ⟨r.decoder, passed ++ r.output, r.result⟩ := by
  cases h with
  | part hwire hcontent h =>
    exact .part (by simp [hwire]) (by simp [hcontent]) h
  | whole hpiece hstate hbuf =>
    exact .whole (by simp [hpiece]) hstate hbuf

/-- One of two byte strings begins with the other. -/
def Fits (a b : Bytes) : Prop := a <+: b ∨ b <+: a

theorem Fits.cancel {a b c : Bytes} (h : Fits (a ++ b) (a ++ c)) : Fits b c :=
  h.imp (List.prefix_append_right_inj a).mp (List.prefix_append_right_inj a).mp

theorem Fits.split {a b : Bytes} (h : Fits a b) :
    (∃ more, more ≠ [] ∧ b = a ++ more) ∨ ∃ more, a = b ++ more := by
  rcases h with ⟨more, rfl⟩ | ⟨more, rfl⟩
  · by_cases hmore : more = []
    · exact .inr ⟨[], by simp [hmore]⟩
    · exact .inl ⟨more, hmore, rfl⟩
  · exact .inr ⟨more, rfl⟩

/-- Inside a chunk, if what follows the chunk is taken. -/
theorem takes_body {strict : Bool} {chunks : List Bytes} {wire : Bytes}
    (hchunks : ∀ c ∈ chunks, c ≠ []) (hwire : Spelled strict chunks wire)
    (hnext : ∀ piece, piece ≠ [] → Fits piece wire →
      Takes wire chunks.flatten piece (runStates ⟨strict, [piece], .readLength, 0⟩))
    {left piece : Bytes} (hpiece : piece ≠ []) (hleft : left ≠ [])
    (hfit : Fits piece (left ++ wire)) :
    Takes (left ++ wire) (left ++ chunks.flatten) piece
      (runStates ⟨strict, [piece], .readBody, left.length⟩) := by
  have hn : left.length ≠ 0 := fun h => hleft (List.length_eq_zero_iff.mp h)
  by_cases hlen : piece.length ≤ left.length
  · -- the piece ends inside the chunk or with it
    obtain ⟨left', rfl⟩ : piece <+: left := by
      rcases hfit with h | h
      · exact List.prefix_of_prefix_length_le h ⟨_, rfl⟩ hlen
      · have hle := h.length_le
        have hpos := List.length_pos_iff.mpr hwire.ne_nil
        rw [List.length_append] at hle
        omega
    rw [List.length_append] at hn
    have hsub : (piece ++ left').length - piece.length = left'.length := by simp
    by_cases hend : left' = []
    · subst hend
      have hcall : callState ⟨strict, [piece], .readBody, (piece ++ []).length⟩
          = ([piece], ⟨strict, [], .readLength, 0⟩, .returns none) := by
        simp [callState, readBody, readBodyFrom, hpiece]
      rw [runStates_returns hcall]
      exact .part (by simp) (by simp) (awaits_spelled hchunks hwire)
    · have hcall : callState ⟨strict, [piece], .readBody, (piece ++ left').length⟩
          = ([piece], ⟨strict, [], .readBody, left'.length⟩, .returns none) := by
        simp [callState, readBody, readBodyFrom, hpiece, hend]
      rw [runStates_returns hcall]
      exact .part (by simp) (by simp) (.body hchunks hend hwire)
  · -- the piece goes on behind the chunk
    obtain ⟨piece', rfl⟩ : left <+: piece := by
      rcases hfit with h | h
      · exact List.prefix_of_prefix_length_le ⟨_, rfl⟩ h (Nat.le_of_not_le hlen)
      · exact (List.prefix_append left _).trans h
    have hpiece' : piece' ≠ [] := by
      intro hnil
      simp [hnil] at hlen
    have hcall : callState ⟨strict, [left ++ piece'], .readBody, left.length⟩
        = ([left], ⟨strict, [piece'], .readLength, 0⟩, .calls) := by
      simp [callState, readBody, readBodyFrom, hleft, hpiece']
    have := (hnext piece' hpiece' hfit.cancel).prepend left left
    rw [runStates_calls hcall]
    simpa using this

/-- A piece that does not complete the header. -/
theorem takes_part_of_header {strict : Bool} {chunks : List Bytes} (hchunks : ∀ c ∈ chunks, c ≠ [])
    {pieces : List Bytes} {piece more behind : Bytes} (hmore : more ≠ [])
    (h : IsHeader strict (firstLength chunks) (pieces.flatten ++ (piece ++ more)))
    (hbehind : Behind strict chunks behind) :
    Takes (piece ++ more ++ behind) chunks.flatten piece
      (runStates ⟨strict, pieces ++ [piece], .readLength, 0⟩) := by
  have hheader : IsHeader strict (firstLength chunks) ((pieces ++ [piece]).flatten ++ more) := by
    simpa using h
  have hcall : callState ⟨strict, pieces ++ [piece], .readLength, 0⟩
      = ([], ⟨strict, pieces ++ [piece], .readLength, 0⟩, .returns none) := by
    rw [callState]
    exact congrArg _ (readLength_waits hheader hmore)
  rw [runStates_returns hcall]
  exact .part (List.append_assoc _ _ _) rfl (.header hchunks hmore hheader hbehind)

/-- A piece that completes the header. -/
theorem readLength_completes {strict : Bool} {n : Nat} {pieces : List Bytes} {rest : Bytes}
    (hrest : rest ≠ []) (h : IsHeader strict n (pieces.flatten ++ rest)) (more : Bytes) :
    readLength ⟨strict, pieces ++ [rest ++ more], .readLength, 0⟩ =
      if n = 0 then
        (⟨strict, remnant more, .finished, 0⟩,
          if (remnant more).isEmpty then .returns (some []) else .calls)
      else (⟨strict, remnant more, .readBody, n⟩, .calls) := by
  have hpos := List.length_pos_iff.mpr hrest
  have hlen : pieces.flatten.length < (pieces.flatten ++ rest).length := by
    rw [List.length_append]
    omega
  exact readLength_header rfl h (List.append_assoc _ _ _).symm hlen

/-- Behind a header. -/
theorem takes_header {strict : Bool} {chunks : List Bytes} (hchunks : ∀ c ∈ chunks, c ≠ [])
    {pieces : List Bytes} {rest behind piece : Bytes} (hpiece : piece ≠ []) (hrest : rest ≠ [])
    (h : IsHeader strict (firstLength chunks) (pieces.flatten ++ rest))
    (hbehind : Behind strict chunks behind) (hfit : Fits piece (rest ++ behind)) :
    Takes (rest ++ behind) chunks.flatten piece
      (runStates ⟨strict, pieces ++ [piece], .readLength, 0⟩) := by
  induction chunks generalizing pieces rest behind piece with
  | nil =>
    cases hbehind
    have hfit' : Fits piece rest := by simpa using hfit
    rcases hfit'.split with ⟨more, hmore, rfl⟩ | ⟨more, rfl⟩
    · exact takes_part_of_header hchunks hmore h .nil
    · have hcall := @readLength_completes strict _ pieces rest hrest h more
      by_cases hmore : more = []
      · have hret : callState ⟨strict, pieces ++ [rest ++ more], .readLength, 0⟩
            = ([], ⟨strict, [], .finished, 0⟩, .returns (some [])) := by
          rw [callState, hcall]
          simp [firstLength, remnant, hmore]
        rw [runStates_returns hret]
        exact .whole (by simp [hmore]) rfl rfl
      · have hret : callState ⟨strict, pieces ++ [rest ++ more], .readLength, 0⟩
            = ([], ⟨strict, [more], .finished, 0⟩, .calls) := by
          simp [callState, hcall, firstLength, remnant, hmore]
        have hfin : callState ⟨strict, [more], .finished, 0⟩
            = ([], ⟨strict, [], .finished, 0⟩, .returns (some more)) := by
          simp [callState, finished]
        rw [runStates_calls hret, runStates_returns hfin]
        exact .whole (by simp) rfl rfl
  | cons c cs ih =>
    have hc : c ≠ [] := hchunks c (by simp)
    have hcs : ∀ c ∈ cs, c ≠ [] := fun c' hc' => hchunks c' (by simp [hc'])
    obtain ⟨wire, hwire, rfl⟩ : ∃ wire, Spelled strict cs wire ∧ behind = c ++ wire := by
      cases hbehind with
      | cons hwire => exact ⟨_, hwire, rfl⟩
    have hnext : ∀ piece, piece ≠ [] → Fits piece wire →
        Takes wire cs.flatten piece (runStates ⟨strict, [piece], .readLength, 0⟩) := by
      intro piece hpiece hfit
      obtain ⟨bytes, behind, rfl, hheader, hbehind⟩ := hwire.header
      exact @ih hcs [] _ behind piece hpiece hheader.ne_nil hheader hbehind hfit
    have hfit' : Fits piece rest := by
      rcases hfit with hfit | hfit
      · exact List.prefix_or_prefix_of_prefix hfit ⟨_, rfl⟩
      · exact .inr ((List.prefix_append rest _).trans hfit)
    rcases hfit'.split with ⟨more, hmore, rfl⟩ | ⟨more, rfl⟩
    · exact takes_part_of_header hchunks hmore h (.cons hwire)
    · have hcall := @readLength_completes strict _ pieces rest hrest h more
      have hcalls : callState ⟨strict, pieces ++ [rest ++ more], .readLength, 0⟩
          = ([], ⟨strict, remnant more, .readBody, c.length⟩, .calls) := by
        simp [callState, hcall, firstLength, hc]
      rw [runStates_calls hcalls]
      by_cases hmore : more = []
      · have hbody : callState ⟨strict, remnant more, .readBody, c.length⟩
            = ([], ⟨strict, [], .readBody, c.length⟩, .returns none) := by
          simp [callState, readBody, readBodyFrom, remnant, hmore]
        rw [runStates_returns hbody]
        exact .part (by simp [hmore]) (by simp) (.body hcs hc hwire)
      · have htakes := (takes_body hcs hwire hnext hmore hc hfit.cancel).prepend rest []
        rw [remnant, if_neg hmore]
        exact htakes

/-- **One more piece of a stream**, wherever the pieces are cut. -/
theorem write_takes {d : Decoder} {wire content piece : Bytes} (h : Awaits d wire content)
    (hpiece : piece ≠ []) (hfit : Fits piece wire) : Takes wire content piece (d.write piece) := by
  have hempty : piece.isEmpty = false := by simpa using hpiece
  rw [write, hempty]
  cases h with
  | header hchunks hrest h hbehind => exact takes_header hchunks hpiece hrest h hbehind hfit
  | body hchunks hleft hwire =>
    refine takes_body hchunks hwire (fun piece hpiece hfit => ?_) hpiece hleft hfit
    obtain ⟨bytes, behind, rfl, hheader, hbehind⟩ := hwire.header
    exact @takes_header _ _ hchunks [] _ behind piece hpiece hheader.ne_nil hheader hbehind hfit

end Decoder

end Pysubunit.V1
