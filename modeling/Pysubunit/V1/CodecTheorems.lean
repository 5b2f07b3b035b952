/-
Pysubunit.V1.CodecTheorems — the chunked codec round trip.

`Decodes` says what a decoder does with pieces that make up a stream and more:
it takes every piece up to the end marker, hands back all that comes behind it,
and can be closed from there on. `Decodes.cons` adds a piece in front, so that
`awaits_decodes` is an induction on the pieces, with `write_takes` for one piece
up to the end marker and `finished_write` for one behind it.
-/
import Pysubunit.V1.ChunkedTheorems

namespace Pysubunit.V1

open ByteLib

namespace Decoder

/-- What is handed back of a piece, if the stream has ended. -/
def Written.residue (w : Written) : Bytes :=
  match w.result with
  | .ok (some residue) => residue
  | _ => []

/-- Given the pieces, the decoder raises nothing. It returns `None` while
`wire` is not complete, and byte strings from there on, which are `behind` put
together; the output is `content`. Only when `wire` is complete it can be
closed. -/
structure Decodes (d : Decoder) (wire content behind : Bytes) (pieces : List Bytes) : Prop where
  output : ((d.writes pieces).2.map Written.output).flatten = content
  residues : ((d.writes pieces).2.map Written.residue).flatten = behind
  result : ∀ before piece after, pieces = before ++ piece :: after →
    ∃ residue, ((d.writes before).1.write piece).result = .ok residue
      ∧ (residue.isSome = true ↔ wire.length ≤ (before ++ [piece]).flatten.length)
  close : ∀ before after, pieces = before ++ after →
    (d.writes before).1.close = if wire.length ≤ before.flatten.length then .ok ()
      else .error (.valueError (.text "incomplete stream"))

/-- The chunks of a stream with some line ends replaced by a bare LF. -/
def LfSpelled (out wire : Bytes) : Prop :=
  ∃ chunks : List Bytes, (∀ c ∈ chunks, c ≠ []) ∧ out = stream chunks ∧ Spelled false chunks wire

theorem decodes_nil {d : Decoder} {wire : Bytes}
    (hclose : d.close = if wire.length ≤ 0 then .ok ()
      else .error (.valueError (.text "incomplete stream"))) : Decodes d wire [] [] [] := by
  refine ⟨rfl, rfl, ?_, ?_⟩
  · intro before piece after hsplit
    simp at hsplit
  · intro before after hsplit
    obtain ⟨rfl, -⟩ := List.append_eq_nil_iff.mp hsplit.symm
    exact hclose

/-- A piece in front. -/
theorem Decodes.cons {d d' : Decoder} {wire wire' output content behind piece : Bytes}
    {pieces : List Bytes} {residue : Option Bytes}
    (hclose : d.close = if wire.length ≤ 0 then .ok ()
      else .error (.valueError (.text "incomplete stream")))
    (hwrite : d.write piece = ⟨d', output, .ok residue⟩)
    (hsome : residue.isSome = true ↔ wire.length ≤ piece.length)
    (hwire : wire' = wire.drop piece.length) (h : Decodes d' wire' content behind pieces) :
    Decodes d wire (output ++ content) (residue.getD [] ++ behind) (piece :: pieces) := by
  have hlen : ∀ more : Bytes, wire'.length ≤ more.length
      ↔ wire.length ≤ (piece ++ more).length := by
    intro more
    rw [hwire, List.length_drop, List.length_append]
    omega
  have hwrites : ∀ before, d.writes (piece :: before)
      = ((d'.writes before).1, ⟨d', output, .ok residue⟩ :: (d'.writes before).2) := by
    intro before
    rw [writes, hwrite]
  refine ⟨?_, ?_, ?_, ?_⟩
  · rw [hwrites, ← h.output]
    rfl
  · rw [hwrites, ← h.residues]
    cases residue <;> rfl
  · intro before p after hsplit
    cases before with
    | nil =>
      obtain ⟨rfl, rfl⟩ := List.cons.inj hsplit
      refine ⟨residue, ?_, by simpa using hsome⟩
      rw [writes, hwrite]
    | cons q before =>
      obtain ⟨rfl, hsplit'⟩ := List.cons.inj hsplit
      obtain ⟨residue', hresult', hsome'⟩ := h.result before p after hsplit'
      rw [hlen] at hsome'
      rw [hwrites]
      exact ⟨residue', hresult', hsome'⟩
  · intro before after hsplit
    cases before with
    | nil => exact hclose
    | cons q before =>
      obtain ⟨rfl, hsplit'⟩ := List.cons.inj hsplit
      have hrest := h.close before after hsplit'
      rw [hwrites]
      simp only [hlen] at hrest
      exact hrest

/-- Behind the end marker every piece is handed back. -/
theorem finished_write {d : Decoder} (hstate : d.state = .finished) (hbuf : d.bufferedBytes = [])
    {piece : Bytes} (hpiece : piece ≠ []) : d.write piece = ⟨d, [], .ok (some piece)⟩ := by
  obtain ⟨strict, pieces, state, n⟩ := d
  subst hstate hbuf
  have hcall : callState ⟨strict, [piece], .finished, n⟩
      = ([], ⟨strict, [], .finished, n⟩, .returns (some piece)) := by simp [callState, finished]
  have hempty : piece.isEmpty = false := by simpa using hpiece
  rw [write, hempty]
  exact runStates_returns hcall

theorem finished_decodes {pieces : List Bytes} (hpieces : ∀ p ∈ pieces, p ≠ []) {d : Decoder}
    (hstate : d.state = .finished) (hbuf : d.bufferedBytes = []) :
    Decodes d [] [] pieces.flatten pieces := by
  have hclose : d.close = .ok () := if_pos hstate
  induction pieces with
  | nil => exact decodes_nil hclose
  | cons piece pieces ih =>
    have hwrite := finished_write hstate hbuf (hpieces piece (by simp))
    have hrest := ih fun p hp => hpieces p (by simp [hp])
    exact .cons hclose hwrite (by simp) (by simp) hrest

theorem Awaits.close {d : Decoder} {wire content : Bytes} (h : Awaits d wire content) :
    d.close = if wire.length ≤ 0 then .ok ()
      else .error (.valueError (.text "incomplete stream")) := by
  have hpos := List.length_pos_iff.mpr h.ne_nil
  rw [if_neg (by omega)]
  cases h <;> rfl

/-- **Any pieces of a stream** and what comes behind it. -/
theorem awaits_decodes {pieces : List Bytes} (hpieces : ∀ p ∈ pieces, p ≠ []) {d : Decoder}
    {wire content behind : Bytes} (h : Awaits d wire content)
    (hflat : pieces.flatten = wire ++ behind) : Decodes d wire content behind pieces := by
  induction pieces generalizing d wire content with
  | nil => exact absurd (List.append_eq_nil_iff.mp hflat.symm).1 h.ne_nil
  | cons piece pieces ih =>
    have hpiece := hpieces piece (by simp)
    have hmore : ∀ p ∈ pieces, p ≠ [] := fun p hp => hpieces p (by simp [hp])
    rw [List.flatten_cons] at hflat
    have hfit : Fits piece wire := List.prefix_or_prefix_of_prefix ⟨_, hflat⟩ ⟨behind, rfl⟩
    have htakes := write_takes h hpiece hfit
    generalize hw : d.write piece = written at htakes
    cases htakes with
    | @part d' wire' output content' hsplit hcontent hnext =>
      subst hsplit hcontent
      rw [List.append_assoc] at hflat
      have hpos := List.length_pos_iff.mpr hnext.ne_nil
      refine .cons h.close hw (iff_of_false (by simp) ?_) (by simp)
        (ih hmore hnext (List.append_cancel_left hflat))
      rw [List.length_append]
      omega
    | @whole d' behind' hsplit hstate hbuf =>
      subst hsplit
      rw [List.append_assoc] at hflat
      have hrest := finished_decodes hmore hstate hbuf
      have hdecodes := Decodes.cons h.close hw (by simp) (by simp) hrest
      rwa [List.append_nil, Option.getD_some, List.append_cancel_left hflat] at hdecodes

/-- A stream has one content. -/
theorem stream_content {chunks chunks' : List Bytes} (hchunks : ∀ c ∈ chunks, c ≠ [])
    (hchunks' : ∀ c ∈ chunks', c ≠ []) (h : stream chunks = stream chunks') :
    chunks.flatten = chunks'.flatten := by
  have hpieces : ∀ p ∈ [stream chunks], p ≠ [] := by
    intro p hp
    rw [List.mem_singleton.mp hp]
    exact (spelled_stream true chunks).ne_nil
  have hawaits := awaits_stream true hchunks'
  rw [← h] at hawaits
  have hflat : [stream chunks].flatten = stream chunks ++ [] := by simp
  have hdecodes := awaits_decodes hpieces (awaits_stream true hchunks) hflat
  have hdecodes' := awaits_decodes hpieces hawaits hflat
  exact hdecodes.output.symm.trans hdecodes'.output

end Decoder

open Decoder

/-- **The codec round trip.** What an encoder makes of any writes and flushes,
followed by any bytes and cut into pieces in any way, is decoded to what was
written, and the bytes behind it are handed back; if the decoder is not strict,
line ends of the lengths may be replaced by a bare LF. -/
theorem session_decodes (strict : Bool) (steps : List Encoder.Step) {wire : Bytes}
    (hwire : wire = Encoder.session {} steps
      ∨ (strict = false ∧ LfSpelled (Encoder.session {} steps) wire))
    (behind : Bytes) {pieces : List Bytes} (hpieces : ∀ p ∈ pieces, p ≠ [])
    (hflat : pieces.flatten = wire ++ behind) :
    Decodes { strict } wire (Encoder.given steps) behind pieces := by
  obtain ⟨chunks, hchunks, hsession, hgiven⟩ := Encoder.session_stream Encoder.ready_empty steps
  have hcontent : chunks.flatten = Encoder.given steps := hgiven
  rcases hwire with rfl | ⟨rfl, chunks', hchunks', hsession', hspelled⟩
  · have hspelled := spelled_stream strict chunks
    rw [← hsession] at hspelled
    rw [← hcontent]
    exact awaits_decodes hpieces (awaits_spelled hchunks hspelled) hflat
  · rw [← hcontent, stream_content hchunks hchunks' (hsession.symm.trans hsession')]
    exact awaits_decodes hpieces (awaits_spelled hchunks' hspelled) hflat

/-- Two writes with a flush between them, the CR of the first length left out,
cut inside a length and behind the end marker. -/
theorem session_decodes_flushed :
    Decodes { strict := false } (ascii "2\nab1\r\nc0\r\n") (ascii "abc") (ascii "xy")
      [ascii "2", ascii "\nab1\r", ascii "\nc0\r\nx", ascii "y"] := by
  have hsession : Encoder.session {} [.write (ascii "ab"), .flush, .write (ascii "c")]
      = stream [ascii "ab", ascii "c"] := by decide +kernel
  have hend : IsHeader false 0 (ascii "0\r\n") := .inl (by decide +kernel)
  have hlast : IsHeader false (ascii "c").length (ascii "1\r\n") := .inl (by decide +kernel)
  have hfirst : IsHeader false (ascii "ab").length (ascii "2\n") :=
    .inr ⟨rfl, by decide +kernel⟩
  have hspelled : Spelled false [ascii "ab", ascii "c"] (ascii "2\nab1\r\nc0\r\n") :=
    .cons hfirst (.cons hlast (.nil hend))
  have hchunks : ∀ c ∈ [ascii "ab", ascii "c"], c ≠ [] := by simp [ascii]
  have hpieces : ∀ p ∈ [ascii "2", ascii "\nab1\r", ascii "\nc0\r\nx", ascii "y"], p ≠ [] := by
    simp [ascii]
  exact session_decodes false [.write (ascii "ab"), .flush, .write (ascii "c")]
    (.inr ⟨rfl, _, hchunks, hsession, hspelled⟩) (ascii "xy") hpieces (by decide +kernel)

end Pysubunit.V1
