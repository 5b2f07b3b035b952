/-
Pysubunit.V1.FragmentTheorems — when the way a stream is cut does not matter to a
strict decoder.

A `reader` reads byte by byte and knows no pieces. As long as it is not stuck in
front of a byte that no header holds, the decoder does with every piece what the
reader does with its bytes (`write_does`). A decoder that is stuck looks at the
next piece from its beginning and may find a newline there, which the byte that it
is stuck at hides in a larger piece: a cut matters just if a newline comes behind
such a byte (`fragmentationIndependent_iff`).
-/
import Pysubunit.ByteLib.Transducer
import Pysubunit.V1.CodecTheorems

namespace Pysubunit.V1.Decoder

open ByteLib

/-! ## Reading byte by byte -/

/-- How far a stream has been read. -/
inductive Phase where
  | header (line : Bytes)
  | body (left : Nat)
  /-- In front of a byte that no header holds. -/
  | stuck
  | failed
  | ended
  deriving DecidableEq, Repr

/-- What a line announces. -/
def Phase.announced (line : Bytes) : Phase :=
  match headerLength true line with
  | .error _ => .failed
  | .ok n => if n = 0 then .ended else .body n

/-- A stream is read byte by byte; the outputs are what is decoded. -/
def reader : Transducer Phase UInt8 UInt8 where
  step phase b :=
    match phase with
    | .header line =>
      if b ∉ matchChars then (.stuck, [])
      else if b = 10 then (.announced (line ++ [10]), [])
      else (.header (line ++ [b]), [])
    | .body n => (if n = 1 then .header [] else .body (n - 1), [b])
    | .stuck => (.stuck, [])
    | .failed => (.failed, [])
    | .ended => (.ended, [])

/-- What comes of a stream. -/
inductive Verdict where
  | ended
  | raised
  | incomplete
  deriving DecidableEq, Repr

def Phase.verdict : Phase → Verdict
  | .ended => .ended
  | .failed => .raised
  | _ => .incomplete

/-- A call that raises. -/
def Written.raises (w : Written) : Bool :=
  match w.result with
  | .error _ => true
  | .ok _ => false

/-- What comes of pieces that are written to a new strict decoder. -/
def verdict (pieces : List Bytes) : Verdict :=
  let fed := writes {} pieces
  if fed.2.any Written.raises then .raised
  else if fed.1.state = .finished then .ended
  else .incomplete

/-- All that is written to `output`. -/
def decoded (pieces : List Bytes) : Bytes := (writes {} pieces).2.flatMap Written.output

/-- However a stream is cut, the same comes of it. -/
def FragmentationIndependent (wire : Bytes) : Prop :=
  ∀ pieces pieces' : List Bytes, (∀ p ∈ pieces, p ≠ []) → (∀ p ∈ pieces', p ≠ []) →
    pieces.flatten = wire → pieces'.flatten = wire →
    verdict pieces = verdict pieces'
      ∧ (verdict pieces ≠ .raised → decoded pieces = decoded pieces')

/-- A newline comes behind a byte that no header holds, where a header is due. -/
def Skips (wire : Bytes) : Prop :=
  ∃ before after, wire = before ++ after ∧ (reader.run (.header []) before).1 = .stuck ∧ 10 ∈ after

/-! ## The reader in one phase -/

/-- Characters of a header. -/
def HeaderChars (line : Bytes) : Prop := ∀ b ∈ line, b ∈ matchChars ∧ b ≠ 10

theorem reader_header (line : Bytes) {part : Bytes} (h : HeaderChars part) :
    reader.run (.header line) part = (.header (line ++ part), []) := by
  induction part generalizing line with
  | nil => simp
  | cons b part ih =>
    have hb := h b List.mem_cons_self
    have hstep : reader.step (.header line) b = (.header (line ++ [b]), []) := by
      simp [reader, hb.1, hb.2]
    rw [Transducer.run_cons, hstep, ih _ fun c hc => h c (List.mem_cons_of_mem b hc)]
    simp

theorem reader_stuck (part : Bytes) : reader.run .stuck part = (.stuck, []) :=
  Transducer.run_fixed (fun _ => rfl) part

theorem reader_failed (part : Bytes) : reader.run .failed part = (.failed, []) :=
  Transducer.run_fixed (fun _ => rfl) part

theorem reader_ended (part : Bytes) : reader.run .ended part = (.ended, []) :=
  Transducer.run_fixed (fun _ => rfl) part

/-- Inside a chunk. -/
theorem reader_body {n : Nat} {part : Bytes} (h : part.length < n) :
    reader.run (.body n) part = (.body (n - part.length), part) := by
  induction part generalizing n with
  | nil => rfl
  | cons b part ih =>
    rw [List.length_cons] at h
    have hstep : reader.step (.body n) b = (.body (n - 1), [b]) := by
      have hn : n ≠ 1 := by omega
      simp [reader, hn]
    rw [Transducer.run_cons, hstep, ih (by omega), List.length_cons, List.singleton_append,
      Nat.add_comm, Nat.sub_sub]

/-- A whole chunk. -/
theorem reader_chunk {n : Nat} {part : Bytes} (hn : 0 < n) (h : part.length = n) :
    reader.run (.body n) part = (.header [], part) := by
  induction part generalizing n with
  | nil =>
    rw [List.length_nil] at h
    omega
  | cons b part ih =>
    rw [List.length_cons] at h
    rw [Transducer.run_cons]
    by_cases hone : n = 1
    · have hnil : part = [] := List.length_eq_zero_iff.mp (by omega)
      subst hone hnil
      rfl
    · have hstep : reader.step (.body n) b = (.body (n - 1), [b]) := by simp [reader, hone]
      rw [hstep, ih (by omega) (by omega)]
      rfl

/-! ## The decoder follows the reader -/

/-- A decoder that is as far as the reader. -/
inductive Follows : Decoder → Phase → Prop where
  | header {pieces : List Bytes} {n : Nat} (hline : HeaderChars pieces.flatten) :
      Follows ⟨true, pieces, .readLength, n⟩ (.header pieces.flatten)
  | body {n : Nat} (hn : 0 < n) : Follows ⟨true, [], .readBody, n⟩ (.body n)
  | stuck {pieces : List Bytes} {n : Nat} (hline : 10 ∉ pieces.flatMap countChars)
      (hmore : (pieces.flatMap countChars).length < pieces.flatten.length) :
      Follows ⟨true, pieces, .readLength, n⟩ .stuck
  | ended {n : Nat} : Follows ⟨true, [], .finished, n⟩ .ended

/-- A call that has done what the reader does. -/
inductive Does : Written → Phase × Bytes → Prop where
  | raises {d : Decoder} {os out : Bytes} {e : Error} : Does ⟨d, os, .error e⟩ (.failed, out)
  | returns {d : Decoder} {out : Bytes} {residue : Option Bytes} {phase : Phase}
      (h : Follows d phase) : Does ⟨d, out, .ok residue⟩ (phase, out)

theorem Does.stuck {w : Written} {out : Bytes} (h : Does w (.stuck, out)) :
    Follows w.decoder .stuck ∧ w.raises = false ∧ w.output = out := by
  cases h with
  | returns h => exact ⟨h, rfl, rfl⟩

/-- Bytes that have been put out before. -/
theorem Does.prepend {w : Written} {read : Phase × Bytes} (h : Does w read) (passed : Bytes) :
    Does ⟨w.decoder, passed ++ w.output, w.result⟩ (read.1, passed ++ read.2) := by
  cases h with
  | raises => exact .raises
  | returns h => exact .returns h

/-- Counting stops at a byte that no header holds. -/
theorem countChars_stops {part more : Bytes} {b : UInt8} (h : HeaderChars part)
    (hb : b ∉ matchChars) : countChars (part ++ b :: more) = part := by
  rw [countChars_all h]
  simp [countChars, hb]

theorem countChars_subset {piece : Bytes} {b : UInt8} (h : b ∈ countChars piece) : b ∈ piece := by
  induction piece with
  | nil => exact h
  | cons c piece ih =>
    rw [countChars] at h
    split at h
    · simp at h
    · split at h
      · rw [List.mem_singleton] at h
        rw [h]
        exact List.mem_cons_self
      · rcases List.mem_cons.mp h with rfl | h
        · exact List.mem_cons_self
        · exact List.mem_cons_of_mem c (ih h)

/-- A newline, a byte that no header holds, or neither. -/
theorem line_cases (piece : Bytes) :
    HeaderChars piece
    ∨ (∃ part more, piece = part ++ 10 :: more ∧ HeaderChars part)
    ∨ ∃ part b more, piece = part ++ b :: more ∧ HeaderChars part ∧ b ∉ matchChars := by
  induction piece with
  | nil => exact Or.inl (by simp [HeaderChars])
  | cons b piece ih =>
    by_cases hb : b ∈ matchChars
    · by_cases hnewline : b = 10
      · exact Or.inr (Or.inl ⟨[], piece, by rw [hnewline]; rfl, by simp [HeaderChars]⟩)
      · have hcons : ∀ {part : Bytes}, HeaderChars part → HeaderChars (b :: part) := by
          intro part hpart c hc
          rcases List.mem_cons.mp hc with rfl | hc
          · exact ⟨hb, hnewline⟩
          · exact hpart c hc
        rcases ih with h | ⟨part, more, rfl, h⟩ | ⟨part, c, more, rfl, h, hc⟩
        · exact Or.inl (hcons h)
        · exact Or.inr (Or.inl ⟨b :: part, more, rfl, hcons h⟩)
        · exact Or.inr (Or.inr ⟨b :: part, c, more, rfl, hcons h, hc⟩)
    · exact Or.inr (Or.inr ⟨[], b, piece, rfl, by simp [HeaderChars], hb⟩)

theorem headerChars_append {line part : Bytes} (hline : HeaderChars line) (hpart : HeaderChars part) :
    HeaderChars (line ++ part) := fun b hb =>
  (List.mem_append.mp hb).elim (hline b) (hpart b)

/-- A header that is not complete waits. -/
theorem does_part {pieces : List Bytes} {piece : Bytes} {n : Nat}
    (hline : HeaderChars pieces.flatten) (hpiece : HeaderChars piece) :
    Does (runStates ⟨true, pieces ++ [piece], .readLength, n⟩)
      (reader.run (.header pieces.flatten) piece) := by
  have hall : HeaderChars (pieces ++ [piece]).flatten := by
    rw [List.flatten_concat]
    exact headerChars_append hline hpiece
  have hlast : ((pieces ++ [piece]).flatMap countChars).getLast? ≠ some 10 := by
    rw [flatMap_countChars_all hall]
    intro h10
    exact (hall 10 (List.mem_of_getLast? h10)).2 rfl
  have hcall : callState ⟨true, pieces ++ [piece], .readLength, n⟩
      = ([], ⟨true, pieces ++ [piece], .readLength, n⟩, .returns none) := by
    simp only [callState, readLength, if_pos hlast]
  rw [runStates_returns hcall, reader_header _ hpiece, ← List.flatten_concat]
  exact .returns (.header hall)

/-- In front of a byte that no header holds, the decoder waits. -/
theorem does_stuck {pieces : List Bytes} {n : Nat} (hline : 10 ∉ pieces.flatMap countChars)
    (hmore : (pieces.flatMap countChars).length < pieces.flatten.length) :
    Does (runStates ⟨true, pieces, .readLength, n⟩) (.stuck, []) := by
  have hlast : (pieces.flatMap countChars).getLast? ≠ some 10 := fun h10 =>
    hline (List.mem_of_getLast? h10)
  have hcall : callState ⟨true, pieces, .readLength, n⟩
      = ([], ⟨true, pieces, .readLength, n⟩, .returns none) := by
    simp only [callState, readLength, if_pos hlast]
  rw [runStates_returns hcall]
  exact .returns (.stuck hline hmore)

/-- The body of a chunk, if what follows it is read as it should be. -/
theorem does_body {piece : Bytes}
    (hnext : ∀ rest, rest ≠ [] → rest.length < piece.length →
      Does (runStates ⟨true, [rest], .readLength, 0⟩) (reader.run (.header []) rest))
    {n : Nat} (hn : 0 < n) :
    Does (runStates ⟨true, [piece], .readBody, n⟩) (reader.run (.body n) piece) := by
  have hn0 : n ≠ 0 := by omega
  rcases Nat.lt_trichotomy piece.length n with hlt | heq | hgt
  · -- the piece ends inside the chunk
    have hle : piece.length ≤ n := by omega
    have hleft : ¬ n - piece.length = 0 := by omega
    have hcall : callState ⟨true, [piece], .readBody, n⟩
        = ([piece], ⟨true, [], .readBody, n - piece.length⟩, .returns none) := by
      simp only [callState, readBody, readBodyFrom, if_neg hn0, if_pos hle, if_neg hleft]
    rw [runStates_returns hcall, reader_body hlt, List.flatten_singleton]
    exact .returns (.body (by omega))
  · -- it ends with the chunk
    have hcall : callState ⟨true, [piece], .readBody, n⟩
        = ([piece], ⟨true, [], .readLength, 0⟩, .returns none) := by
      simp [callState, readBody, readBodyFrom, heq, hn0]
    rw [runStates_returns hcall, reader_chunk hn heq, List.flatten_singleton]
    exact .returns (@Follows.header [] 0 (by simp [HeaderChars]))
  · -- it goes on behind the chunk
    have hle : ¬ piece.length ≤ n := by omega
    have hcall : callState ⟨true, [piece], .readBody, n⟩
        = ([piece.take n], ⟨true, [piece.drop n], .readLength, 0⟩, .calls) := by
      simp only [callState, readBody, readBodyFrom, if_neg hn0, if_neg hle]
    have hrest : piece.drop n ≠ [] := by
      intro hnil
      rw [List.drop_eq_nil_iff] at hnil
      omega
    have hchunk : reader.run (.body n) (piece.take n) = (.header [], piece.take n) :=
      reader_chunk hn (by rw [List.length_take]; omega)
    have hread : reader.run (.body n) piece
        = ((reader.run (.header []) (piece.drop n)).1,
            piece.take n ++ (reader.run (.header []) (piece.drop n)).2) := by
      rw [← List.take_append_drop n piece, Transducer.run_append, hchunk]
      simp
    rw [runStates_calls hcall, hread, List.flatten_singleton]
    exact (hnext _ hrest (by rw [List.length_drop]; omega)).prepend (piece.take n)

/-- Behind the end marker. -/
theorem does_ended {pieces : List Bytes} (h : pieces ≠ []) {n : Nat} (part : Bytes) :
    Does (runStates ⟨true, pieces, .finished, n⟩) (reader.run .ended part) := by
  have hcall : callState ⟨true, pieces, .finished, n⟩
      = ([], ⟨true, [], .finished, n⟩, .returns (some pieces.flatten)) := by
    have hempty : pieces.isEmpty = false := by simpa using h
    simp [callState, finished, hempty]
  rw [runStates_returns hcall, reader_ended]
  exact .returns .ended

/-- A piece that completes a header, and goes on with whatever is behind it. -/
theorem does_headerLine {pieces : List Bytes} {part more : Bytes} {n : Nat}
    (hline : HeaderChars pieces.flatten) (hpart : HeaderChars part)
    (hbehind : ∀ rest : Bytes, rest.length ≤ more.length →
      Does (runStates ⟨true, [rest], .readLength, 0⟩) (reader.run (.header []) rest)) :
    Does (runStates ⟨true, pieces ++ [part ++ 10 :: more], .readLength, n⟩)
      (reader.run (.header pieces.flatten) (part ++ 10 :: more)) := by
  have hheader := @readLength_line ⟨true, pieces ++ [part ++ 10 :: more], .readLength, n⟩ pieces
    part more rfl (headerChars_append hline hpart)
  have hstep : reader.step (.header (pieces.flatten ++ part)) 10
      = (.announced (pieces.flatten ++ part ++ [10]), []) := rfl
  rw [Transducer.run_append, reader_header _ hpart, Transducer.run_cons, hstep]
  simp only [List.nil_append]
  rw [Phase.announced]
  cases hlen : headerLength true (pieces.flatten ++ part ++ [10]) with
  | error e =>
    have hcall : callState ⟨true, pieces ++ [part ++ 10 :: more], .readLength, n⟩
        = ([], ⟨true, pieces ++ [part ++ 10 :: more], .readLength, n⟩, .raises e) := by
      rw [callState, hheader, hlen]
    rw [runStates_raises hcall]
    dsimp only
    rw [reader_failed]
    exact .raises
  | ok k =>
    rw [hlen] at hheader
    dsimp only at hheader ⊢
    by_cases hk : k = 0
    · rw [if_pos hk] at hheader ⊢
      by_cases hmore : more = []
      · have hcall : callState ⟨true, pieces ++ [part ++ 10 :: more], .readLength, n⟩
            = ([], ⟨true, [], .finished, 0⟩, .returns (some [])) := by
          rw [callState, hheader]
          simp [remnant, hmore]
        rw [runStates_returns hcall, reader_ended]
        exact .returns .ended
      · have hcall : callState ⟨true, pieces ++ [part ++ 10 :: more], .readLength, n⟩
            = ([], ⟨true, [more], .finished, 0⟩, .calls) := by
          rw [callState, hheader]
          simp [remnant, hmore]
        rw [runStates_calls hcall]
        exact does_ended (List.cons_ne_nil _ _) more
    · rw [if_neg hk] at hheader ⊢
      have hcall : callState ⟨true, pieces ++ [part ++ 10 :: more], .readLength, n⟩
          = ([], ⟨true, remnant more, .readBody, k⟩, .calls) := by
        rw [callState, hheader]
      rw [runStates_calls hcall]
      by_cases hmore : more = []
      · have hbody : callState ⟨true, remnant more, .readBody, k⟩
            = ([], ⟨true, [], .readBody, k⟩, .returns none) := by
          simp [callState, readBody, readBodyFrom, remnant, hmore]
        rw [runStates_returns hbody, hmore]
        exact .returns (.body (by omega))
      · rw [remnant, if_neg hmore]
        apply does_body _ (by omega)
        intro rest hrest hshorter
        exact hbehind rest (by omega)

/-- A piece that begins in a header. -/
theorem does_header {pieces : List Bytes} {piece : Bytes} {n : Nat}
    (hline : HeaderChars pieces.flatten) :
    Does (runStates ⟨true, pieces ++ [piece], .readLength, n⟩)
      (reader.run (.header pieces.flatten) piece) := by
  induction hlength : piece.length using Nat.strongRecOn generalizing pieces piece n with
  | ind length ih =>
  subst hlength
  rcases line_cases piece with hall | ⟨part, more, rfl, hpart⟩ | ⟨part, b, more, rfl, hpart, hb⟩
  · exact does_part hline hall
  · refine does_headerLine hline hpart fun rest hrest => ?_
    refine @ih rest.length ?_ [] rest 0 (by simp [HeaderChars]) rfl
    simp only [List.length_append, List.length_cons]
    omega
  · -- the piece holds a byte that no header does
    have hcount : (pieces ++ [part ++ b :: more]).flatMap countChars = pieces.flatten ++ part := by
      rw [List.flatMap_append, List.flatMap_singleton, countChars_stops hpart hb,
        flatMap_countChars_all hline]
    have hstep : reader.step (.header (pieces.flatten ++ part)) b = (.stuck, []) := by
      simp [reader, hb]
    rw [Transducer.run_append, reader_header _ hpart, Transducer.run_cons, hstep, reader_stuck]
    apply does_stuck
    · rw [hcount]
      intro h10
      exact (headerChars_append hline hpart 10 h10).2 rfl
    · rw [hcount, List.flatten_concat]
      simp

/-- **One piece** is read as its bytes are, unless the decoder is stuck and the
piece holds a newline. -/
theorem write_does {d : Decoder} {phase : Phase} (h : Follows d phase) {piece : Bytes}
    (hpiece : piece ≠ []) (hstuck : phase = .stuck → 10 ∉ piece) :
    Does (d.write piece) (reader.run phase piece) := by
  have hempty : piece.isEmpty = false := by simpa using hpiece
  rw [write, hempty]
  cases h with
  | header hline => exact does_header hline
  | body hn =>
    apply does_body _ hn
    intro rest _ _
    exact @does_header [] rest 0 (by simp [HeaderChars])
  | ended => exact does_ended (List.cons_ne_nil _ _) piece
  | @stuck pieces n hline hmore =>
    rw [reader_stuck]
    apply does_stuck
    · rw [List.flatMap_append, List.flatMap_singleton, List.mem_append, not_or]
      exact ⟨hline, fun h10 => hstuck rfl (countChars_subset h10)⟩
    · have hle := length_countChars_le piece
      dsimp only
      rw [List.flatMap_append, List.flatMap_singleton, List.flatten_concat, List.length_append,
        List.length_append]
      omega

/-! ## Any pieces -/

/-- Pieces are read as the bytes of all of them are, if no newline comes while the
decoder is stuck. -/
theorem writes_follow {d : Decoder} {phase : Phase} (h : Follows d phase) {pieces : List Bytes}
    (hpieces : ∀ p ∈ pieces, p ≠ [])
    (hstuck : ∀ before after, pieces.flatten = before ++ after →
      (reader.run phase before).1 = .stuck → 10 ∉ after) :
    ((reader.run phase pieces.flatten).1 = .failed ∧ (writes d pieces).2.any Written.raises = true)
    ∨ ((writes d pieces).2.any Written.raises = false
        ∧ Follows (writes d pieces).1 (reader.run phase pieces.flatten).1
        ∧ (writes d pieces).2.flatMap Written.output = (reader.run phase pieces.flatten).2) := by
  induction pieces generalizing d phase with
  | nil => exact Or.inr ⟨rfl, h, rfl⟩
  | cons piece pieces ih =>
    rw [List.forall_mem_cons] at hpieces
    rw [List.flatten_cons] at hstuck ⊢
    have hfirst : phase = .stuck → 10 ∉ piece := by
      intro hphase hmem
      exact hstuck [] _ rfl hphase (List.mem_append_left _ hmem)
    have hdoes := write_does h hpieces.1 hfirst
    have hwrites : writes d (piece :: pieces)
        = ((writes (d.write piece).decoder pieces).1,
            d.write piece :: (writes (d.write piece).decoder pieces).2) := rfl
    rw [hwrites, Transducer.run_append]
    cases hw : d.write piece with
    | mk d' out result =>
    cases hread : reader.run phase piece with
    | mk phase' out' =>
    rw [hw, hread] at hdoes
    cases hdoes with
    | raises =>
      left
      rw [reader_failed]
      exact ⟨rfl, rfl⟩
    | returns hfollows =>
      have hrest := ih hfollows hpieces.2 (by
        intro before after hsplit hphase
        refine hstuck (piece ++ before) after (by rw [hsplit, List.append_assoc]) ?_
        rw [Transducer.run_append, hread]
        exact hphase)
      rcases hrest with ⟨hfailed, hraises⟩ | ⟨hraises, hend, hout⟩
      · left
        exact ⟨hfailed, by rw [List.any_cons, hraises, Bool.or_true]⟩
      · right
        refine ⟨by rw [List.any_cons, hraises]; rfl, hend, ?_⟩
        rw [List.flatMap_cons, hout]

theorem follows_new : Follows {} (.header []) := @Follows.header [] 0 (by simp [HeaderChars])

theorem Follows.verdict {d : Decoder} {phase : Phase} (h : Follows d phase) :
    phase.verdict = if d.state = .finished then .ended else .incomplete := by
  cases h <;> rfl

/-- What comes of pieces is what the reader says, if no newline is skipped. -/
theorem verdict_reader {pieces : List Bytes} (hpieces : ∀ p ∈ pieces, p ≠ [])
    (hskips : ¬ Skips pieces.flatten) :
    verdict pieces = (reader.run (.header []) pieces.flatten).1.verdict
      ∧ (verdict pieces ≠ .raised →
          decoded pieces = (reader.run (.header []) pieces.flatten).2) := by
  have hfollow := writes_follow follows_new hpieces (by
    intro before after hsplit hphase hmem
    exact hskips ⟨before, after, hsplit, hphase, hmem⟩)
  rcases hfollow with ⟨hfailed, hraises⟩ | ⟨hraises, hend, hout⟩
  · have hraised : verdict pieces = .raised := by simp only [verdict, hraises, if_true]
    rw [hraised, hfailed]
    exact ⟨rfl, fun h => absurd rfl h⟩
  · refine ⟨?_, fun _ => hout⟩
    rw [hend.verdict]
    simp only [verdict, hraises, Bool.false_eq_true, if_false]

/-! ## A newline that is skipped -/

/-- A body puts out what there is of it. -/
theorem readBodyFrom_output {pieces : List Bytes} (hpieces : pieces.flatten ≠ []) (d : Decoder)
    {n : Nat} (hn : 0 < n) : (d.readBodyFrom pieces n).1.flatten ≠ [] := by
  induction pieces generalizing d n with
  | nil => exact absurd rfl hpieces
  | cons piece pieces ih =>
    rw [readBodyFrom, if_neg (by omega)]
    by_cases hpiece : piece = []
    · subst hpiece
      rw [List.length_nil, if_pos (Nat.zero_le n)]
      exact ih hpieces _ hn
    · split
      · simp [hpiece]
      · have hn0 : n ≠ 0 := by omega
        simp [hpiece, hn0]

/-- A newline that a stuck decoder finds at the beginning of a piece ends a line,
and bytes are left in the buffer. -/
theorem readLength_stuck {pieces : List Bytes} (n : Nat)
    (hmore : (pieces.flatMap countChars).length < pieces.flatten.length) (more : Bytes) :
    ∃ rest : List Bytes, rest.flatten ≠ []
      ∧ readLength ⟨true, pieces ++ [10 :: more], .readLength, n⟩
        = match headerLength true (pieces.flatMap countChars ++ [10]) with
          | .error e => (⟨true, pieces ++ [10 :: more], .readLength, n⟩, .raises e)
          | .ok k =>
            (⟨true, rest, if k = 0 then .finished else .readBody, k⟩, .calls) := by
  have hcount : (pieces ++ [10 :: more]).flatMap countChars
      = pieces.flatMap countChars ++ [10] := by
    rw [List.flatMap_append, List.flatMap_singleton]
    rfl
  have hlast : (pieces.flatMap countChars ++ [10]).getLast? = some 10 := List.getLast?_concat ..
  have hrest : (dropExcess (pieces ++ [10 :: more])
      (pieces.flatMap countChars ++ [10]).length).flatten ≠ [] := by
    rw [flatten_dropExcess]
    intro hnil
    rw [List.drop_eq_nil_iff, List.flatten_concat, List.length_append, List.length_append,
      List.length_cons, List.length_singleton] at hnil
    omega
  refine ⟨_, hrest, ?_⟩
  have hempty : (dropExcess (pieces ++ [10 :: more])
      (pieces.flatMap countChars ++ [10]).length).isEmpty = false := by
    rw [List.isEmpty_eq_false_iff]
    intro hnil
    rw [hnil] at hrest
    exact hrest rfl
  simp only [readLength, hcount, hlast, ne_eq, not_true_eq_false, if_false, hempty]
  cases headerLength true (pieces.flatMap countChars ++ [10]) with
  | error e => rfl
  | ok k =>
    by_cases hk : k = 0
    · subst hk
      rfl
    · simp only [if_neg hk]

/-- The decoder that finds it raises, comes to an end, or puts something out. -/
theorem stuck_newline {d : Decoder} (h : Follows d .stuck) (more : Bytes) :
    (d.write (10 :: more)).raises = true ∨ (d.write (10 :: more)).decoder.state = .finished
      ∨ (d.write (10 :: more)).output ≠ [] := by
  cases h with
  | @stuck pieces n hline hmore =>
    obtain ⟨rest, hrest, hread⟩ := readLength_stuck n hmore more
    have hwrite : write ⟨true, pieces, .readLength, n⟩ (10 :: more)
        = runStates ⟨true, pieces ++ [10 :: more], .readLength, n⟩ := rfl
    have hcall : callState ⟨true, pieces ++ [10 :: more], .readLength, n⟩
        = ([], readLength ⟨true, pieces ++ [10 :: more], .readLength, n⟩) := rfl
    rw [hread] at hcall
    rw [hwrite]
    cases hlen : headerLength true (pieces.flatMap countChars ++ [10]) with
    | error e =>
      left
      rw [hlen] at hcall
      rw [runStates_raises hcall]
      rfl
    | ok k =>
      right
      rw [hlen] at hcall
      rw [runStates_calls hcall]
      by_cases hk : k = 0
      · left
        have hne : rest ≠ [] := by
          intro hnil
          rw [hnil] at hrest
          exact hrest rfl
        have hended := @does_ended rest hne k []
        rw [if_pos hk]
        dsimp only
        revert hended
        generalize runStates ⟨true, rest, .finished, k⟩ = w
        intro hended
        cases hended with
        | returns h =>
          cases h
          rfl
      · right
        rw [if_neg hk]
        intro hnil
        rw [List.append_eq_nil_iff] at hnil
        have hprefix := @prefix_runStates ⟨true, rest, .readBody, k⟩ _ _ _ rfl
        rw [hnil.2, List.prefix_nil] at hprefix
        exact readBodyFrom_output hrest ⟨true, rest, .readBody, k⟩ (Nat.pos_of_ne_zero hk) hprefix

/-- Cut in front of the newline, a stream comes to something else than in one
piece. -/
theorem not_independent_of_skips {wire : Bytes} (h : Skips wire) :
    ¬ FragmentationIndependent wire := by
  obtain ⟨before, after, rfl, hstuck, hmem⟩ := h
  obtain ⟨part, more, rfl⟩ := List.append_of_mem hmem
  intro hind
  cases hbefore : reader.run (.header []) before with
  | mk phase out =>
  rw [hbefore] at hstuck
  dsimp only at hstuck
  subst hstuck
  have hread : ∀ rest, reader.run (.header []) (before ++ rest) = (.stuck, out) := by
    intro rest
    rw [Transducer.run_append, hbefore, reader_stuck, List.append_nil]
  have hne : before ≠ [] := by
    intro hnil
    rw [hnil, Transducer.run_nil] at hbefore
    cases hbefore
  have hone := @write_does _ _ follows_new (before ++ (part ++ 10 :: more)) (by simp) (by simp)
  have hpart := @write_does _ _ follows_new (before ++ part) (by simp [hne]) (by simp)
  rw [hread] at hone hpart
  obtain ⟨hfollows, hraises, hout⟩ := hone.stuck
  obtain ⟨hfollows', hraises', hout'⟩ := hpart.stuck
  -- in one piece, the decoder stays stuck
  have hincomplete : verdict [before ++ (part ++ 10 :: more)] = .incomplete := by
    have hverdict := hfollows.verdict
    simp only [verdict, writes, List.any_cons, hraises, List.any_nil, Bool.or_false,
      Bool.false_eq_true, if_false]
    exact hverdict.symm
  have hdecoded : decoded [before ++ (part ++ 10 :: more)] = out := by
    simp only [decoded, writes, List.flatMap_cons, List.flatMap_nil, List.append_nil, hout]
  obtain ⟨hverdict, houtput⟩ := hind [before ++ (part ++ 10 :: more)] [before ++ part, 10 :: more]
    (by simp) (by simp [hne]) (by simp) (by simp)
  have hsame := houtput (by simp [hincomplete])
  rw [hincomplete] at hverdict
  rw [hdecoded] at hsame
  rcases stuck_newline hfollows' more with hraised | hended | hmore
  · simp [verdict, writes, hraised] at hverdict
  · simp only [verdict, writes, hended, if_true] at hverdict
    split at hverdict <;> cases hverdict
  · simp only [decoded, writes, List.flatMap_cons, List.flatMap_nil, List.append_nil, hout'] at hsame
    exact hmore (List.append_right_eq_self.mp hsame.symm)

/-- **When the pieces of a stream do not matter.** No newline comes behind a byte
that no header holds, where a header is due. -/
theorem fragmentationIndependent_iff (wire : Bytes) :
    FragmentationIndependent wire ↔ ¬ Skips wire := by
  constructor
  · intro hind hskips
    exact not_independent_of_skips hskips hind
  · intro hskips pieces pieces' hpieces hpieces' hflat hflat'
    obtain ⟨hverdict, hout⟩ := verdict_reader hpieces (by rwa [hflat])
    obtain ⟨hverdict', hout'⟩ := verdict_reader hpieces' (by rwa [hflat'])
    rw [hflat] at hverdict hout
    rw [hflat'] at hverdict' hout'
    refine ⟨hverdict.trans hverdict'.symm, ?_⟩
    intro hraised
    rw [hout hraised, hout' (by rwa [hverdict', ← hverdict])]

/-- In one piece the line is no end marker, cut behind its first byte it is. -/
theorem fragments_find_end : ¬ FragmentationIndependent (ascii "g0\r\n") := by
  intro h
  have hverdict := (h [ascii "g0\r\n"] [ascii "g", ascii "0\r\n"] (by simp [ascii])
    (by simp [ascii]) (by decide) (by decide)).1
  revert hverdict
  decide

end Pysubunit.V1.Decoder
