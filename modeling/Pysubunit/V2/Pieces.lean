/-
Pysubunit.V2.Pieces — what one pass of `run` does.

`textPiece` is the text that a pass takes for one piece of non-subunit
content: it goes on to a signature between characters, to the end of input,
or to where the environment cuts it (`Polls.cuts`). `aggregate_eq` computes
the inner loop from it, and `pass_cases` is the inversion of a whole pass:
every later result about runs is a case analysis on `PassOutcome` and unfolds
neither loop.
-/
import Pysubunit.V2.Run

namespace Pysubunit.V2

open ByteLib

/-- The decoder after a byte string. -/
def Codec.feedAll (codec : Codec) (t : Bytes) : Codec := t.foldl Codec.feed codec

@[simp] theorem Codec.feedAll_nil (codec : Codec) : codec.feedAll [] = codec := rfl

@[simp] theorem Codec.feedAll_cons (codec : Codec) (c : UInt8) (t : Bytes) :
    codec.feedAll (c :: t) = (codec.feed c).feedAll t := rfl

theorem Codec.feedAll_append (codec : Codec) (t u : Bytes) :
    codec.feedAll (t ++ u) = (codec.feedAll t).feedAll u := List.foldl_append

/-- A byte that starts a packet. -/
def Codec.starts (codec : Codec) (c : UInt8) : Bool := !codec.midCharacter && c == signature

theorem Codec.starts_iff {codec : Codec} {c : UInt8} :
    codec.starts c = true ↔ codec.midCharacter = false ∧ c = signature := by
  simp [Codec.starts]

/-- A piece of `size` bytes ends for no reason of its own when so many bytes
are unread: it has reached the limit, or the poll says that there is no more. -/
def Polls.cuts (polls : Polls) (size unread : Nat) : Bool :=
  decide (aggregationLimit ≤ size) || !polls.more unread

theorem Polls.cuts_of_lt (polls : Polls) {size unread : Nat} (h : size < aggregationLimit) :
    polls.cuts size unread = !polls.more unread := by
  rw [Polls.cuts, decide_eq_false (by omega), Bool.false_or]

/-- The piece of text that begins here, `size` bytes of it read already, and
what comes after it. -/
def textPiece (polls : Polls) : Codec → Nat → Bytes → Bytes × Bytes
  | _, _, [] => ([], [])
  | codec, size, c :: rest =>
    if (size != 0 && polls.cuts size (rest.length + 1)) || codec.starts c then ([], c :: rest)
    else
      let piece := textPiece polls (codec.feed c) (size + 1) rest
      (c :: piece.1, piece.2)

section TextPiece

variable {polls : Polls} {codec : Codec} {size : Nat} {source : Bytes}

/-- A piece and what comes after it are the input. -/
theorem textPiece_append (polls : Polls) (codec : Codec) (size : Nat) (source : Bytes) :
    (textPiece polls codec size source).1
    ++ (textPiece polls codec size source).2 = source := by
  induction source generalizing codec size with
  | nil => rfl
  | cons c rest ih =>
    rw [textPiece]
    split
    · rfl
    · exact congrArg (c :: ·) (ih _ _)

theorem textPiece_split {piece rest : Bytes}
    (h : textPiece polls codec size source = (piece, rest)) : source = piece ++ rest := by
  have := textPiece_append polls codec size source
  rw [h] at this
  exact this.symm

/-- What ends a piece that the environment does not cut. -/
theorem textPiece_stops {c : UInt8} {rest : Bytes}
    (h : (textPiece polls codec size source).2 = c :: rest)
    (hcut : size + (textPiece polls codec size source).1.length ≠ 0 →
      polls.cuts (size + (textPiece polls codec size source).1.length) (rest.length + 1) = false) :
    (codec.feedAll (textPiece polls codec size source).1).starts c = true := by
  induction source generalizing codec size with
  | nil => cases h
  | cons b source ih =>
    rw [textPiece] at h hcut ⊢
    split at h
    · rename_i hstop
      rw [if_pos hstop] at hcut ⊢
      cases h
      rw [Codec.feedAll_nil]
      rw [List.length_nil, Nat.add_zero] at hcut
      cases hst : codec.starts c with
      | true => rfl
      | false =>
        rw [hst, Bool.or_false, Bool.and_eq_true] at hstop
        have := hcut (by simpa using hstop.1)
        rw [this] at hstop
        cases hstop.2
    · rename_i hgo
      rw [if_neg hgo] at hcut ⊢
      rw [Codec.feedAll_cons]
      refine ih h fun hne => ?_
      have hlen : size + (textPiece polls (codec.feed b) (size + 1) source).1.length.succ
          = size + 1 + (textPiece polls (codec.feed b) (size + 1) source).1.length := by omega
      rw [List.length_cons] at hcut
      rw [← hlen]
      exact hcut (by omega)

/-- A full piece grows no further. -/
theorem textPiece_full (polls : Polls) (codec : Codec) (source : Bytes)
    (h : aggregationLimit ≤ size) :
    textPiece polls codec size source = ([], source) := by
  cases source with
  | nil => rfl
  | cons c rest =>
    have hsize : (size != 0) = true := by
      unfold aggregationLimit at h
      simp
      omega
    rw [textPiece, hsize, Polls.cuts, decide_eq_true h]
    rfl

end TextPiece

/-- **The inner loop**, from the piece that it reads. -/
theorem aggregate_eq (polls : Polls) (codec : Codec) {buffered : Bytes} (source : Bytes)
    (hne : buffered ≠ []) (hlimit : buffered.length < aggregationLimit) {piece rest : Bytes}
    (hpiece : textPiece polls codec buffered.length source = (piece, rest)) :
    aggregate polls codec buffered buffered.getLast?.toList source
      = if polls.cuts (buffered.length + piece.length) rest.length then
          { codec := codec.feedAll piece, unread := rest, buffered := buffered ++ piece
            content := (buffered ++ piece).getLast?.toList }
        else
          { codec := codec.feedAll piece, unread := rest.tail, buffered := buffered ++ piece
            content := rest.head?.toList } := by
  induction source generalizing codec buffered piece with
  | nil =>
    cases hpiece
    rw [List.length_nil, Nat.add_zero, polls.cuts_of_lt hlimit, List.append_nil]
    cases hmore : polls.more 0 with
    | true => rw [aggregate_eof hmore]; rfl
    | false => rw [aggregate_cut hmore]; rfl
  | cons c source ih =>
    have hsize : (buffered.length != 0) = true := by simpa using hne
    rw [textPiece, hsize, Bool.true_and, polls.cuts_of_lt hlimit] at hpiece
    cases hmore : polls.more (source.length + 1) with
    | false =>
      rw [hmore] at hpiece
      cases hpiece
      rw [aggregate_cut hmore, List.length_nil, Nat.add_zero, polls.cuts_of_lt hlimit,
        List.append_nil, List.length_cons, hmore]
      rfl
    | true =>
      rw [hmore, Bool.not_true, Bool.false_or] at hpiece
      cases hst : codec.starts c with
      | true =>
        rw [hst, if_pos rfl] at hpiece
        cases hpiece
        rw [aggregate_signature hmore hst, List.length_nil, Nat.add_zero,
          polls.cuts_of_lt hlimit, List.append_nil, List.length_cons, hmore]
        rfl
      | false =>
        rw [hst, if_neg (by simp)] at hpiece
        have hlen : (buffered ++ [c]).length = buffered.length + 1 := by simp
        cases hnext : textPiece polls (codec.feed c) (buffered.length + 1) source with
        | mk piece' rest' =>
          rw [hnext] at hpiece
          cases hpiece
          rw [aggregate_read hmore hst, Codec.feedAll_cons, List.length_cons,
            show buffered.length + (piece'.length + 1) = (buffered ++ [c]).length + piece'.length by
              omega,
            show buffered ++ c :: piece' = (buffered ++ [c]) ++ piece' by simp]
          by_cases hfull : aggregationLimit ≤ buffered.length + 1
          · rw [if_pos hfull]
            have hstop := textPiece_full polls (codec.feed c) source hfull
            rw [hnext] at hstop
            cases hstop
            rw [if_pos (by simp [Polls.cuts, hlen, hfull])]
            simp
          · rw [if_neg hfull]
            rw [← hlen] at hnext
            have := ih (codec.feed c)
              (List.append_ne_nil_of_right_ne_nil buffered (List.cons_ne_nil c [])) (by omega) hnext
            rw [← this]
            simp

/-! ## One pass -/

/-- What one pass of `run` can do. -/
inductive PassOutcome (polls : Polls) (name : Option String) (s : RunState) :
    List Action × Pass RunState Error → Prop
  /-- The input is at its end. -/
  | stop (h : s.source = []) : PassOutcome polls name s ([], .stop)
  /-- A packet starts here. -/
  | packet (rest : Bytes) (h : s.source = signature :: rest)
    (hmid : s.codec.midCharacter = false) :
    PassOutcome polls name s (dispatch [] s.codec rest)
  /-- Text, and no name for it. -/
  | refused (b : UInt8) (hname : name = none) :
    PassOutcome polls name s ([], .raise (.nonSubunitContent [b]))
  /-- The piece is cut, and its last byte is not taken for a signature. -/
  | cut (piece rest : Bytes) (h : textPiece polls s.codec 0 s.source = (piece, rest))
    (hne : piece ≠ []) (hcut : polls.cuts piece.length rest.length = true)
    (hlast : (s.codec.feedAll piece).midCharacter = true ∨ piece.getLast? ≠ some signature) :
    PassOutcome polls name s
      ([.content s.source piece], .again { codec := s.codec.feedAll piece, source := rest })
  /-- The piece runs to the end of input. -/
  | atEnd (piece : Bytes) (h : textPiece polls s.codec 0 s.source = (piece, []))
    (hne : piece ≠ []) (hcut : polls.cuts piece.length 0 = false) :
    PassOutcome polls name s
      ([.content s.source piece], .again { codec := s.codec.feedAll piece, source := [] })
  /-- The piece runs to a packet. -/
  | atPacket (piece rest : Bytes)
    (h : textPiece polls s.codec 0 s.source = (piece, signature :: rest))
    (hne : piece ≠ []) (hcut : polls.cuts piece.length (rest.length + 1) = false)
    (hmid : (s.codec.feedAll piece).midCharacter = false) :
    PassOutcome polls name s
      (dispatch [.content s.source piece] (s.codec.feedAll piece) rest)
  /-- The piece is cut, and its last byte is taken for a signature. -/
  | repeated (piece rest : Bytes) (h : textPiece polls s.codec 0 s.source = (piece, rest))
    (hcut : polls.cuts piece.length rest.length = true)
    (hmid : (s.codec.feedAll piece).midCharacter = false)
    (hlast : piece.getLast? = some signature) :
    PassOutcome polls name s
      (dispatch [.content s.source piece] (s.codec.feedAll piece) rest)

/-- Every pass does one of these. -/
theorem pass_cases (polls : Polls) (name : Option String) (s : RunState) :
    PassOutcome polls name s (runPass polls name s) := by
  obtain ⟨codec, source⟩ := s
  unfold runPass
  cases source with
  | nil => exact .stop rfl
  | cons b source =>
    dsimp only
    cases hst : codec.starts b with
    | true =>
      obtain ⟨hmid, rfl⟩ := Codec.starts_iff.mp hst
      have hst' : (!codec.midCharacter && signature == signature) = true := hst
      rw [if_pos hst']
      exact .packet source rfl hmid
    | false =>
      have hst' : ¬ (!codec.midCharacter && b == signature) = true := by
        rw [← Codec.starts, hst]
        simp
      rw [if_neg hst']
      cases name with
      | none => exact .refused b rfl
      | some n =>
        dsimp only
        cases hnext : textPiece polls (codec.feed b) 1 source with
        | mk piece rest =>
          have hpiece : textPiece polls codec 0 (b :: source) = (b :: piece, rest) := by
            rw [textPiece, hst]
            simp [hnext]
          have hagg := aggregate_eq polls (codec.feed b) source (List.cons_ne_nil b [])
            (by unfold aggregationLimit; simp) hnext
          have hlen : [b].length + piece.length = (b :: piece).length := by
            simp [Nat.add_comm]
          rw [hlen] at hagg
          simp only [List.getLast?_singleton, Option.toList_some, List.singleton_append,
            ← Codec.feedAll_cons] at hagg
          cases hcut : polls.cuts (b :: piece).length rest.length with
          | true =>
            rw [hcut, if_pos rfl] at hagg
            rw [hagg]
            obtain ⟨last, hlast⟩ : ∃ last, (b :: piece).getLast? = some last :=
              ⟨_, List.getLast?_eq_some_getLast (List.cons_ne_nil b piece)⟩
            dsimp only
            rw [hlast]
            cases hmid : (codec.feedAll (b :: piece)).midCharacter with
            | true => exact .cut _ _ hpiece (by simp) hcut (.inl hmid)
            | false =>
              by_cases hsig : last = signature
              · rw [hsig] at hlast ⊢
                exact .repeated _ _ hpiece hcut hmid hlast
              · rw [if_pos (by simpa using hsig)]
                exact .cut _ _ hpiece (by simp) hcut (.inr (by rw [hlast]; simpa using hsig))
          | false =>
            rw [hcut, if_neg Bool.false_ne_true] at hagg
            rw [hagg]
            cases rest with
            | nil =>
              rw [if_pos (by simp)]
              exact .atEnd _ hpiece (by simp) hcut
            | cons c rest =>
              have hnextByte : (textPiece polls codec 0 (b :: source)).2 = c :: rest := by
                rw [hpiece]
              have hstops := textPiece_stops hnextByte
                (by rw [hpiece, Nat.zero_add]; exact fun _ => hcut)
              rw [hpiece] at hstops
              obtain ⟨hmid, rfl⟩ := Codec.starts_iff.mp hstops
              rw [if_neg (by rw [hmid]; simp)]
              exact .atPacket _ _ hpiece (by simp) hcut hmid

end Pysubunit.V2
