/-
Pysubunit.V2.MixedStreamTheorems — packets with text between them.

A stream is a list of `Segment`s; `merge` puts adjacent texts together, and
`Emits` follows the events of a run along the texts and packets that this
leaves. `run_text` carries the run across a text that the decoder is `Quiet` on
(no byte of it starts a packet) and that is nowhere cut after a signature byte;
`run_text_repeats` is what happens where it is.

The two results differ in what they know about the text. UTF-8 keeps the
decoder's `mid_character` in step with the characters, so only the last byte
of a character can be taken for a signature, and only at a cut
(`run_mixed_iff`). Lines without the byte 0xB3 need no such care: however
the decoder has been left, a newline takes it out of any character
(`run_resynchronises`).
-/
import Pysubunit.V2.Pieces
import Pysubunit.V2.PacketStreamTheorems

namespace Pysubunit.V2

open ByteLib

/-! ## Streams -/

/-- A part of a stream. -/
inductive Segment where
  | text (bytes : Bytes)
  | packet (call : StatusCall)

/-- What a segment puts into the stream. -/
def Segment.bytes : Segment → Bytes
  | .text bytes => bytes
  | .packet call => packetBytes call

/-- The bytes of a stream. -/
def streamBytes (segments : List Segment) : Bytes := segments.flatMap Segment.bytes

/-- The text before the first packet, and each packet with the text after it. -/
def merge : List Segment → Bytes × List (StatusCall × Bytes)
  | [] => ([], [])
  | .text bytes :: segments => (bytes ++ (merge segments).1, (merge segments).2)
  | .packet call :: segments => ([], (call, (merge segments).1) :: (merge segments).2)

/-- The packets of a stream and the texts after them. -/
def packetsBytes (packets : List (StatusCall × Bytes)) : Bytes :=
  packets.flatMap fun p => packetBytes p.1 ++ p.2

theorem packetsBytes_cons (call : StatusCall) (text : Bytes)
    (packets : List (StatusCall × Bytes)) :
    packetsBytes ((call, text) :: packets) = packetBytes call ++ (text ++ packetsBytes packets) := by
  simp only [packetsBytes, List.flatMap_cons, List.append_assoc]

theorem streamBytes_eq (segments : List Segment) :
    streamBytes segments = (merge segments).1 ++ packetsBytes (merge segments).2 := by
  induction segments with
  | nil => rfl
  | cons segment segments ih =>
    rw [streamBytes, List.flatMap_cons, ← streamBytes, ih]
    cases segment with
    | text bytes => exact (List.append_assoc _ _ _).symm
    | packet call => rw [merge, packetsBytes_cons, Segment.bytes, List.nil_append]

/-- A piece of text, as it is emitted. -/
def textEvent (name : String) (bytes : Bytes) : StatusEvent :=
  { fileName := some name, fileBytes := some bytes }

/-- The events are those of the packets in order, and between them those of
pieces that, put together, are the text there. -/
def Emits (name : String) : Bytes → List (StatusCall × Bytes) → List StatusEvent → Prop
  | t, [], events =>
    ∃ pieces : List Bytes, pieces.flatten = t ∧ events = pieces.map (textEvent name)
  | t, p :: packets, events =>
    ∃ (pieces : List Bytes) (later : List StatusEvent), pieces.flatten = t
      ∧ events = pieces.map (textEvent name) ++ (packetEvents p.1 ++ later)
      ∧ Emits name p.2 packets later

/-- Where the packets of a stream begin. -/
def packetStarts : List (StatusCall × Bytes) → List Bytes
  | [] => []
  | p :: packets => packetsBytes (p :: packets) :: packetStarts packets

/-- What is parsed as a packet is a packet of the stream. -/
def OnlyPackets (packets : List (StatusCall × Bytes)) (actions : List Action) : Prop :=
  ∀ at_ parsed, .packet at_ parsed ∈ actions → at_ ∈ packetStarts packets

/-- The run returns, emits the events of the packets in order with those of the
texts between them, and takes no byte of a text for a signature. -/
structure Faithful (name : String) (segments : List Segment) (r : RunResult) : Prop where
  returns : r.result = .ok []
  emits : Emits name (merge segments).1 (merge segments).2 (r.events (some name))
  signatures : OnlyPackets (merge segments).2 r.actions

/-! ## Across a text -/

/-- No byte of the text starts a packet. -/
def Quiet (codec : Codec) (t : Bytes) : Prop :=
  ∀ u c v, t = u ++ c :: v → (codec.feedAll u).starts c = false

/-- The text is followed by the end of input or by a packet. -/
def EndsText (codec : Codec) (rest : Bytes) : Prop :=
  rest = [] ∨ codec.midCharacter = false ∧ ∃ tail, rest = signature :: tail

theorem Quiet.tail {codec : Codec} {u v : Bytes} (h : Quiet codec (u ++ v)) :
    Quiet (codec.feedAll u) v := by
  rintro u' c v' rfl
  rw [← Codec.feedAll_append]
  exact h (u ++ u') c v' (List.append_assoc _ _ _).symm

/-- The beginnings of a text after which a piece of it is cut, `size` bytes of
the first piece being read already and `after` bytes coming after the text. -/
def cutPoints (polls : Polls) (after : Nat) : Nat → Bytes → List Bytes
  | _, [] => []
  | size, c :: t =>
    if polls.cuts (size + 1) (t.length + after) then
      [c] :: (cutPoints polls after 0 t).map (c :: ·)
    else (cutPoints polls after (size + 1) t).map (c :: ·)

section Text

variable {polls : Polls} {codec : Codec} {size : Nat} {t rest : Bytes}

/-- A piece ends inside the text or with it. -/
theorem textPiece_within (polls : Polls) (size : Nat) (hend : EndsText (codec.feedAll t) rest) :
    ∃ t1 t2, t = t1 ++ t2 ∧ textPiece polls codec size (t ++ rest) = (t1, t2 ++ rest) := by
  induction t generalizing codec size with
  | nil =>
    refine ⟨[], [], rfl, ?_⟩
    rcases hend with rfl | ⟨hmid, tail, rfl⟩
    · rfl
    · have hst : codec.starts signature = true := Codec.starts_iff.mpr ⟨hmid, rfl⟩
      rw [List.nil_append, textPiece, hst, Bool.or_true, if_pos rfl]
  | cons c t ih =>
    rw [List.cons_append, textPiece]
    split
    · exact ⟨[], c :: t, rfl, rfl⟩
    · obtain ⟨t1, t2, rfl, hpiece⟩ := @ih (codec.feed c) (size + 1) hend
      rw [hpiece]
      exact ⟨c :: t1, t2, rfl, rfl⟩

/-- The cut points of a text, from where its first piece ends. -/
theorem cutPoints_piece {t1 t2 : Bytes}
    (hpiece : textPiece polls codec size (t1 ++ (t2 ++ rest)) = (t1, t2 ++ rest)) (hne : t1 ≠ []) :
    cutPoints polls rest.length size (t1 ++ t2)
      = if polls.cuts (size + t1.length) (t2 ++ rest).length then
          t1 :: (cutPoints polls rest.length 0 t2).map (t1 ++ ·)
        else (cutPoints polls rest.length (size + t1.length) t2).map (t1 ++ ·) := by
  induction t1 generalizing codec size with
  | nil => exact absurd rfl hne
  | cons c t1 ih =>
    rw [List.cons_append, textPiece] at hpiece
    split at hpiece
    · cases hpiece
    · rename_i hgo
      simp only [Prod.mk.injEq, List.cons.injEq, true_and] at hpiece
      have hnext : textPiece polls (codec.feed c) (size + 1) (t1 ++ (t2 ++ rest))
          = (t1, t2 ++ rest) := Prod.ext hpiece.1 hpiece.2
      rw [List.cons_append, cutPoints]
      cases t1 with
      | nil =>
        rw [List.nil_append, List.length_singleton, ← List.length_append]
        rfl
      | cons d t1 =>
        have hstep : polls.cuts (size + 1) ((d :: t1 ++ t2).length + rest.length) = false := by
          rw [List.cons_append, textPiece] at hnext
          split at hnext
          · cases hnext
          · rename_i hgo'
            simp only [Bool.or_eq_true, Bool.and_eq_true, not_or, not_and,
              Bool.not_eq_true] at hgo'
            have := hgo'.1 (by simp)
            rw [show (d :: t1 ++ t2).length + rest.length = (t1 ++ (t2 ++ rest)).length + 1 by
              simp only [List.length_append, List.length_cons]; omega]
            exact this
        rw [hstep, if_neg Bool.false_ne_true, ih hnext (List.cons_ne_nil d t1)]
        rw [show size + 1 + (d :: t1).length = size + (c :: d :: t1).length by
          simp only [List.length_cons]; omega]
        split <;> simp [Function.comp_def]

theorem ne_nil_of_mem_cutPoints {after : Nat} {p : Bytes} (h : p ∈ cutPoints polls after size t) :
    p ≠ [] := by
  cases t with
  | nil => cases h
  | cons c t =>
    rw [cutPoints] at h
    split at h
    · rcases List.mem_cons.mp h with rfl | h
      · exact List.cons_ne_nil c []
      · obtain ⟨p', -, rfl⟩ := List.mem_map.mp h
        exact List.cons_ne_nil c p'
    · obtain ⟨p', -, rfl⟩ := List.mem_map.mp h
      exact List.cons_ne_nil c p'

/-- A pass that hands over to the parser does what the next one would have
done. -/
theorem run_dispatch {name : Option String} {s : RunState} {a : Action} {codec : Codec}
    {rest : Bytes} (hmid : codec.midCharacter = false)
    (h : runPass polls name s = dispatch [a] codec rest) :
    (runLoop polls name).run s
      = (a :: (runFrom polls name codec (signature :: rest)).1,
          (runFrom polls name codec (signature :: rest)).2) := by
  have hb : (runLoop polls name).body s = dispatch [a] codec rest := h
  have hb' : (runLoop polls name).body { codec, source := signature :: rest }
      = dispatch [] codec rest := runPass_signature hmid rest
  unfold runFrom
  cases hr : (parse rest).raised with
  | none =>
    rw [dispatch_of_not_raised hr] at hb hb'
    rw [Loop.run_again (congrArg Prod.snd hb), Loop.run_again (congrArg Prod.snd hb'), hb, hb']
    rfl
  | some e =>
    have hsnd : ∀ before, (dispatch before codec rest).2 = .raise e := by
      intro before
      rw [dispatch_snd, hr]
    rw [Loop.run_raise (by rw [hb, hsnd]), Loop.run_raise (by rw [hb', hsnd]), hb, hb',
      dispatch_fst, dispatch_fst]
    rfl

/-- How the first pass over a text ends. -/
inductive TextOutcome (polls : Polls) (n : String) (codec : Codec) (t rest : Bytes) : Prop where
  /-- The text is read whole. -/
  | whole (hpoints : cutPoints polls rest.length 0 t = [])
    (hrun : runFrom polls (some n) codec (t ++ rest)
      = (.content (t ++ rest) t :: (runFrom polls (some n) (codec.feedAll t) rest).1,
          (runFrom polls (some n) (codec.feedAll t) rest).2))
  /-- It is cut, and the next pass goes on from there. -/
  | cut (t1 t2 : Bytes) (ht : t = t1 ++ t2) (hne : t1 ≠ [])
    (hpoints : cutPoints polls rest.length 0 t
      = t1 :: (cutPoints polls rest.length 0 t2).map (t1 ++ ·))
    (hlast : t1.getLast? = some signature → (codec.feedAll t1).midCharacter = true)
    (hrun : runFrom polls (some n) codec (t ++ rest)
      = (.content (t ++ rest) t1 :: (runFrom polls (some n) (codec.feedAll t1) (t2 ++ rest)).1,
          (runFrom polls (some n) (codec.feedAll t1) (t2 ++ rest)).2))
  /-- It is cut after a signature byte, which is taken for a packet. -/
  | repeated (t1 t2 : Bytes) (ht : t = t1 ++ t2) (hne : t1 ≠ [])
    (hpoints : cutPoints polls rest.length 0 t
      = t1 :: (cutPoints polls rest.length 0 t2).map (t1 ++ ·))
    (hlast : t1.getLast? = some signature) (hmid : (codec.feedAll t1).midCharacter = false)
    (hmem : .packet (signature :: (t2 ++ rest)) (parse (t2 ++ rest))
      ∈ (runFrom polls (some n) codec (t ++ rest)).1)

/-- The cut points of a text whose first piece is `t1`. -/
theorem cutPoints_first {t1 t2 : Bytes}
    (hpiece : textPiece polls codec 0 (t1 ++ t2 ++ rest) = (t1, t2 ++ rest)) (hne : t1 ≠ []) :
    cutPoints polls rest.length 0 (t1 ++ t2)
      = if polls.cuts t1.length (t2 ++ rest).length then
          t1 :: (cutPoints polls rest.length 0 t2).map (t1 ++ ·)
        else (cutPoints polls rest.length t1.length t2).map (t1 ++ ·) := by
  rw [List.append_assoc] at hpiece
  have := cutPoints_piece hpiece hne
  rwa [Nat.zero_add] at this

/-- **One pass at a text.** -/
theorem text_pass (polls : Polls) (n : String) (hne : t ≠ []) (hquiet : Quiet codec t)
    (hend : EndsText (codec.feedAll t) rest) : TextOutcome polls n codec t rest := by
  obtain ⟨t1, t2, rfl, hpiece⟩ := textPiece_within polls 0 hend
  have hpoints := cutPoints_first hpiece
  have hp := pass_cases polls (some n) { codec, source := t1 ++ t2 ++ rest }
  have hbody : (runLoop polls (some n)).body { codec, source := t1 ++ t2 ++ rest }
      = runPass polls (some n) { codec, source := t1 ++ t2 ++ rest } := rfl
  generalize hr : runPass polls (some n) { codec, source := t1 ++ t2 ++ rest } = r at hp
  cases hp with
  | stop h => exact absurd (List.append_eq_nil_iff.mp h).1 hne
  | packet rest' h hmid =>
    obtain ⟨b, t', hb⟩ := List.exists_cons_of_ne_nil hne
    have hst := hquiet [] b t' hb
    rw [hb] at h
    cases h
    rw [Codec.feedAll_nil, Codec.starts_iff.mpr ⟨hmid, rfl⟩] at hst
    cases hst
  | refused b hname => cases hname
  | cut piece rest' h hne' hcut hlast =>
    rw [hpiece] at h
    cases h
    rw [if_pos hcut] at hpoints
    refine .cut t1 t2 rfl hne' (hpoints hne') ?_ ?_
    · intro hsig
      exact hlast.resolve_right (not_not.mpr hsig)
    · unfold runFrom
      rw [Loop.run_again (by rw [hbody, hr]), hbody, hr]
      rfl
  | atEnd piece h hne' hcut =>
    rw [hpiece, Prod.mk.injEq] at h
    obtain ⟨rfl, hnil⟩ := h
    obtain ⟨rfl, rfl⟩ := List.append_eq_nil_iff.mp hnil
    rw [List.append_nil, List.nil_append, List.length_nil, hcut, if_neg Bool.false_ne_true]
      at hpoints
    simp only [List.append_nil] at hbody hr ⊢
    refine .whole (hpoints hne') ?_
    rw [List.append_nil]
    unfold runFrom
    rw [Loop.run_again (by rw [hbody, hr]), hbody, hr]
    rfl
  | atPacket piece rest' h hne' hcut hmid =>
    rw [hpiece, Prod.mk.injEq] at h
    obtain ⟨rfl, hrest⟩ := h
    cases t2 with
    | nil =>
      rw [List.nil_append] at hrest
      rw [List.nil_append, hrest, List.length_cons, hcut, if_neg Bool.false_ne_true,
        List.append_nil] at hpoints
      rw [List.append_nil] at hbody hr ⊢
      rw [hrest] at hr ⊢
      refine .whole (hpoints hne') ?_
      exact run_dispatch hmid hr
    | cons c t2 =>
      rw [List.cons_append, List.cons.injEq] at hrest
      have hst := hquiet t1 c t2 rfl
      rw [hrest.1, Codec.starts_iff.mpr ⟨hmid, rfl⟩] at hst
      cases hst
  | repeated piece rest' h hcut hmid hlast =>
    rw [hpiece] at h
    cases h
    have hne' : t1 ≠ [] := by
      intro hnil
      rw [hnil] at hlast
      cases hlast
    rw [if_pos hcut] at hpoints
    refine .repeated t1 t2 rfl hne' (hpoints hne') hlast hmid ?_
    refine Loop.mem_run.mpr ⟨_, .refl, ?_⟩
    rw [hbody, hr, dispatch_fst]
    simp

/-- Nowhere is the text cut after a signature byte that is not the middle of a
character. -/
def CleanText (polls : Polls) (codec : Codec) (t : Bytes) (after : Nat) : Prop :=
  ∀ p ∈ cutPoints polls after 0 t, p.getLast? = some signature →
    (codec.feedAll p).midCharacter = true

/-- A text that is cut is clean if what is left of it is. -/
theorem cleanText_cut {t1 t2 : Bytes} {after : Nat}
    (hpoints : cutPoints polls after 0 (t1 ++ t2)
      = t1 :: (cutPoints polls after 0 t2).map (t1 ++ ·))
    (hlast : t1.getLast? = some signature → (codec.feedAll t1).midCharacter = true) :
    CleanText polls codec (t1 ++ t2) after ↔ CleanText polls (codec.feedAll t1) t2 after := by
  have hlater : ∀ p ∈ cutPoints polls after 0 t2, (t1 ++ p).getLast? = p.getLast? := by
    intro p hp
    exact List.getLast?_append_of_ne_nil _ (ne_nil_of_mem_cutPoints hp)
  constructor
  · intro hclean p hp hsig
    rw [← Codec.feedAll_append]
    refine hclean (t1 ++ p) ?_ (by rw [hlater p hp, hsig])
    rw [hpoints]
    exact List.mem_cons_of_mem _ (List.mem_map.mpr ⟨p, hp, rfl⟩)
  · intro hclean p hp hsig
    rw [hpoints] at hp
    rcases List.mem_cons.mp hp with rfl | hp
    · exact hlast hsig
    · obtain ⟨p', hp', rfl⟩ := List.mem_map.mp hp
      rw [Codec.feedAll_append]
      exact hclean p' hp' (by rw [← hlater p' hp', hsig])

/-- **Across a text.** It comes out in pieces, and the run goes on after it. -/
theorem run_text {n : String} (hquiet : Quiet codec t) (hend : EndsText (codec.feedAll t) rest)
    (hclean : CleanText polls codec t rest.length) :
    ∃ pieces : List (Bytes × Bytes), (pieces.map (·.2)).flatten = t
      ∧ runFrom polls (some n) codec (t ++ rest)
        = (pieces.map (fun p => .content p.1 p.2)
              ++ (runFrom polls (some n) (codec.feedAll t) rest).1,
            (runFrom polls (some n) (codec.feedAll t) rest).2) := by
  induction hn : t.length using Nat.strongRecOn generalizing t codec with
  | ind k ih =>
    rcases eq_or_ne t [] with rfl | hne
    · exact ⟨[], rfl, rfl⟩
    · cases text_pass polls n hne hquiet hend with
      | whole hpoints hrun => exact ⟨[(t ++ rest, t)], by simp, by rw [hrun]; rfl⟩
      | cut t1 t2 ht hne1 hpoints hlast hrun =>
        subst ht
        have hlen := List.length_pos_iff.mpr hne1
        rw [List.length_append] at hn
        have hclean2 := (cleanText_cut hpoints hlast).mp hclean
        obtain ⟨pieces, hflat, hrest⟩ := ih t2.length (by omega) hquiet.tail
          (by rwa [← Codec.feedAll_append]) hclean2 rfl
        refine ⟨(t1 ++ t2 ++ rest, t1) :: pieces, by simp [hflat], ?_⟩
        rw [hrun, hrest, ← Codec.feedAll_append]
        rfl
      | repeated t1 t2 ht hne1 hpoints hlast hmid hmem =>
        have := hclean t1 (by rw [hpoints]; exact List.mem_cons_self) hlast
        rw [hmid] at this
        cases this

/-- A text that is cut after such a byte is taken for a packet there. -/
theorem run_text_repeats {n : String} (hquiet : Quiet codec t)
    (hend : EndsText (codec.feedAll t) rest) (hdirty : ¬ CleanText polls codec t rest.length) :
    ∃ u v, t = u ++ v ∧ u ≠ [] ∧ .packet (signature :: (v ++ rest)) (parse (v ++ rest))
      ∈ (runFrom polls (some n) codec (t ++ rest)).1 := by
  induction hn : t.length using Nat.strongRecOn generalizing t codec with
  | ind k ih =>
    rcases eq_or_ne t [] with rfl | hne
    · exact absurd (fun p hp => by cases hp) hdirty
    · cases text_pass polls n hne hquiet hend with
      | whole hpoints hrun =>
        refine absurd (fun p hp => ?_) hdirty
        rw [hpoints] at hp
        cases hp
      | cut t1 t2 ht hne1 hpoints hlast hrun =>
        subst ht
        have hlen := List.length_pos_iff.mpr hne1
        rw [List.length_append] at hn
        have hdirty2 := mt (cleanText_cut hpoints hlast).mpr hdirty
        obtain ⟨u, v, rfl, hu, hmem⟩ := ih t2.length (by omega) hquiet.tail
          (by rwa [← Codec.feedAll_append]) hdirty2 rfl
        refine ⟨t1 ++ u, v, by simp, by simp [hu], ?_⟩
        rw [hrun]
        exact List.mem_cons_of_mem _ hmem
      | repeated t1 t2 ht hne1 hpoints hlast hmid hmem => exact ⟨t1, t2, ht, hne1, hmem⟩

end Text

/-! ## Across a stream -/

/-- At each text of the stream no byte starts a packet, and each packet comes
between characters. -/
def Aligned : Codec → Bytes → List (StatusCall × Bytes) → Prop
  | codec, t, [] => Quiet codec t
  | codec, t, p :: packets =>
    Quiet codec t ∧ (codec.feedAll t).midCharacter = false ∧ Written p.1
      ∧ Aligned (codec.feedAll t) p.2 packets

/-- Each text of the stream is clean. -/
def CleanStream (polls : Polls) : Codec → Bytes → List (StatusCall × Bytes) → Prop
  | codec, t, [] => CleanText polls codec t 0
  | codec, t, p :: packets =>
    CleanText polls codec t (packetsBytes (p :: packets)).length
      ∧ CleanStream polls (codec.feedAll t) p.2 packets

/-- The events of pieces of text. -/
theorem events_contents (n : String) (pieces : List (Bytes × Bytes)) :
    (pieces.map (fun p => Action.content p.1 p.2)).flatMap (Action.events (some n))
      = (pieces.map (·.2)).map (textEvent n) := by
  induction pieces with
  | nil => rfl
  | cons p pieces ih =>
    rw [List.map_cons, List.flatMap_cons, ih]
    rfl

theorem length_packetStarts {packets : List (StatusCall × Bytes)} {start : Bytes}
    (h : start ∈ packetStarts packets) : start.length ≤ (packetsBytes packets).length := by
  induction packets with
  | nil => cases h
  | cons p packets ih =>
    rcases List.mem_cons.mp h with rfl | h
    · exact Nat.le_refl _
    · have := ih h
      rw [packetsBytes, List.flatMap_cons, List.length_append, ← packetsBytes]
      omega

/-- What a pass does begins in the input that it was given. -/
theorem start_le_of_pass {polls : Polls} {name : Option String} {s : RunState} {a : Action}
    (h : a ∈ (runPass polls name s).1) : a.start.length ≤ s.source.length := by
  have hdispatch : ∀ (before : List Action) codec rest, rest.length + 1 ≤ s.source.length →
      (∀ b ∈ before, b.start.length ≤ s.source.length) → a ∈ (dispatch before codec rest).1 →
      a.start.length ≤ s.source.length := by
    intro before codec rest hrest hbefore hmem
    rw [dispatch_fst] at hmem
    rcases List.mem_append.mp hmem with hmem | hmem
    · exact hbefore a hmem
    · rw [List.mem_singleton.mp hmem, Action.start, List.length_cons]
      exact hrest
  have hp := pass_cases polls name s
  generalize runPass polls name s = r at hp h
  cases hp with
  | stop hs => cases h
  | packet rest hs _ => exact hdispatch [] _ rest (by rw [hs]; simp) (by simp) h
  | refused b _ => cases h
  | cut piece rest _ _ _ _ =>
    rw [List.mem_singleton.mp h]
    exact Nat.le_refl _
  | atEnd piece _ _ _ =>
    rw [List.mem_singleton.mp h]
    exact Nat.le_refl _
  | atPacket piece rest hs hne _ _ =>
    refine hdispatch _ _ rest ?_ (by simp [Action.start]) h
    rw [textPiece_split hs, List.length_append, List.length_cons]
    omega
  | repeated piece rest hs _ _ hlast =>
    refine hdispatch _ _ rest ?_ (by simp [Action.start]) h
    have hne : piece ≠ [] := by
      intro hnil
      rw [hnil] at hlast
      cases hlast
    have := List.length_pos_iff.mpr hne
    rw [textPiece_split hs, List.length_append]
    omega

/-- An action begins in the input that is there. -/
theorem length_start_le {polls : Polls} {name : Option String} {codec : Codec} {source : Bytes}
    {a : Action} (h : a ∈ (runFrom polls name codec source).1) :
    a.start.length ≤ source.length := by
  obtain ⟨s, hs, hmem⟩ := Loop.mem_run.mp h
  have hle : s.source.length ≤ source.length := by
    refine Loop.Reaches.invariant (P := fun t => t.source.length ≤ source.length)
      (fun t t' ht hpass => ?_) (Nat.le_refl _) hs
    have := runPass_shrinks polls name t t' hpass
    omega
  exact Nat.le_trans (start_le_of_pass hmem) hle

/-- **A run over a clean stream** returns, with the events of the stream. -/
theorem run_stream {n : String} {polls : Polls} {codec : Codec} {t : Bytes}
    {packets : List (StatusCall × Bytes)} (h : Aligned codec t packets)
    (hclean : CleanStream polls codec t packets) :
    (runFrom polls (some n) codec (t ++ packetsBytes packets)).2.map (·.source) = .ok []
      ∧ Emits n t packets ((runFrom polls (some n) codec (t ++ packetsBytes packets)).1.flatMap
        (Action.events (some n))) := by
  induction packets generalizing codec t with
  | nil =>
    have hend : EndsText (codec.feedAll t) (packetsBytes []) := .inl rfl
    obtain ⟨pieces, hflat, hrun⟩ := run_text (n := n) h hend hclean
    rw [hrun, show packetsBytes [] = [] from rfl, runFrom_nil, List.append_nil]
    exact ⟨rfl, _, hflat, events_contents n pieces⟩
  | cons p packets ih =>
    obtain ⟨hquiet, hmid, hcall, htail⟩ := h
    obtain ⟨call, text⟩ := p
    have hhead := packetsBytes_cons call text packets
    have hend : EndsText (codec.feedAll t) (packetsBytes ((call, text) :: packets)) := by
      refine .inr ⟨hmid, unsigned call ++ (text ++ packetsBytes packets), ?_⟩
      rw [hhead, packetBytes_eq, List.cons_append]
    obtain ⟨pieces, hflat, hrun⟩ := run_text (n := n) hquiet hend hclean.1
    obtain ⟨hreturns, hemits⟩ := ih htail hclean.2
    rw [hrun, hhead, run_packetBytes hmid hcall]
    refine ⟨hreturns, _, _, hflat, ?_, hemits⟩
    rw [List.flatMap_append, List.flatMap_cons, events_contents, packetAction_events hcall]

/-- A text and a packet are no other packet. -/
theorem onlyPackets_cons (n : String) (polls : Polls) (codec : Codec) {call : StatusCall}
    (text : Bytes) (packets : List (StatusCall × Bytes)) (pieces : List (Bytes × Bytes)) :
    OnlyPackets ((call, text) :: packets)
      (pieces.map (fun p => .content p.1 p.2)
          ++ packetAction call (text ++ packetsBytes packets)
            :: (runFrom polls (some n) codec (text ++ packetsBytes packets)).1)
      ↔ OnlyPackets packets (runFrom polls (some n) codec (text ++ packetsBytes packets)).1 := by
  have hhead := packetsBytes_cons call text packets
  constructor
  · intro hsigs at_ parsed hmem
    rcases List.mem_cons.mp (hsigs at_ parsed
      (List.mem_append_right _ (List.mem_cons_of_mem _ hmem))) with rfl | hstart
    · have := length_start_le hmem
      rw [Action.start, hhead, List.length_append, packetBytes_eq, List.length_cons] at this
      omega
    · exact hstart
  · intro hsigs at_ parsed hmem
    rcases List.mem_append.mp hmem with hmem | hmem
    · obtain ⟨p, -, hp⟩ := List.mem_map.mp hmem
      cases hp
    · rcases List.mem_cons.mp hmem with hmem | hmem
      · cases hmem
        rw [← hhead]
        exact List.mem_cons_self
      · exact List.mem_cons_of_mem _ (hsigs at_ parsed hmem)

/-- **A run over a stream** parses nothing but its packets exactly when the
stream is clean. -/
theorem onlyPackets_iff {n : String} {polls : Polls} {codec : Codec} {t : Bytes}
    {packets : List (StatusCall × Bytes)} (h : Aligned codec t packets) :
    OnlyPackets packets (runFrom polls (some n) codec (t ++ packetsBytes packets)).1
      ↔ CleanStream polls codec t packets := by
  induction packets generalizing codec t with
  | nil =>
    have hend : EndsText (codec.feedAll t) (packetsBytes []) := .inl rfl
    constructor
    · intro hsigs
      by_contra hdirty
      obtain ⟨u, v, -, -, hmem⟩ := run_text_repeats (n := n) h hend hdirty
      exact absurd (hsigs _ _ hmem) (by simp [packetStarts])
    · intro hclean at_ parsed hmem
      obtain ⟨pieces, hflat, hrun⟩ := run_text (n := n) h hend hclean
      rw [hrun, show packetsBytes [] = [] from rfl, runFrom_nil, List.append_nil] at hmem
      obtain ⟨p, -, hp⟩ := List.mem_map.mp hmem
      cases hp
  | cons p packets ih =>
    obtain ⟨hquiet, hmid, hcall, htail⟩ := h
    obtain ⟨call, text⟩ := p
    have hhead := packetsBytes_cons call text packets
    have hend : EndsText (codec.feedAll t) (packetsBytes ((call, text) :: packets)) := by
      refine .inr ⟨hmid, unsigned call ++ (text ++ packetsBytes packets), ?_⟩
      rw [hhead, packetBytes_eq, List.cons_append]
    by_cases hclean : CleanText polls codec t (packetsBytes ((call, text) :: packets)).length
    · obtain ⟨pieces, -, hrun⟩ := run_text (n := n) hquiet hend hclean
      rw [CleanStream, and_iff_right hclean, hrun, hhead, run_packetBytes hmid hcall,
        onlyPackets_cons]
      exact ih htail
    · refine iff_of_false (fun hsigs => ?_) fun hstream => hclean hstream.1
      obtain ⟨u, v, -, -, hmem⟩ := run_text_repeats (n := n) hquiet hend hclean
      have := length_packetStarts (hsigs _ _ hmem)
      rw [List.length_cons, List.length_append] at this
      omega

/-- What holds of the texts and is kept by putting them together holds of the
merged texts. -/
theorem merge_forall {P : Bytes → Prop} {segments : List Segment} (hnil : P [])
    (happend : ∀ a b, P a → P b → P (a ++ b)) (htext : ∀ bytes, .text bytes ∈ segments → P bytes)
    (hpacket : ∀ call, .packet call ∈ segments → Written call) :
    P (merge segments).1 ∧ ∀ p ∈ (merge segments).2, Written p.1 ∧ P p.2 := by
  induction segments with
  | nil => exact ⟨hnil, fun p hp => by cases hp⟩
  | cons segment segments ih =>
    obtain ⟨ih1, ih2⟩ := ih (fun bytes h => htext bytes (List.mem_cons_of_mem _ h))
      (fun call h => hpacket call (List.mem_cons_of_mem _ h))
    cases segment with
    | text bytes => exact ⟨happend _ _ (htext bytes List.mem_cons_self) ih1, ih2⟩
    | packet call =>
      refine ⟨hnil, fun p hp => ?_⟩
      rcases List.mem_cons.mp hp with rfl | hp
      · exact ⟨hpacket call List.mem_cons_self, ih1⟩
      · exact ih2 p hp

/-- A run is faithful to a stream exactly when its texts are clean. -/
theorem faithful_iff {polls : Polls} {n : String} {segments : List Segment}
    (h : Aligned {} (merge segments).1 (merge segments).2) :
    Faithful n segments (run polls (some n) (streamBytes segments))
      ↔ CleanStream polls {} (merge segments).1 (merge segments).2 := by
  rw [streamBytes_eq, run_eq_runFrom]
  constructor
  · exact fun hfaithful => (onlyPackets_iff h).mp hfaithful.signatures
  · intro hclean
    obtain ⟨hreturns, hemits⟩ := run_stream (n := n) h hclean
    exact ⟨hreturns, hemits, (onlyPackets_iff h).mpr hclean⟩

theorem prefix_of_mem_cutPoints {polls : Polls} {after size : Nat} {t p : Bytes}
    (h : p ∈ cutPoints polls after size t) : p <+: t := by
  induction t generalizing size p with
  | nil => cases h
  | cons c t ih =>
    rw [cutPoints] at h
    have hmap : ∀ size', p ∈ (cutPoints polls after size' t).map (c :: ·) → p <+: c :: t := by
      intro size' hp
      obtain ⟨p', hp', rfl⟩ := List.mem_map.mp hp
      exact (List.cons_prefix_cons).mpr ⟨rfl, ih hp'⟩
    split at h
    · rcases List.mem_cons.mp h with rfl | h
      · exact (List.cons_prefix_cons).mpr ⟨rfl, List.nil_prefix⟩
      · exact hmap 0 h
    · exact hmap _ h

/-! ## Lines without the signature byte -/

/-- Noise that the stream recovers from: no signature byte in it, and nothing
at all or a newline at its end. -/
def Noise (bytes : Bytes) : Prop :=
  signature ∉ bytes ∧ (bytes = [] ∨ bytes.getLast? = some 0x0A)

/-- A newline ends a character, or an error. -/
theorem feed_newline (codec : Codec) : (codec.feed 0x0A).midCharacter = false := by
  unfold Codec.feed
  cases hd : Utf8.decode (codec.pending ++ [0x0A]) with
  | none => rfl
  | some r =>
    obtain ⟨chars, pending⟩ := r
    have := Utf8.decode_concat_newline codec.pending hd
    simpa using this

theorem feedAll_noise {codec : Codec} (hmid : codec.midCharacter = false) {t : Bytes}
    (ht : Noise t) : (codec.feedAll t).midCharacter = false := by
  rcases ht.2 with rfl | hlast
  · exact hmid
  · obtain ⟨init, rfl⟩ := List.getLast?_eq_some_iff.mp hlast
    rw [Codec.feedAll_append]
    exact feed_newline _

theorem quiet_noise (codec : Codec) {t : Bytes} (ht : Noise t) : Quiet codec t := by
  rintro u c v rfl
  rw [Codec.starts, Bool.and_eq_false_iff]
  refine .inr ?_
  have : c ≠ signature := fun h => ht.1 (by simp [h])
  simpa using this

theorem cleanText_noise (polls : Polls) (codec : Codec) {t : Bytes} (ht : Noise t) (after : Nat) :
    CleanText polls codec t after := by
  intro p hp hsig
  obtain ⟨init, rfl⟩ := List.getLast?_eq_some_iff.mp hsig
  have hmem := (prefix_of_mem_cutPoints hp).subset (List.mem_append_right init List.mem_cons_self)
  exact absurd hmem ht.1

theorem noise_append (a b : Bytes) (ha : Noise a) (hb : Noise b) : Noise (a ++ b) := by
  refine ⟨fun h => (List.mem_append.mp h).elim ha.1 hb.1, ?_⟩
  rcases hb.2 with rfl | hlast
  · rw [List.append_nil]
    exact ha.2
  · refine .inr ?_
    have hne : b ≠ [] := by rintro rfl; cases hlast
    rw [List.getLast?_append_of_ne_nil _ hne, hlast]

/-- Each noise leaves the decoder between characters, whatever it had
pending. -/
theorem aligned_noise (polls : Polls) {codec : Codec} (hmid : codec.midCharacter = false)
    {t : Bytes} (ht : Noise t) {packets : List (StatusCall × Bytes)}
    (h : ∀ p ∈ packets, Written p.1 ∧ Noise p.2) :
    Aligned codec t packets ∧ CleanStream polls codec t packets := by
  induction packets generalizing codec t with
  | nil => exact ⟨quiet_noise codec ht, cleanText_noise polls codec ht _⟩
  | cons p packets ih =>
    obtain ⟨hcall, hnoise⟩ := h p List.mem_cons_self
    have hmid' := feedAll_noise hmid ht
    obtain ⟨haligned, hclean⟩ := ih hmid' hnoise fun q hq => h q (List.mem_cons_of_mem _ hq)
    exact ⟨⟨quiet_noise codec ht, hmid', hcall, haligned⟩, cleanText_noise polls codec ht _, hclean⟩

/-- **Resynchronisation.** Between packets there may be any lines without the
signature byte: the run is faithful to the stream, however it is polled. The
events of a packet are its one event, unless a text in it is not readable. -/
theorem run_resynchronises (polls : Polls) (n : String) (segments : List Segment)
    (hnoise : ∀ bytes, .text bytes ∈ segments → Noise bytes)
    (hpacket : ∀ call, .packet call ∈ segments → Written call) :
    Faithful n segments (run polls (some n) (streamBytes segments))
    ∧ ∀ call, .packet call ∈ segments → Readable call.event →
        packetEvents call = [carried call.event] := by
  obtain ⟨hfirst, hrest⟩ := merge_forall ⟨List.not_mem_nil, .inl rfl⟩ noise_append hnoise hpacket
  obtain ⟨haligned, hclean⟩ := aligned_noise polls
    (rfl : ({} : Codec).midCharacter = false) hfirst hrest
  exact ⟨(faithful_iff haligned).mpr hclean,
    fun call hcall => packetEvents_readable (hpacket call hcall)⟩

/-- Lines that are not UTF-8, one of which breaks off a character, in front of a
packet, between two and behind the last. -/
theorem run_resynchronises_passed :
    Faithful "stdout" [.text [0xC3, 0x0A], .packet passed, .text [0xE2, 0x82, 0x0A], .text [0x0A],
        .packet passed, .packet passed, .text [0x41, 0x0A]]
      (run inMemory (some "stdout") (streamBytes [.text [0xC3, 0x0A], .packet passed,
        .text [0xE2, 0x82, 0x0A], .text [0x0A], .packet passed, .packet passed,
        .text [0x41, 0x0A]])) := by
  refine (run_resynchronises inMemory "stdout" _ (fun bytes h => ?_) (fun call h => ?_)).1
  · simp only [List.mem_cons, Segment.text.injEq, reduceCtorEq, List.not_mem_nil, or_false,
      false_or] at h
    rcases h with rfl | rfl | rfl | rfl <;> exact ⟨by decide, .inr rfl⟩
  · simp only [List.mem_cons, reduceCtorEq, Segment.packet.injEq, List.not_mem_nil, or_false,
      false_or, or_self] at h
    subst h
    exact written_passed

/-! ## UTF-8 texts -/

/-- The bytes of a text. -/
def IsText (bytes : Bytes) : Prop := ∃ s : String, bytes = utf8Bytes s

/-- A decoder that has been given the beginning of a character keeps it. -/
theorem feed_inside {c : Char} {p q : Bytes} {b : UInt8} (mid : Bool)
    (h : String.utf8EncodeChar c = p ++ b :: q) (hq : q ≠ []) :
    Codec.feed { midCharacter := mid, pending := p } b
      = { midCharacter := true, pending := p ++ [b] } := by
  have hd : Utf8.decode (p ++ [b]) = some ([], p ++ [b]) :=
    Utf8.decode_prefix (q := q) (by rw [h]; simp) hq
  unfold Codec.feed
  dsimp only
  rw [hd]
  rfl

/-- The last byte of a character empties it. -/
theorem feed_last {c : Char} {p : Bytes} {b : UInt8} (mid : Bool)
    (h : String.utf8EncodeChar c = p ++ [b]) :
    Codec.feed { midCharacter := mid, pending := p } b = {} := by
  have hd : Utf8.decode (p ++ [b]) = some ([c], []) := by
    have := Utf8.decode_encode [c]
    rwa [Utf8.encode_cons, Utf8.encode_nil, List.append_nil, h] at this
  unfold Codec.feed
  dsimp only
  rw [hd]
  rfl

theorem feedAll_inside {c : Char} {p q : Bytes} (h : String.utf8EncodeChar c = p ++ q)
    (hp : p ≠ []) (hq : q ≠ []) :
    Codec.feedAll {} p = { midCharacter := true, pending := p } := by
  induction p using List.reverseRecOn generalizing q with
  | nil => exact absurd rfl hp
  | append_singleton p b ih =>
    rw [List.append_assoc, List.singleton_append] at h
    rw [Codec.feedAll_append, Codec.feedAll_cons, Codec.feedAll_nil]
    rcases eq_or_ne p [] with rfl | hne
    · exact feed_inside false h hq
    · rw [ih h hne (List.cons_ne_nil b q)]
      exact feed_inside true h hq

theorem feedAll_encodeChar (c : Char) : Codec.feedAll {} (String.utf8EncodeChar c) = {} := by
  obtain ⟨p, b, h⟩ : ∃ p b, String.utf8EncodeChar c = p ++ [b] :=
    ⟨_, _, (List.dropLast_concat_getLast (Utf8.encodeChar_ne_nil c)).symm⟩
  rw [h, Codec.feedAll_append, Codec.feedAll_cons, Codec.feedAll_nil]
  rcases eq_or_ne p [] with rfl | hne
  · exact feed_last false h
  · rw [feedAll_inside h hne (List.cons_ne_nil b [])]
    exact feed_last true h

theorem feedAll_encode (cs : List Char) : Codec.feedAll {} (Utf8.encode cs) = {} := by
  induction cs with
  | nil => rfl
  | cons c cs ih => rw [Utf8.encode_cons, Codec.feedAll_append, feedAll_encodeChar, ih]

/-- A text is divided between characters, or inside one. -/
theorem encode_eq_append {cs : List Char} {u v : Bytes} (h : Utf8.encode cs = u ++ v) :
    (∃ ds es, u = Utf8.encode ds ∧ v = Utf8.encode es)
    ∨ ∃ ds c p q, u = Utf8.encode ds ++ p ∧ String.utf8EncodeChar c = p ++ q ∧ p ≠ []
      ∧ q ≠ [] := by
  induction cs generalizing u with
  | nil =>
    rw [Utf8.encode_nil, eq_comm, List.append_eq_nil_iff] at h
    exact .inl ⟨[], [], h⟩
  | cons c cs ih =>
    rw [Utf8.encode_cons, List.append_eq_append_iff] at h
    rcases h with ⟨u', rfl, htail⟩ | ⟨q, hc, htail⟩
    · rcases ih htail with ⟨ds, es, rfl, rfl⟩ | ⟨ds, d, p, q, rfl, hd⟩
      · exact .inl ⟨c :: ds, es, rfl, rfl⟩
      · exact .inr ⟨c :: ds, d, p, q, by rw [Utf8.encode_cons, List.append_assoc], hd⟩
    · rcases eq_or_ne q [] with rfl | hq
      · rw [List.append_nil] at hc
        exact .inl ⟨[c], cs, by simp [hc], htail⟩
      · rcases eq_or_ne u [] with rfl | hu
        · exact .inl ⟨[], c :: cs, rfl, by rw [htail, Utf8.encode_cons, hc, List.nil_append]⟩
        · exact .inr ⟨[], c, u, q, rfl, hc, hu, hq⟩

/-- The first byte of a character is no signature byte. -/
theorem starts_false_of_encode {cs : List Char} {c : UInt8} {v : Bytes}
    (h : c :: v = Utf8.encode cs) : Codec.starts {} c = false := by
  cases cs with
  | nil => cases h
  | cons d cs =>
    obtain ⟨b, q, hd⟩ := List.exists_cons_of_ne_nil (Utf8.encodeChar_ne_nil d)
    rw [Utf8.encode_cons, hd, List.cons_append, List.cons.injEq] at h
    have htail := Utf8.head_encodeChar_not_tail hd
    rw [Codec.starts, Bool.and_eq_false_iff]
    refine .inr (beq_eq_false_iff_ne.mpr ?_)
    rintro rfl
    rw [← h.1] at htail
    exact htail (by decide)

/-- In a text only bytes inside a character can be signature bytes. -/
theorem quiet_encode (cs : List Char) : Quiet {} (Utf8.encode cs) := by
  intro u c v h
  rcases encode_eq_append h with ⟨ds, es, rfl, hes⟩ | ⟨ds, d, p, q, rfl, hd, hp, hq⟩
  · rw [feedAll_encode]
    exact starts_false_of_encode hes
  · rw [Codec.feedAll_append, feedAll_encode, feedAll_inside hd hp hq]
    rfl

/-- The bytes end in a character whose last octet is that of a signature. -/
def EndsInSignature (p : Bytes) : Prop :=
  p.getLast? = some signature ∧ ∃ cs, p = Utf8.encode cs

theorem cleanText_encode_iff (polls : Polls) (cs : List Char) (after : Nat) :
    CleanText polls {} (Utf8.encode cs) after
      ↔ ∀ p ∈ cutPoints polls after 0 (Utf8.encode cs), ¬ EndsInSignature p := by
  refine forall_congr' fun p => forall_congr' fun hp => ?_
  rw [EndsInSignature, not_and]
  refine forall_congr' fun _ => ?_
  obtain ⟨v, hv⟩ := prefix_of_mem_cutPoints hp
  rcases encode_eq_append hv.symm with ⟨ds, -, rfl, -⟩ | ⟨ds, d, w, q, rfl, hd, hw, hq⟩
  · rw [feedAll_encode]
    exact iff_of_false (by simp) (fun h => h ⟨ds, rfl⟩)
  · rw [Codec.feedAll_append, feedAll_encode, feedAll_inside hd hw hq]
    refine iff_of_true rfl ?_
    rintro ⟨es, hes⟩
    have h1 := feedAll_encode es
    rw [← hes, Codec.feedAll_append, feedAll_encode, feedAll_inside hd hw hq] at h1
    cases h1

/-- The texts of a stream, each with the number of bytes that come after it. -/
def textsOf : Bytes → List (StatusCall × Bytes) → List (Bytes × Nat)
  | t, [] => [(t, 0)]
  | t, p :: packets => (t, (packetsBytes (p :: packets)).length) :: textsOf p.2 packets

/-- UTF-8 keeps the decoder in step, and the stream is clean where no cut
falls behind such a character. -/
theorem aligned_encode (polls : Polls) {t : Bytes} (ht : IsText t)
    {packets : List (StatusCall × Bytes)} (h : ∀ p ∈ packets, Written p.1 ∧ IsText p.2) :
    Aligned {} t packets
    ∧ (CleanStream polls {} t packets ↔ ∀ q ∈ textsOf t packets,
        ∀ p ∈ cutPoints polls q.2 0 q.1, ¬ EndsInSignature p) := by
  induction packets generalizing t with
  | nil =>
    obtain ⟨s, rfl⟩ := ht
    refine ⟨quiet_encode s.toList, ?_⟩
    simp only [textsOf, List.forall_mem_singleton]
    exact cleanText_encode_iff polls s.toList 0
  | cons p packets ih =>
    obtain ⟨s, rfl⟩ := ht
    obtain ⟨hcall, htext⟩ := h p List.mem_cons_self
    obtain ⟨haligned, hclean⟩ := ih htext fun q hq => h q (List.mem_cons_of_mem _ hq)
    have hfeed : Codec.feedAll {} (utf8Bytes s) = {} := feedAll_encode s.toList
    refine ⟨⟨quiet_encode s.toList, by rw [hfeed], hcall, by rw [hfeed]; exact haligned⟩, ?_⟩
    simp only [textsOf, List.forall_mem_cons]
    rw [CleanStream, hfeed, hclean]
    exact and_congr_left fun _ => cleanText_encode_iff polls s.toList _

/-- **Mixed streams.** Between packets there may be any texts: the run is
faithful to the stream exactly when no piece of a text is cut after a
character whose last octet is that of a signature. The events of a packet are
its one event, unless a text in it is not readable. -/
theorem run_mixed_iff (polls : Polls) (n : String) (segments : List Segment)
    (htext : ∀ bytes, .text bytes ∈ segments → IsText bytes)
    (hpacket : ∀ call, .packet call ∈ segments → Written call) :
    (Faithful n segments (run polls (some n) (streamBytes segments))
      ↔ ∀ q ∈ textsOf (merge segments).1 (merge segments).2,
          ∀ p ∈ cutPoints polls q.2 0 q.1, ¬ EndsInSignature p)
    ∧ ∀ call, .packet call ∈ segments → Readable call.event →
        packetEvents call = [carried call.event] := by
  have happend : ∀ a b, IsText a → IsText b → IsText (a ++ b) := by
    rintro a b ⟨s, rfl⟩ ⟨s', rfl⟩
    refine ⟨s ++ s', ?_⟩
    rw [utf8Bytes, utf8Bytes, utf8Bytes, String.toList_append, Utf8.encode_append]
  obtain ⟨hfirst, hrest⟩ := merge_forall ⟨"", rfl⟩ happend htext hpacket
  obtain ⟨haligned, hclean⟩ := aligned_encode polls hfirst hrest
  rw [faithful_iff haligned, hclean]
  exact ⟨Iff.rfl, fun call hcall => packetEvents_readable (hpacket call hcall)⟩

/-- Texts in front of a packet, between two and behind the last. -/
theorem run_mixed_passed :
    let segments : List Segment := [.text (utf8Bytes "³"), .packet passed, .text (utf8Bytes "a"),
      .text (utf8Bytes "€"), .packet passed, .packet passed, .text (utf8Bytes "z")]
    Faithful "stdout" segments (run inMemory (some "stdout") (streamBytes segments))
      ↔ ∀ q ∈ textsOf (merge segments).1 (merge segments).2,
          ∀ p ∈ cutPoints inMemory q.2 0 q.1, ¬ EndsInSignature p := by
  refine (run_mixed_iff inMemory "stdout" _ (fun bytes h => ?_) (fun call h => ?_)).1
  · simp only [List.mem_cons, Segment.text.injEq, reduceCtorEq, List.not_mem_nil, or_false,
      false_or] at h
    rcases h with rfl | rfl | rfl | rfl <;> exact ⟨_, rfl⟩
  · simp only [List.mem_cons, reduceCtorEq, Segment.packet.injEq, List.not_mem_nil, or_false,
      false_or, or_self] at h
    subst h
    exact written_passed

/-- A superscript three, read a byte at a time: its last octet comes out once
as text and once more as a damaged packet. -/
theorem run_superscript_three :
    IsText [0xC2, 0xB3]
    ∧ ¬ Faithful "stdout" [.text [0xC2, 0xB3]]
      (run inMemory (some "stdout") (streamBytes [.text [0xC2, 0xB3]])) := by
  refine ⟨⟨"³", by decide +kernel⟩, fun h => ?_⟩
  obtain ⟨pieces, -, hevents⟩ := h.emits
  have hall : ∀ e ∈ (run inMemory (some "stdout") (streamBytes [.text [0xC2, 0xB3]])).events
      (some "stdout"), e.testId = none := by
    intro e he
    rw [hevents] at he
    obtain ⟨piece, -, rfl⟩ := List.mem_map.mp he
    rfl
  have herror : ((run inMemory (some "stdout") (streamBytes [.text [0xC2, 0xB3]])).events
      (some "stdout")).any (fun e => e.testId.isSome) = true := by decide +kernel
  obtain ⟨e, he, hid⟩ := List.any_eq_true.mp herror
  rw [hall e he] at hid
  cases hid

end Pysubunit.V2
