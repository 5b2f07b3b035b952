/-
Pysubunit.V2.BytewiseTheorems — reading one byte at a time.

`run` puts text together for as long as `select` says that there is more. What it
is after is simpler (`byteLoop`): a byte between characters that is the signature
starts a packet, every other byte is text. A piece of text is a number of such
steps (`byteLoop_text`), so however the source becomes readable the two read the
same packets in the same places with the same text between them, unless a piece is
cut after a signature byte that is taken up again (`run_bytewise_iff`).
-/
import Pysubunit.V2.MixedStreamTheorems
import Pysubunit.V2.RunTheorems

namespace Pysubunit.V2

open ByteLib

/-! ## The reader -/

/-- A step: a packet, or a byte of text. -/
def bytePass (s : RunState) : List Action × Pass RunState Error :=
  match s.source with
  | [] => ([], .stop)
  | b :: source =>
    if s.codec.starts b then dispatch [] s.codec source
    else ([.content (b :: source) [b]], .again { codec := s.codec.feed b, source })

theorem bytePass_shrinks (s s' : RunState) (h : (bytePass s).2 = .again s') :
    s'.source.length < s.source.length := by
  unfold bytePass at h
  split at h
  · cases h
  · rename_i b source hs
    rw [hs, List.length_cons]
    split at h
    · have hunread := length_parse_unread source
      rw [dispatch_again h]
      dsimp only
      omega
    · cases h
      exact Nat.lt_succ_self _

def byteLoop : Loop RunState Action Error where
  body := bytePass
  size s := s.source.length
  shrinks := bytePass_shrinks

@[simp] theorem byteLoop_body : byteLoop.body = bytePass := rfl

def readBytes (input : Bytes) : RunResult :=
  let r := byteLoop.run { source := input }
  { actions := r.1, result := r.2.map (·.source) }

/-! ## What is read -/

/-- The text before the first packet of a run, and the events of each packet
with the text after it. -/
def transcript : List Action → Bytes × List (List StatusEvent × Bytes)
  | [] => ([], [])
  | .content _ bytes :: actions => (bytes ++ (transcript actions).1, (transcript actions).2)
  | .packet _ parsed :: actions =>
    ([], (parsed.events, (transcript actions).1) :: (transcript actions).2)

def Action.packetStart : Action → Option Bytes
  | .content _ _ => none
  | .packet at_ _ => some at_

/-- The packets and the text between them, the places where packets begin, and
the outcome. -/
structure Reading where
  transcript : Bytes × List (List StatusEvent × Bytes)
  starts : List Bytes
  result : Except Error Bytes

def RunResult.reading (r : RunResult) : Reading :=
  { transcript := V2.transcript r.actions
    starts := r.actions.filterMap Action.packetStart
    result := r.result }

/-- What a loop reads from some state. -/
def readingFrom (L : Loop RunState Action Error) (s : RunState) : Reading :=
  RunResult.reading { actions := (L.run s).1, result := (L.run s).2.map (·.source) }

/-- With text in front. -/
def Reading.afterText (r : Reading) (text : Bytes) : Reading :=
  { r with transcript := (text ++ r.transcript.1, r.transcript.2) }

/-- With a packet in front. -/
def Reading.afterPacket (r : Reading) (at_ : Bytes) (parsed : ParseResult) : Reading :=
  { r with
    transcript := ([], (parsed.events, r.transcript.1) :: r.transcript.2)
    starts := at_ :: r.starts }

theorem Reading.afterText_append (r : Reading) (t u : Bytes) :
    r.afterText (t ++ u) = (r.afterText u).afterText t := by
  simp [Reading.afterText]

@[simp] theorem Reading.afterText_inj {r r' : Reading} {text : Bytes} :
    r.afterText text = r'.afterText text ↔ r = r' := by
  obtain ⟨⟨t, packets⟩, starts, result⟩ := r
  obtain ⟨⟨t', packets'⟩, starts', result'⟩ := r'
  simp [Reading.afterText, and_assoc]

@[simp] theorem Reading.afterPacket_inj {r r' : Reading} {at_ : Bytes} {parsed : ParseResult} :
    r.afterPacket at_ parsed = r'.afterPacket at_ parsed ↔ r = r' := by
  obtain ⟨⟨t, packets⟩, starts, result⟩ := r
  obtain ⟨⟨t', packets'⟩, starts', result'⟩ := r'
  simp [Reading.afterPacket, and_assoc]

/-- Pieces of text in front of what is done. -/
theorem reading_contents (pieces : List (Bytes × Bytes)) (actions : List Action)
    (result : Except Error Bytes) :
    RunResult.reading { actions := pieces.map (fun p => .content p.1 p.2) ++ actions, result }
      = (RunResult.reading { actions, result }).afterText (pieces.map (·.2)).flatten := by
  induction pieces with
  | nil => rfl
  | cons p pieces ih =>
    have hflat : ((p :: pieces).map (·.2)).flatten = p.2 ++ (pieces.map (·.2)).flatten := rfl
    rw [hflat, Reading.afterText_append, ← ih]
    rfl

section Loops

variable {L : Loop RunState Action Error} {s : RunState}

/-- A pass that emits text and goes round. -/
theorem readingFrom_text {at_ text : Bytes} {s' : RunState}
    (h : L.body s = ([.content at_ text], .again s')) :
    readingFrom L s = (readingFrom L s').afterText text := by
  have hagain : (L.body s).2 = .again s' := congrArg Prod.snd h
  unfold readingFrom
  rw [Loop.run_again hagain, h]
  rfl

/-- What follows a packet: the rest, unless `_parse_packet` raises. -/
def readingAfter (L : Loop RunState Action Error) (codec : Codec) (rest : Bytes) : Reading :=
  Reading.afterPacket
    (match (parse rest).raised with
      | some e => { transcript := ([], []), starts := [], result := .error e }
      | none => readingFrom L { codec, source := (parse rest).unread })
    (signature :: rest) (parse rest)

/-- A pass that comes to a packet, after pieces of text if there are any. -/
theorem readingFrom_dispatch {codec : Codec} {rest : Bytes} (pieces : List (Bytes × Bytes))
    (h : L.body s = dispatch (pieces.map fun p => .content p.1 p.2) codec rest) :
    readingFrom L s = (readingAfter L codec rest).afterText (pieces.map (·.2)).flatten := by
  have hfirst := congrArg Prod.fst h
  have hsecond := congrArg Prod.snd h
  rw [dispatch_fst] at hfirst
  rw [dispatch_snd] at hsecond
  unfold readingFrom readingAfter
  cases hraised : (parse rest).raised with
  | some e =>
    rw [hraised] at hsecond
    rw [Loop.run_raise hsecond, hfirst, reading_contents]
    rfl
  | none =>
    rw [hraised] at hsecond
    rw [Loop.run_again hsecond, hfirst, List.append_assoc, reading_contents]
    rfl

end Loops

/-! ## Byte by byte -/

theorem byteLoop_packet {s : RunState} (hmid : s.codec.midCharacter = false) {rest : Bytes}
    (hs : s.source = signature :: rest) : byteLoop.body s = dispatch [] s.codec rest := by
  have hstarts : s.codec.starts signature = true := Codec.starts_iff.mpr ⟨hmid, rfl⟩
  simp [bytePass, hs, hstarts]

/-- **A text that no byte of starts a packet** is read as text. -/
theorem byteLoop_text {s : RunState} {t rest : Bytes} (hs : s.source = t ++ rest)
    (hquiet : Quiet s.codec t) :
    readingFrom byteLoop s
      = (readingFrom byteLoop { codec := s.codec.feedAll t, source := rest }).afterText t := by
  induction t generalizing s with
  | nil =>
    obtain ⟨codec, source⟩ := s
    obtain rfl : source = rest := hs
    rfl
  | cons b t ih =>
    have hstarts : s.codec.starts b = false := hquiet [] b t rfl
    have hbody : byteLoop.body s = ([.content s.source [b]],
        .again { codec := s.codec.feed b, source := t ++ rest }) := by
      simp [bytePass, hs, hstarts]
    have hquiet' : Quiet (s.codec.feed b) t := Quiet.tail (u := [b]) hquiet
    rw [readingFrom_text hbody, ih rfl hquiet', Codec.feedAll_cons, ← Reading.afterText_append]
    rfl

/-- No packet begins before the input does. -/
theorem length_start_le_of_byteLoop {s : RunState} {at_ : Bytes}
    (h : at_ ∈ (readingFrom byteLoop s).starts) : at_.length ≤ s.source.length := by
  obtain ⟨a, ha, hat⟩ := List.mem_filterMap.mp h
  obtain ⟨t, ht, hmem⟩ := Loop.mem_run.mp ha
  have hle : t.source.length ≤ s.source.length := by
    refine Loop.Reaches.invariant (P := fun u => u.source.length ≤ s.source.length)
      (fun u u' hu hpass => ?_) (Nat.le_refl _) ht
    have := bytePass_shrinks u u' hpass
    omega
  rw [byteLoop_body] at hmem
  unfold bytePass at hmem
  split at hmem
  · cases hmem
  · rename_i b source hs
    rw [hs, List.length_cons] at hle
    split at hmem
    · rw [dispatch_fst, List.nil_append] at hmem
      rw [List.mem_singleton.mp hmem] at hat
      cases hat
      rw [List.length_cons]
      exact hle
    · rw [List.mem_singleton.mp hmem] at hat
      cases hat

/-! ## The aggregating reader -/

/-- No byte of a piece starts a packet. -/
theorem quiet_textPiece {polls : Polls} {codec : Codec} {size : Nat} {source piece rest : Bytes}
    (h : textPiece polls codec size source = (piece, rest)) : Quiet codec piece := by
  induction source generalizing codec size piece with
  | nil =>
    cases h
    intro u c v hsplit
    simp at hsplit
  | cons b source ih =>
    rw [textPiece] at h
    split at h
    · cases h
      intro u c v hsplit
      simp at hsplit
    · rename_i hgo
      cases h
      have hstarts : codec.starts b = false :=
        (Bool.or_eq_false_iff.mp (Bool.eq_false_iff.mpr hgo)).2
      have hnext : Quiet (codec.feed b) (textPiece polls (codec.feed b) (size + 1) source).1 :=
        ih rfl
      rintro (_ | ⟨b', u⟩) c v hsplit
      · obtain ⟨rfl, -⟩ := List.cons.inj hsplit
        exact hstarts
      · obtain ⟨rfl, htail⟩ := List.cons.inj hsplit
        rw [Codec.feedAll_cons]
        exact hnext u c v htail

section Runs

variable {polls : Polls} {n : String}

/-- What is left of an input after a packet. -/
theorem forall_reaches_dispatch {s : RunState} {before : List Action} {codec : Codec}
    {rest : Bytes} {P : RunState → Prop}
    (h : runPass polls (some n) s = dispatch before codec rest) :
    (∀ t, Loop.Reaches (runLoop polls (some n)) s t → P t)
      ↔ P s ∧ ((parse rest).raised = none →
          ∀ t, Loop.Reaches (runLoop polls (some n)) { codec, source := (parse rest).unread } t
            → P t) := by
  cases hraised : (parse rest).raised with
  | none =>
    have hagain : ((runLoop polls (some n)).body s).2
        = .again { codec, source := (parse rest).unread } := by
      rw [runLoop_body, h, dispatch_snd, hraised]
    simp [Loop.forall_reaches_again hagain]
  | some e =>
    have hraise : ((runLoop polls (some n)).body s).2 = .raise e := by
      rw [runLoop_body, h, dispatch_snd, hraised]
    simp [Loop.forall_reaches_raise hraise]

/-- Behind the same packet the two readers agree if they agree on the rest. -/
theorem readingAfter_iff {codec : Codec} {rest : Bytes} {s : RunState} {before : List Action}
    (h : runPass polls (some n) s = dispatch before codec rest)
    (ih : ∀ s', ((runLoop polls (some n)).body s).2 = .again s' →
      (readingFrom (runLoop polls (some n)) s' = readingFrom byteLoop s'
        ↔ ∀ t, Loop.Reaches (runLoop polls (some n)) s' t → ¬ RepeatsSignature polls t)) :
    readingAfter (runLoop polls (some n)) codec rest = readingAfter byteLoop codec rest
      ↔ ((parse rest).raised = none →
          ∀ t, Loop.Reaches (runLoop polls (some n)) { codec, source := (parse rest).unread } t
            → ¬ RepeatsSignature polls t) := by
  unfold readingAfter
  rw [Reading.afterPacket_inj]
  cases hraised : (parse rest).raised with
  | none =>
    rw [← ih _ (by rw [runLoop_body, h, dispatch_snd, hraised])]
    simp
  | some e => simp

/-- Behind a piece of text the two readers agree if they agree on the rest. -/
theorem readingFrom_text_iff {s : RunState} {piece rest : Bytes}
    (hs : textPiece polls s.codec 0 s.source = (piece, rest))
    (hr : runPass polls (some n) s
      = ([.content s.source piece], .again { codec := s.codec.feedAll piece, source := rest }))
    (hnot : ¬ RepeatsSignature polls s)
    (ih : ∀ s', ((runLoop polls (some n)).body s).2 = .again s' →
      (readingFrom (runLoop polls (some n)) s' = readingFrom byteLoop s'
        ↔ ∀ t, Loop.Reaches (runLoop polls (some n)) s' t → ¬ RepeatsSignature polls t)) :
    readingFrom (runLoop polls (some n)) s = readingFrom byteLoop s
      ↔ ∀ t, Loop.Reaches (runLoop polls (some n)) s t → ¬ RepeatsSignature polls t := by
  have hagain : ((runLoop polls (some n)).body s).2
      = .again { codec := s.codec.feedAll piece, source := rest } := congrArg Prod.snd hr
  rw [Loop.forall_reaches_again hagain, readingFrom_text (L := runLoop polls (some n)) hr,
    byteLoop_text (textPiece_split hs) (quiet_textPiece hs), Reading.afterText_inj, ih _ hagain]
  exact (and_iff_right hnot).symm

/-- From any state. -/
theorem readingFrom_iff (s : RunState) :
    readingFrom (runLoop polls (some n)) s = readingFrom byteLoop s
      ↔ ∀ t, Loop.Reaches (runLoop polls (some n)) s t → ¬ RepeatsSignature polls t := by
  induction s using (runLoop polls (some n)).induct with
  | h s ih =>
    have hp := pass_cases polls (some n) s
    obtain ⟨r, hr⟩ : ∃ r, runPass polls (some n) s = r := ⟨_, rfl⟩
    rw [hr] at hp
    cases hp with
    | stop hs =>
      have hstop : ((runLoop polls (some n)).body s).2 = .stop := congrArg Prod.snd hr
      have hbyte : byteLoop.body s = ([], .stop) := by simp [bytePass, hs]
      rw [Loop.forall_reaches_stop hstop]
      refine iff_of_true ?_ (accounts_nil hs).1
      rw [readingFrom, readingFrom, Loop.run_stop hstop, Loop.run_stop (congrArg Prod.snd hbyte),
        hbyte, runLoop_body, hr]
    | packet rest hs hmid =>
      have hpiece : textPiece polls s.codec 0 s.source = ([], signature :: rest) := by
        rw [hs, textPiece, Codec.starts_iff.mpr ⟨hmid, rfl⟩, Bool.or_true, if_pos rfl]
      have hnot : ¬ RepeatsSignature polls s := by
        rintro ⟨hlast, -⟩
        rw [hpiece] at hlast
        cases hlast
      rw [forall_reaches_dispatch hr, readingFrom_dispatch (L := runLoop polls (some n)) [] hr,
        readingFrom_dispatch [] (byteLoop_packet hmid hs), Reading.afterText_inj,
        readingAfter_iff hr ih]
      exact (and_iff_right hnot).symm
    | refused b hname => cases hname
    | cut piece rest hs hne hcut hlast =>
      exact readingFrom_text_iff hs hr (accounts_cut hs hne hcut hlast).1 ih
    | atEnd piece hs hne hcut => exact readingFrom_text_iff hs hr (accounts_atEnd hs hcut).1 ih
    | atPacket piece rest hs hne hcut hmid =>
      have hnot : ¬ RepeatsSignature polls s := by
        rintro ⟨-, -, hcut'⟩
        rw [hs, List.length_cons, hcut] at hcut'
        cases hcut'
      have hread := readingFrom_dispatch (L := runLoop polls (some n)) [(s.source, piece)] hr
      have hbytes := readingFrom_dispatch (L := byteLoop) [] (byteLoop_packet
        (s := { codec := s.codec.feedAll piece, source := signature :: rest }) hmid rfl)
      rw [forall_reaches_dispatch hr, hread, List.map_singleton, List.flatten_singleton,
        ← readingAfter_iff hr ih, byteLoop_text (textPiece_split hs) (quiet_textPiece hs),
        Reading.afterText_inj, hbytes]
      exact (and_iff_right hnot).symm
    | repeated piece rest hs hcut hmid hlast =>
      have hrepeats : RepeatsSignature polls s := by
        unfold RepeatsSignature
        rw [hs]
        exact ⟨hlast, hmid, hcut⟩
      refine iff_of_false ?_ fun h => h _ .refl hrepeats
      -- the packet begins before what the piece has left
      intro hsame
      rw [readingFrom_dispatch (L := runLoop polls (some n)) [(s.source, piece)] hr,
        List.map_singleton, List.flatten_singleton,
        byteLoop_text (textPiece_split hs) (quiet_textPiece hs), Reading.afterText_inj] at hsame
      have hmem : signature :: rest
          ∈ (readingFrom byteLoop { codec := s.codec.feedAll piece, source := rest }).starts := by
        rw [← hsame]
        exact List.mem_cons_self
      have hlength := length_start_le_of_byteLoop hmem
      rw [List.length_cons] at hlength
      dsimp only at hlength
      omega

end Runs

/-- **Reading ahead changes nothing**, except where a signature byte is taken up twice: whatever
the input is and whenever the source has more to read, a run comes to the same packets in the same
places, with the same events, text between them and outcome, as a reader that looks at one byte at
a time, exactly if no piece of text is cut after a signature byte that ends a character. -/
theorem run_bytewise_iff (polls : Polls) (n : String) (input : Bytes) :
    (run polls (some n) input).reading = (readBytes input).reading
      ↔ ∀ s, Loop.Reaches (runLoop polls (some n)) { source := input } s →
          ¬ RepeatsSignature polls s :=
  readingFrom_iff { source := input }

end Pysubunit.V2
