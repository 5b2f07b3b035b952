/-
Pysubunit.V2.ConcatTheorems — one stream written behind another.

A source that cannot be polled is read byte by byte, so a pass sees no more of
the input than the packet it comes to. A packet that is all there is parsed
alike whatever follows (`parse_append`), and so a run over a stream goes on, behind
its end, as a run over the next stream in the state it has left
(`runFrom_append`). `run_append_iff` says for which streams that is the run
the next stream would have by itself.
-/
import Pysubunit.V2.RunTheorems

namespace Pysubunit.V2

open ByteLib

/-! ## A packet and what follows it -/

/-- The packet that begins behind a signature is not all there, or its length
does not say where it ends. -/
def CutShort (source : Bytes) : Prop :=
  source.length < 5 ∨ ∃ length consumed, declaredLength source = some (length, consumed)
    ∧ (length < 6 ∨ source.length + 1 < length)

theorem declaredLength_append {source : Bytes} (h : 5 ≤ source.length) (rest : Bytes) :
    declaredLength (source ++ rest) = declaredLength source := by
  rw [← declaredLength_take (Nat.le_refl 5), List.take_append_of_le_length h,
    declaredLength_take (Nat.le_refl 5)]

theorem parse_longLength {source : Bytes} (h : 5 ≤ source.length)
    (hd : declaredLength source = none) :
    parse source
      = { packet := [[signature], source.take 5]
          unread := source.drop 5
          result := .error (.parseError "3 byte maximum given but 4 byte value found.") } := by
  unfold parse
  dsimp only
  rw [if_neg (by rw [List.length_take]; omega), parseHeader_eq h, hd]

/-- **A packet that is all there is parsed alike, whatever follows it.** -/
theorem parse_append {source : Bytes} (h : ¬ CutShort source) (rest : Bytes) :
    (parse (source ++ rest)).events = (parse source).events
    ∧ (parse (source ++ rest)).raised = (parse source).raised
    ∧ (parse (source ++ rest)).unread = (parse source).unread ++ rest := by
  have h5 : 5 ≤ source.length := by
    by_contra hlt
    exact h (.inl (by omega))
  have happend : 5 ≤ (source ++ rest).length := by
    rw [List.length_append]
    omega
  cases hd : declaredLength source with
  | none =>
    rw [parse_longLength happend ((declaredLength_append h5 rest).trans hd), parse_longLength h5 hd,
      List.take_append_of_le_length h5, List.drop_append_of_le_length h5]
    exact ⟨rfl, rfl, rfl⟩
  | some r =>
    obtain ⟨length, consumed⟩ := r
    have hlen : 6 ≤ length ∧ length ≤ source.length + 1 := by
      by_contra hout
      exact h (.inr ⟨length, consumed, hd, by omega⟩)
    rw [parse_whole happend ((declaredLength_append h5 rest).trans hd) hlen.1
        (by rw [List.length_append]; omega),
      parse_whole h5 hd hlen.1 hlen.2, List.take_append_of_le_length (by omega),
      List.take_append_of_le_length (by omega), List.drop_append_of_le_length (by omega)]
    have hresult : ∀ unread : Bytes,
        (wholeResult (beNat (source.take 2)) consumed (source.take (length - 1)) unread).result
          = (wholeResult (beNat (source.take 2)) consumed (source.take (length - 1))
            []).result := by
      intro unread
      unfold wholeResult
      split <;> rfl
    refine ⟨wholeResult_events _, ?_, by simp⟩
    unfold ParseResult.raised
    rw [hresult, ← hresult (source.drop (length - 1))]

/-- A packet that is not all there takes up what follows it, one byte at least,
and makes no more of it. -/
theorem parse_cutShort {source : Bytes} (h : CutShort source) :
    (∃ message, (parse source).events = parserErrors (parse source).packet message)
    ∧ (parse source).raised = none ∧ (parse source).unread = [] := by
  have hp := parse_cases source
  generalize parse source = r at hp
  cases hp with
  | shortHeader message _ => exact ⟨⟨message, rfl⟩, rfl, rfl⟩
  | longLength _ h5 hd =>
    rcases h with hlt | ⟨length, consumed, hd', -⟩
    · omega
    · rw [hd] at hd'
      cases hd'
  | shortRemainder message _ _ _ _ _ => exact ⟨⟨message, rfl⟩, rfl, rfl⟩
  | whole length consumed h5 hd hlow hhigh =>
    rcases h with hlt | ⟨length', consumed', hd', hlen⟩
    · omega
    · rw [hd] at hd'
      cases hd'
      omega

theorem unread_cutShort {source : Bytes} (h : CutShort source) (c : UInt8) :
    (parse (source ++ [c])).unread = [] := by
  have hd : 5 ≤ source.length → declaredLength (source ++ [c]) = declaredLength source :=
    fun h5 => declaredLength_append h5 [c]
  have hlen : (source ++ [c]).length = source.length + 1 := by simp
  have hp := parse_cases (source ++ [c])
  generalize parse (source ++ [c]) = r at hp
  cases hp with
  | shortHeader message _ => rfl
  | longLength message h5 hnone =>
    refine List.drop_eq_nil_of_le ?_
    rcases h with hlt | ⟨length, consumed, hsome, -⟩
    · omega
    · rw [hd (length_of_declaredLength hsome), hsome] at hnone
      cases hnone
  | shortRemainder message _ _ _ _ _ => rfl
  | whole length consumed h5 hsome hlow hhigh =>
    rw [wholeResult_unread]
    refine List.drop_eq_nil_of_le ?_
    rcases h with hlt | ⟨length', consumed', hsome', hout⟩
    · omega
    · rw [hd (length_of_declaredLength hsome'), hsome'] at hsome
      cases hsome
      omega

theorem length_events_le (parsed : ParseResult) : parsed.events.length ≤ 2 := by
  unfold ParseResult.events
  split <;> simp [parserErrors]

/-! ## One pass -/

/-- The next byte, in this state of the decoder, leads to a packet: before it
is decoded, or after. -/
def Codec.meetsPacket (codec : Codec) (b : UInt8) : Bool :=
  codec.starts b || (codec.feed b).starts b

/-- The decoder behind the next byte. -/
def Codec.past (codec : Codec) (b : UInt8) : Codec :=
  if codec.starts b then codec else codec.feed b

/-- What the next byte is emitted as. -/
def textActions (codec : Codec) (b : UInt8) (source : Bytes) : List Action :=
  if codec.starts b then [] else [.content (b :: source) [b]]

theorem runPass_inMemory (n : String) (codec : Codec) (b : UInt8) (source : Bytes) :
    runPass inMemory (some n) { codec, source := b :: source }
      = if codec.meetsPacket b then dispatch (textActions codec b source) (codec.past b) source
        else (textActions codec b source, .again { codec := codec.past b, source }) := by
  unfold runPass Codec.meetsPacket Codec.past textActions
  dsimp only
  cases hst : codec.starts b with
  | true => simp [show (!codec.midCharacter && b == signature) = true from hst]
  | false =>
    have hagg : aggregate inMemory (codec.feed b) [b] [b] source
        = { codec := codec.feed b, unread := source, buffered := [b], content := [b] } :=
      aggregate_cut rfl
    rw [if_neg (by simpa [Codec.starts] using hst), hagg]
    cases hmid : (codec.feed b).midCharacter with
    | true => simp [Codec.starts, hmid]
    | false =>
      by_cases hb : b = signature
      · subst hb
        simp [Codec.starts, hmid]
      · simp [Codec.starts, hmid, hb]

section Passes

variable {n : String} {codec : Codec} {b : UInt8} {source : Bytes}

theorem runFrom_text (h : codec.meetsPacket b = false) :
    runFrom inMemory (some n) codec (b :: source)
      = (textActions codec b source ++ (runFrom inMemory (some n) (codec.past b) source).1,
          (runFrom inMemory (some n) (codec.past b) source).2) := by
  have hpass := runPass_inMemory n codec b source
  rw [h, if_neg Bool.false_ne_true] at hpass
  unfold runFrom
  rw [Loop.run_again (congrArg Prod.snd hpass), runLoop_body, hpass]

theorem runFrom_meets (h : codec.meetsPacket b = true) (hraised : (parse source).raised = none) :
    runFrom inMemory (some n) codec (b :: source)
      = (textActions codec b source ++ .packet (signature :: source) (parse source)
            :: (runFrom inMemory (some n) (codec.past b) (parse source).unread).1,
          (runFrom inMemory (some n) (codec.past b) (parse source).unread).2) := by
  have hpass := runPass_inMemory n codec b source
  rw [h, if_pos rfl, dispatch_of_not_raised hraised] at hpass
  unfold runFrom
  rw [Loop.run_again (congrArg Prod.snd hpass), runLoop_body, hpass]
  simp

theorem runFrom_raises (h : codec.meetsPacket b = true) {e : Error}
    (hraised : (parse source).raised = some e) :
    runFrom inMemory (some n) codec (b :: source)
      = (textActions codec b source ++ [.packet (signature :: source) (parse source)],
          .error e) := by
  have hpass := runPass_inMemory n codec b source
  rw [h, if_pos rfl] at hpass
  unfold runFrom
  rw [Loop.run_raise (by rw [runLoop_body, hpass, dispatch_snd, hraised]), runLoop_body, hpass,
    dispatch_fst]

end Passes

/-! ## A run and what follows it -/

/-- The events of a run in some state. -/
def eventsFrom (n : String) (codec : Codec) (source : Bytes) : List StatusEvent :=
  (runFrom inMemory (some n) codec source).1.flatMap (Action.events (some n))

/-- In no pass from here on does the run come to a packet that is not all
there. -/
def NoneCutShort (n : String) (s : RunState) : Prop :=
  ∀ codec b source,
    Loop.Reaches (runLoop inMemory (some n)) s { codec, source := b :: source } →
    codec.meetsPacket b = true → ¬ CutShort source

theorem NoneCutShort.next {n : String} {s s' : RunState} (h : NoneCutShort n s)
    (hagain : ((runLoop inMemory (some n)).body s).2 = .again s') : NoneCutShort n s' :=
  fun codec b source hreaches => h codec b source (.head hagain hreaches)

section Append

variable {n : String} {codec : Codec} {a : Bytes}

theorem events_textActions (n : String) (codec : Codec) (b : UInt8) (source rest : Bytes) :
    (textActions codec b (source ++ rest)).flatMap (Action.events (some n))
      = (textActions codec b source).flatMap (Action.events (some n)) := by
  unfold textActions
  split <;> rfl

/-- **A run goes on behind the end of a stream** in the state it has left there,
when no packet of the stream was cut short. -/
theorem runFrom_append {end_ : Codec} {s : RunState} (h : NoneCutShort n s)
    (hend : (runFrom inMemory (some n) s.codec s.source).2
      = .ok { codec := end_, source := [] }) (rest : Bytes) :
    eventsFrom n s.codec (s.source ++ rest)
        = eventsFrom n s.codec s.source ++ eventsFrom n end_ rest
    ∧ (runFrom inMemory (some n) s.codec (s.source ++ rest)).2
        = (runFrom inMemory (some n) end_ rest).2 := by
  induction s using (runLoop inMemory (some n)).induct with
  | h s ih =>
    obtain ⟨codec, source⟩ := s
    cases source with
    | nil =>
      dsimp only at hend ⊢
      rw [runFrom_nil] at hend
      cases hend
      simp [eventsFrom, runFrom_nil]
    | cons b source =>
      dsimp only at ih hend ⊢
      have hpass := runPass_inMemory n codec b source
      cases hmeets : codec.meetsPacket b with
      | false =>
        rw [hmeets, if_neg Bool.false_ne_true] at hpass
        have hagain := congrArg Prod.snd hpass
        rw [runFrom_text hmeets] at hend
        obtain ⟨ihEvents, ihResult⟩ := ih _ hagain (h.next hagain) hend
        simp only [eventsFrom] at ihEvents ⊢
        rw [List.cons_append, runFrom_text hmeets, runFrom_text hmeets, List.flatMap_append,
          List.flatMap_append, events_textActions, ihEvents, List.append_assoc]
        exact ⟨rfl, ihResult⟩
      | true =>
        have hwhole : ¬ CutShort source := h codec b source .refl hmeets
        obtain ⟨hevents, hraised, hunread⟩ := parse_append hwhole rest
        cases hr : (parse source).raised with
        | some e =>
          rw [runFrom_raises hmeets hr] at hend
          cases hend
        | none =>
          rw [hmeets, if_pos rfl, dispatch_of_not_raised hr] at hpass
          have hagain := congrArg Prod.snd hpass
          rw [runFrom_meets hmeets hr] at hend
          obtain ⟨ihEvents, ihResult⟩ := ih _ hagain (h.next hagain) hend
          simp only [eventsFrom] at ihEvents ⊢
          rw [List.cons_append, runFrom_meets hmeets (hraised.trans hr), runFrom_meets hmeets hr,
            hunread, List.flatMap_append, List.flatMap_append, List.flatMap_cons,
            List.flatMap_cons, events_textActions, ihEvents, Action.events, Action.events, hevents,
            List.append_assoc, List.append_assoc]
          exact ⟨rfl, ihResult⟩

/-- A packet that is cut short takes up one byte more without another event. -/
theorem length_eventsFrom_cutShort {codec : Codec} {b : UInt8} {source : Bytes}
    (hmeets : codec.meetsPacket b = true) (hcut : CutShort source) (c : UInt8) :
    (eventsFrom n codec (b :: source ++ [c])).length ≤ (eventsFrom n codec (b :: source)).length := by
  have htext := congrArg List.length (events_textActions n codec b source [c])
  obtain ⟨⟨message, hevents⟩, hraised, hunread⟩ := parse_cutShort hcut
  have hle := length_events_le (parse (source ++ [c]))
  have hpast : (runFrom inMemory (some n) (codec.past b) []).1 = [] := by
    rw [runFrom_nil]
  simp only [eventsFrom]
  rw [runFrom_meets hmeets hraised, hunread, hpast, List.cons_append]
  cases hr : (parse (source ++ [c])).raised with
  | some e =>
    rw [runFrom_raises hmeets hr]
    simp only [List.flatMap_append, List.flatMap_cons, List.flatMap_nil, Action.events,
      List.length_append, htext, hevents, parserErrors, List.length_cons, List.length_nil]
    omega
  | none =>
    rw [runFrom_meets hmeets hr, unread_cutShort hcut, hpast]
    simp only [List.flatMap_append, List.flatMap_cons, List.flatMap_nil, Action.events,
      List.length_append, htext, hevents, parserErrors, List.length_cons, List.length_nil]
    omega

/-- So a stream with such a packet has no more events with one byte more. -/
theorem length_eventsFrom_le {s : RunState} (h : ¬ NoneCutShort n s) (c : UInt8) :
    (eventsFrom n s.codec (s.source ++ [c])).length
      ≤ (eventsFrom n s.codec s.source).length := by
  induction s using (runLoop inMemory (some n)).induct with
  | h s ih =>
    obtain ⟨codec, source⟩ := s
    cases source with
    | nil =>
      refine absurd (fun codec' b source hreaches => ?_) h
      rcases hreaches.cases_head with hs | ⟨s', hagain, -⟩
      · cases hs
      · cases hagain
    | cons b source =>
      have hpass := runPass_inMemory n codec b source
      have hlater : ∀ {s'}, ((runLoop inMemory (some n)).body { codec, source := b :: source }).2
          = .again s' → (codec.meetsPacket b = true → ¬ CutShort source) →
          ¬ NoneCutShort n s' := by
        intro s' hagain hhere hnone
        refine h fun codec' b' source' hreaches hmeets => ?_
        rcases hreaches.cases_head with hs | ⟨s'', hagain', hreaches'⟩
        · cases hs
          exact hhere hmeets
        · rw [hagain] at hagain'
          cases hagain'
          exact hnone codec' b' source' hreaches' hmeets
      cases hmeets : codec.meetsPacket b with
      | false =>
        rw [hmeets, if_neg Bool.false_ne_true] at hpass
        have hagain := congrArg Prod.snd hpass
        have hle := ih _ hagain (hlater hagain (by simp [hmeets]))
        simp only [eventsFrom] at hle ⊢
        rw [List.cons_append, runFrom_text hmeets, runFrom_text hmeets, List.flatMap_append,
          List.flatMap_append, events_textActions, List.length_append, List.length_append]
        exact Nat.add_le_add_left hle _
      | true =>
        have htext := congrArg List.length (events_textActions n codec b source [c])
        by_cases hcut : CutShort source
        · exact length_eventsFrom_cutShort hmeets hcut c
        · obtain ⟨hevents, hraised, hunread⟩ := parse_append hcut [c]
          cases hr : (parse source).raised with
          | some e =>
            simp only [eventsFrom]
            rw [List.cons_append, runFrom_raises hmeets (hraised.trans hr),
              runFrom_raises hmeets hr]
            simp only [List.flatMap_append, List.flatMap_cons, List.flatMap_nil, Action.events,
              List.length_append, htext, hevents, Nat.le_refl]
          | none =>
            rw [hmeets, if_pos rfl, dispatch_of_not_raised hr] at hpass
            have hagain := congrArg Prod.snd hpass
            have hle := ih _ hagain (hlater hagain fun _ => hcut)
            simp only [eventsFrom] at hle ⊢
            rw [List.cons_append, runFrom_meets hmeets (hraised.trans hr), runFrom_meets hmeets hr,
              hunread]
            simp only [List.flatMap_append, List.flatMap_cons, Action.events, List.length_append,
              htext, hevents]
            omega

end Append

/-! ## Streams that can be followed -/

/-- The run over a stream returns, comes to no packet that is cut short and
leaves the decoder as new. -/
structure Settled (n : String) (a : Bytes) : Prop where
  whole : NoneCutShort n { source := a }
  returns : (runFrom inMemory (some n) {} a).2 = .ok { source := [] }

/-- The decoder of a run keeps only what it would keep again. -/
def Codec.Sound (codec : Codec) : Prop := Utf8.decode codec.pending = some ([], codec.pending)

theorem Codec.Sound.past {codec : Codec} (h : codec.Sound) (b : UInt8) : (codec.past b).Sound := by
  unfold Codec.past Codec.feed
  split
  · exact h
  · cases hd : Utf8.decode (codec.pending ++ [b]) with
    | none => exact h
    | some r => exact Utf8.decode_kept hd

theorem sound_of_returns {n : String} {a : Bytes} {t : RunState}
    (h : (runFrom inMemory (some n) {} a).2 = .ok t) : t.codec.Sound := by
  refine Loop.Reaches.invariant (P := fun s => s.codec.Sound) ?_ rfl (Loop.run_ok_stops h).1
  intro ⟨codec, source⟩ s' hsound hagain
  rw [runLoop_body] at hagain
  cases source with
  | nil => cases hagain
  | cons b source =>
    rw [runPass_inMemory] at hagain
    split at hagain
    · rw [dispatch_again hagain]
      exact hsound.past b
    · cases hagain
      exact hsound.past b

theorem length_eventsFrom_text {n : String} {codec : Codec} {b : UInt8} {source : Bytes}
    (h : codec.meetsPacket b = false) :
    (eventsFrom n codec (b :: source)).length
      = 1 + (eventsFrom n (codec.past b) source).length := by
  have hstarts : codec.starts b = false := by
    rw [Codec.meetsPacket, Bool.or_eq_false_iff] at h
    exact h.1
  rw [eventsFrom, runFrom_text h, textActions, hstarts]
  simp [eventsFrom, Action.events]
  omega

/-- A byte that leads to a packet at the end of input. -/
theorem length_eventsFrom_meets {n : String} {codec : Codec} {b : UInt8}
    (h : codec.meetsPacket b = true) :
    (eventsFrom n codec [b]).length = if codec.starts b then 2 else 3 := by
  obtain ⟨⟨message, hevents⟩, hraised, hunread⟩ := @parse_cutShort [] (.inl (by simp))
  have hpast : (runFrom inMemory (some n) (codec.past b) []).1 = [] := by rw [runFrom_nil]
  rw [eventsFrom, runFrom_meets h hraised, hunread, hpast, textActions]
  split <;> simp [Action.events, hevents, parserErrors]

/-- Only the new decoder does with every stream what the new decoder does: one
inside a character takes a signature for text, and one that has kept bytes does not
take it for the end of the character `C2 B3`. -/
theorem codec_eq_new {n : String} {codec : Codec} (hsound : codec.Sound)
    (h : ∀ b, (eventsFrom n codec b).length = (eventsFrom n {} b).length) : codec = {} := by
  have hnew : (eventsFrom n {} [signature]).length = 2 :=
    @length_eventsFrom_meets n {} signature (by decide)
  cases hmid : codec.midCharacter with
  | true =>
    have hstarts : codec.starts signature = false := by simp [Codec.starts, hmid]
    have hlen := h [signature]
    cases hmeets : codec.meetsPacket signature with
    | true =>
      rw [length_eventsFrom_meets hmeets, hstarts, hnew] at hlen
      cases hlen
    | false =>
      rw [length_eventsFrom_text hmeets, eventsFrom, runFrom_nil, hnew] at hlen
      cases hlen
  | false =>
    by_contra hne
    have hkept : codec.pending ≠ [] := by
      intro hnil
      refine hne ?_
      cases codec
      simp_all
    have hfeed : codec.feed 0xC2 = { codec with midCharacter := false } := by
      rw [Codec.feed, Utf8.decode_concat_not_tail hkept hsound (by decide)]
    have hpast : codec.past 0xC2 = { codec with midCharacter := false } := by
      rw [Codec.past, hfeed, if_neg (by simp [Codec.starts, signature])]
    have hlen := h [0xC2, signature]
    rw [length_eventsFrom_text (by simp [Codec.meetsPacket, Codec.starts, signature]), hpast,
      length_eventsFrom_meets (by simp [Codec.meetsPacket, Codec.starts]),
      @length_eventsFrom_text n {} 0xC2 [signature] (by decide),
      length_eventsFrom_meets (by decide)] at hlen
    rw [if_pos (by simp [Codec.starts]),
      if_neg (show ¬ (({} : Codec).past 0xC2).starts signature = true by decide)] at hlen
    cases hlen

/-- **One stream behind another.** Whatever stream follows it, the events of a
stream are followed by those of the other, exactly when its own run returns, comes
to no packet that is cut short, and ends between characters. -/
theorem run_append_iff (n : String) (a : Bytes) :
    (∀ b, (run inMemory (some n) (a ++ b)).events (some n)
          = (run inMemory (some n) a).events (some n) ++ (run inMemory (some n) b).events (some n)
        ∧ (run inMemory (some n) (a ++ b)).result = (run inMemory (some n) b).result)
      ↔ Settled n a := by
  have hevents : ∀ b, (run inMemory (some n) b).events (some n) = eventsFrom n {} b :=
    fun _ => rfl
  have hresult : ∀ b, (run inMemory (some n) b).result
      = (runFrom inMemory (some n) {} b).2.map (·.source) := fun _ => rfl
  simp only [hevents, hresult]
  constructor
  · intro h
    have hnil : (run inMemory (some n) []).result = .ok [] := by
      rw [hresult, runFrom_nil]
      rfl
    obtain ⟨t, ht⟩ : ∃ t, (runFrom inMemory (some n) {} a).2 = .ok t := by
      have hreturns := (h []).2
      rw [List.append_nil, ← hresult [], hnil] at hreturns
      cases hrun : (runFrom inMemory (some n) {} a).2 with
      | error e =>
        rw [hrun] at hreturns
        cases hreturns
      | ok t => exact ⟨t, rfl⟩
    have hsource : t.source = [] := run_ok_nil ht
    have hwhole : NoneCutShort n { source := a } := by
      by_contra hcut
      have hle := length_eventsFrom_le hcut 0x0A
      have hlen := congrArg List.length (h [0x0A]).1
      rw [List.length_append, @length_eventsFrom_text n {} 0x0A [] (by decide)] at hlen
      dsimp only at hle
      omega
    have hend : (runFrom inMemory (some n) {} a).2 = .ok { codec := t.codec, source := [] } := by
      rw [ht, ← hsource]
    have hcodec : t.codec = {} := by
      refine codec_eq_new (n := n) (sound_of_returns ht) fun b => ?_
      have hev := (runFrom_append hwhole hend b).1
      rw [(h b).1] at hev
      exact congrArg List.length (List.append_cancel_left hev).symm
    exact ⟨hwhole, by rw [hend, hcodec]⟩
  · intro h b
    obtain ⟨hev, hres⟩ := runFrom_append h.whole h.returns b
    exact ⟨hev, congrArg _ hres⟩

/-! ## A stream that is not all there yet -/

/-- What the next byte gives if it leads to no packet. -/
theorem eventsFrom_text {n : String} {codec : Codec} {b : UInt8} {source : Bytes}
    (h : codec.meetsPacket b = false) :
    eventsFrom n codec (b :: source)
      = (textActions codec b source).flatMap (Action.events (some n))
        ++ eventsFrom n (codec.past b) source := by
  rw [eventsFrom, runFrom_text h, List.flatMap_append, ← eventsFrom]

/-- And if it leads to one. -/
theorem eventsFrom_meets {n : String} {codec : Codec} {b : UInt8} {source : Bytes}
    (h : codec.meetsPacket b = true) :
    eventsFrom n codec (b :: source)
      = (textActions codec b source).flatMap (Action.events (some n))
        ++ ((parse source).events
          ++ match (parse source).raised with
            | some _ => []
            | none => eventsFrom n (codec.past b) (parse source).unread) := by
  cases hraised : (parse source).raised with
  | some e => simp [eventsFrom, runFrom_raises h hraised, Action.events]
  | none => simp [eventsFrom, runFrom_meets h hraised, Action.events]

/-- The events of what was done stand at the beginning of `all`, but for the
last two if the last thing done was to report a packet that was cut short. -/
def Tells (n : String) (actions : List Action) (all : List StatusEvent) : Prop :=
  ∃ kept, kept <+: all
    ∧ (actions.flatMap (Action.events (some n)) = kept
      ∨ ∃ source message,
          actions.getLast? = some (.packet (signature :: source) (parse source))
            ∧ CutShort source
            ∧ actions.flatMap (Action.events (some n))
              = kept ++ parserErrors (parse source).packet message)

theorem Tells.append {n : String} {actions : List Action} {all : List StatusEvent}
    (h : Tells n actions all) (before : List Action) :
    Tells n (before ++ actions) (before.flatMap (Action.events (some n)) ++ all) := by
  obtain ⟨kept, hkept, htold⟩ := h
  refine ⟨_, (List.prefix_append_right_inj _).mpr hkept, ?_⟩
  rw [List.flatMap_append]
  rcases htold with rfl | ⟨source, message, hlast, hcut, htold⟩
  · exact .inl rfl
  · refine .inr ⟨source, message, ?_, hcut, ?_⟩
    · rw [List.getLast?_append, hlast]
      rfl
    · rw [htold, List.append_assoc]

/-- **In any state.** -/
theorem runFrom_tells (n : String) (s : RunState) (rest : Bytes) :
    Tells n (runFrom inMemory (some n) s.codec s.source).1
      (eventsFrom n s.codec (s.source ++ rest)) := by
  induction s using (runLoop inMemory (some n)).induct with
  | h s ih =>
    obtain ⟨codec, source⟩ := s
    cases source with
    | nil => exact ⟨[], List.nil_prefix, .inl (by rw [runFrom_nil]; rfl)⟩
    | cons b source =>
      dsimp only at ih ⊢
      have hpass := runPass_inMemory n codec b source
      rw [List.cons_append]
      cases hmeets : codec.meetsPacket b with
      | false =>
        rw [hmeets, if_neg Bool.false_ne_true] at hpass
        rw [eventsFrom_text hmeets, runFrom_text hmeets, events_textActions]
        exact (ih _ (congrArg Prod.snd hpass)).append _
      | true =>
        rw [eventsFrom_meets hmeets, events_textActions]
        by_cases hcut : CutShort source
        · obtain ⟨⟨message, hevents⟩, hraised, hunread⟩ := parse_cutShort hcut
          rw [runFrom_meets hmeets hraised, hunread, runFrom_nil]
          refine Tells.append ⟨[], List.nil_prefix, .inr ⟨source, message, rfl, hcut, ?_⟩⟩ _
          rw [List.flatMap_singleton, Action.events, hevents, List.nil_append]
        · obtain ⟨hevents, hraised, hunread⟩ := parse_append hcut rest
          rw [hevents, hraised, hunread]
          cases hr : (parse source).raised with
          | some e =>
            rw [runFrom_raises hmeets hr, List.append_nil]
            exact Tells.append ⟨_, List.prefix_refl _, .inl (List.append_nil _)⟩ _
          | none =>
            rw [hmeets, if_pos rfl, dispatch_of_not_raised hr] at hpass
            rw [runFrom_meets hmeets hr]
            have hrest := (ih _ (congrArg Prod.snd hpass)).append
              [.packet (signature :: source) (parse source)]
            rw [List.flatMap_singleton] at hrest
            exact hrest.append _

/-- **Nothing is taken back.** Whatever bytes a source holds and whatever is appended to it, the
events that were emitted for what was there stand at the beginning of the events for all of it, but
for a last pair that reports a packet of which not everything had arrived. -/
theorem run_tells (n : String) (a b : Bytes) :
    Tells n (run inMemory (some n) a).actions ((run inMemory (some n) (a ++ b)).events (some n)) :=
  runFrom_tells n { source := a } b

end Pysubunit.V2
