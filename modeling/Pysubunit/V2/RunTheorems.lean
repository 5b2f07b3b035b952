/-
Pysubunit.V2.RunTheorems — what holds of `run` on every byte string.

Three properties, each with the exact condition under which the code has it.
`run_robust_iff`: the run returns and reports every packet, except where a
packet is an `Overrun`. `run_conserves_iff`: the run accounts for every byte
once, except where the signature at the end of a piece is taken up again or
a short remainder is dropped. `parse_consumption_iff`: a call of the parser
stays within the declared length, except where that is below six.
-/
import Pysubunit.V2.Pieces
import Pysubunit.V2.Grammar
import Pysubunit.V2.PacketStreamTheorems

namespace Pysubunit.V2

open ByteLib

/-! ## Bounded consumption -/

/-- How much a call of the parser may consume of the bytes after the
signature. -/
def consumptionBound (source : Bytes) : Nat :=
  match declaredLength source with
  | some (length, _) => max 5 (length - 1)
  | none => 5

/-- A call of the parser consumes no more than the bound, and nothing of what
starts after it. -/
structure BoundedConsumption (source : Bytes) : Prop where
  bounded : ∃ n, n ≤ consumptionBound source ∧ (parse source).unread = source.drop n
  later : ∀ packets, packets <:+ source →
    packets.length + consumptionBound source ≤ source.length → packets <:+ (parse source).unread

/-- The length counts less than the header, and there is more than the header
to read. -/
def DeclaresTooLittle (source : Bytes) : Prop :=
  5 < source.length ∧ ∃ length consumed, declaredLength source = some (length, consumed)
    ∧ length < 6

theorem bounded_of_drop {source : Bytes} {n : Nat} (hn : n ≤ consumptionBound source)
    (h : (parse source).unread = source.drop n) : BoundedConsumption source := by
  refine ⟨⟨n, hn, h⟩, fun packets hsuffix hlen => ?_⟩
  rw [h]
  refine List.suffix_of_suffix_length_le hsuffix (List.drop_suffix n source) ?_
  rw [List.length_drop]
  omega

/-- **Bounded consumption** holds exactly where the declared length covers the
header, or nothing follows the header. -/
theorem parse_consumption_iff (source : Bytes) :
    BoundedConsumption source ↔ ¬ DeclaresTooLittle source := by
  have hp := parse_cases source
  generalize hr : parse source = r at hp
  have hr' := congrArg ParseResult.unread hr
  cases hp with
  | shortHeader message h =>
    refine iff_of_true (bounded_of_drop (n := source.length) ?_ ?_) fun hd => ?_
    · unfold consumptionBound
      split <;> omega
    · rw [hr', List.drop_length]
    · have := hd.1
      omega
  | longLength message h hd =>
    refine iff_of_true (bounded_of_drop (n := 5) ?_ hr') ?_
    · rw [consumptionBound, hd]
    · rintro ⟨-, length, consumed, hd', -⟩
      rw [hd] at hd'
      cases hd'
  | shortRemainder message length consumed h hd hlen =>
    have hbound : consumptionBound source = max 5 (length - 1) := by rw [consumptionBound, hd]
    rcases Nat.lt_or_ge length 6 with hlow | hhigh
    · rcases Nat.eq_or_lt_of_le h with h5 | h5
      · refine iff_of_true (bounded_of_drop (n := source.length) (by omega) ?_) fun hd => ?_
        · rw [hr', List.drop_length]
        · have := hd.1
          omega
      · refine iff_of_false ?_ (not_not.mpr ⟨h5, length, consumed, hd, hlow⟩)
        rintro ⟨⟨n, hn, hdrop⟩, -⟩
        rw [hr'] at hdrop
        have := congrArg List.length hdrop
        rw [List.length_drop, List.length_nil] at this
        omega
    · refine iff_of_true (bounded_of_drop (n := source.length) (by omega) ?_) ?_
      · rw [hr', List.drop_length]
      · rintro ⟨-, length', consumed', hd', hlow⟩
        rw [hd] at hd'
        cases hd'
        omega
  | whole length consumed h hd hlow hhigh =>
    refine iff_of_true (bounded_of_drop (n := length - 1) ?_ ?_) ?_
    · rw [consumptionBound, hd]
      exact Nat.le_max_right _ _
    · rw [hr', wholeResult_unread]
    · rintro ⟨-, length', consumed', hd', hlow'⟩
      rw [hd] at hd'
      cases hd'
      omega

/-- A length of zero in front of a packet, and the packet is gone. -/
theorem parse_swallows_packet :
    ¬ BoundedConsumption ([0x20, 0x00, 0x00, 0x00, 0x00] ++ packetBytes passed) := by
  intro h
  have hsuffix := h.later (packetBytes passed) (List.suffix_append _ _) (by decide +kernel)
  have hunread : (parse ([0x20, 0x00, 0x00, 0x00, 0x00] ++ packetBytes passed)).unread = [] := by
    decide +kernel
  rw [hunread, List.suffix_nil] at hsuffix
  exact absurd hsuffix (by decide +kernel)

/-! ## Robustness -/

/-- What a run over an in-memory source should come to: it returns with
nothing unread, and each packet is one event or the two error events. -/
structure Robust (r : RunResult) : Prop where
  returns : r.result = .ok []
  reports : ∀ at_ parsed, .packet at_ parsed ∈ r.actions →
    (∃ event, parsed.result = .ok event ∧ parsed.events = [event])
      ∨ ∃ message, parsed.result = .error (.parseError message)
        ∧ parsed.events = parserErrors parsed.packet message

/-- In state `s` the byte that is read next is taken for a signature: before it
is decoded, or after. -/
def TakesSignature (s : RunState) (rest : Bytes) : Prop :=
  s.source = signature :: rest
    ∧ (s.codec.midCharacter = false ∨ (s.codec.feed signature).midCharacter = false)

/-- A source that cannot be polled is read one byte at a time. -/
theorem textPiece_inMemory {codec : Codec} {source piece rest : Bytes}
    (h : textPiece inMemory codec 0 source = (piece, rest)) (hne : piece ≠ []) :
    ∃ b, piece = [b] ∧ source = b :: rest ∧ codec.starts b = false := by
  cases source with
  | nil => cases h; exact absurd rfl hne
  | cons b source =>
    rw [textPiece] at h
    split at h
    · cases h
      exact absurd rfl hne
    · rename_i hgo
      have hone : textPiece inMemory (codec.feed b) 1 source = ([], source) := by
        cases source with
        | nil => rfl
        | cons c source =>
          rw [textPiece, Polls.cuts]
          rfl
      rw [hone] at h
      cases h
      exact ⟨b, rfl, rfl, by simpa using hgo⟩

theorem dispatch_raises_iff {before : List Action} {codec : Codec} {rest : Bytes} :
    (∃ e, (dispatch before codec rest).2 = .raise e) ↔ Overrun rest := by
  rw [dispatch_snd]
  cases hr : (parse rest).raised with
  | some e => simp [((parse_raised_iff rest e).mp hr).1]
  | none =>
    have hfits : ¬ Overrun rest := by
      intro ho
      rw [(parse_raised_iff rest _).mpr ⟨ho, rfl⟩] at hr
      cases hr
    simp [hfits]

/-- A pass raises on an overrun, and on nothing else. -/
theorem pass_raises_iff (n : String) (s : RunState) :
    (∃ e, (runPass inMemory (some n) s).2 = .raise e)
      ↔ ∃ rest, TakesSignature s rest ∧ Overrun rest := by
  have hp := pass_cases inMemory (some n) s
  generalize runPass inMemory (some n) s = r at hp
  cases hp with
  | stop h =>
    refine iff_of_false (by simp) ?_
    rintro ⟨rest, ⟨hs, -⟩, -⟩
    rw [h] at hs
    cases hs
  | packet rest h hmid =>
    rw [dispatch_raises_iff]
    constructor
    · intro ho
      exact ⟨rest, ⟨h, .inl hmid⟩, ho⟩
    · rintro ⟨rest', ⟨hs, -⟩, ho⟩
      rw [h] at hs
      cases hs
      exact ho
  | refused b hname => cases hname
  | cut piece rest h hne hcut hlast =>
    refine iff_of_false (by simp) ?_
    obtain ⟨b, rfl, hs, hstarts⟩ := textPiece_inMemory h hne
    rintro ⟨rest', ⟨hs', hmid⟩, -⟩
    rw [hs] at hs'
    cases hs'
    rcases hmid with hmid | hmid
    · rw [Codec.starts_iff.mpr ⟨hmid, rfl⟩] at hstarts
      cases hstarts
    · rcases hlast with hlast | hlast
      · rw [Codec.feedAll_cons, Codec.feedAll_nil, hmid] at hlast
        cases hlast
      · exact hlast rfl
  | atEnd piece h hne hcut => simp [Polls.cuts, Polls.more, inMemory] at hcut
  | atPacket piece rest h hne hcut hmid => simp [Polls.cuts, Polls.more, inMemory] at hcut
  | repeated piece rest h hcut hmid hlast =>
    have hne : piece ≠ [] := by rintro rfl; cases hlast
    obtain ⟨b, rfl, hs, hstarts⟩ := textPiece_inMemory h hne
    cases hlast
    rw [dispatch_raises_iff]
    constructor
    · intro ho
      exact ⟨rest, ⟨hs, .inr hmid⟩, ho⟩
    · rintro ⟨rest', ⟨hs', -⟩, ho⟩
      rw [hs] at hs'
      cases hs'
      exact ho

/-- Where nothing was let through, a packet is one event or two. -/
theorem reports_of_not_raised {parsed : ParseResult} (h : parsed.raised = none) :
    (∃ event, parsed.result = .ok event ∧ parsed.events = [event])
      ∨ ∃ message, parsed.result = .error (.parseError message)
        ∧ parsed.events = parserErrors parsed.packet message := by
  unfold ParseResult.raised at h
  unfold ParseResult.events
  split at h
  · rename_i event hr
    exact .inl ⟨event, hr, rfl⟩
  · rename_i message hr
    exact .inr ⟨message, hr, rfl⟩
  · cases h

/-- The packet of a pass that does not raise was not let through. -/
theorem packet_of_pass {polls : Polls} {name : Option String} {s : RunState} {at_ : Bytes}
    {parsed : ParseResult} (hmem : .packet at_ parsed ∈ (runPass polls name s).1)
    (hraise : ∀ e, (runPass polls name s).2 ≠ .raise e) : parsed.raised = none := by
  have hdispatch : ∀ (before : List Action) codec rest,
      (∀ a ∈ before, a ≠ .packet at_ parsed) →
      .packet at_ parsed ∈ (dispatch before codec rest).1 →
      (∀ e, (dispatch before codec rest).2 ≠ .raise e) → parsed.raised = none := by
    intro before codec rest hbefore hmem hraise
    rw [dispatch_fst, List.mem_append, List.mem_singleton] at hmem
    rw [dispatch_snd] at hraise
    rcases hmem with hmem | hmem
    · exact absurd rfl (hbefore _ hmem)
    · cases hmem
      cases hr : (parse rest).raised with
      | none => rfl
      | some e =>
        rw [hr] at hraise
        exact absurd rfl (hraise e)
  have hp := pass_cases polls name s
  generalize runPass polls name s = r at hp hmem hraise
  cases hp with
  | stop h => simp at hmem
  | packet rest h hmid => exact hdispatch _ _ _ (by simp) hmem hraise
  | refused b hname => simp at hmem
  | cut piece rest h hne hcut hlast => simp at hmem
  | atEnd piece h hne hcut => simp at hmem
  | atPacket piece rest h hne hcut hmid => exact hdispatch _ _ _ (by simp) hmem hraise
  | repeated piece rest h hcut hmid hlast => exact hdispatch _ _ _ (by simp) hmem hraise

/-- The run stops at the end of input and nowhere else. -/
theorem source_of_stop {polls : Polls} {name : Option String} {s : RunState}
    (h : (runPass polls name s).2 = .stop) : s.source = [] := by
  have hdispatch : ∀ before codec rest, (dispatch before codec rest).2 ≠ .stop := by
    intro before codec rest
    rw [dispatch_snd]
    split <;> simp
  have hp := pass_cases polls name s
  generalize runPass polls name s = r at hp h
  cases hp with
  | stop hs => exact hs
  | packet rest _ _ => exact absurd h (hdispatch _ _ _)
  | refused b _ => cases h
  | cut piece rest _ _ _ _ => cases h
  | atEnd piece _ _ _ => cases h
  | atPacket piece rest _ _ _ _ => exact absurd h (hdispatch _ _ _)
  | repeated piece rest _ _ _ _ => exact absurd h (hdispatch _ _ _)

/-- A run that returns has read everything. -/
theorem run_ok_nil {polls : Polls} {name : Option String} {s t : RunState}
    (h : ((runLoop polls name).run s).2 = .ok t) : t.source = [] :=
  source_of_stop (Loop.run_ok_stops h).2

theorem loop_of_run_ok {polls : Polls} {name : Option String} {input unread : Bytes}
    (h : (run polls name input).result = .ok unread) :
    ∃ t, ((runLoop polls name).run { source := input }).2 = .ok t := by
  unfold run at h
  cases hrun : ((runLoop polls name).run { source := input }).2 with
  | error e => simp [hrun, Except.map] at h
  | ok t => exact ⟨t, rfl⟩

/-- **Robustness** holds of a run exactly when none of the packets that it
takes up is an overrun. -/
theorem run_robust_iff (n : String) (input : Bytes) :
    Robust (run inMemory (some n) input)
      ↔ ∀ s, Loop.Reaches (runLoop inMemory (some n)) { source := input } s →
          ∀ rest, TakesSignature s rest → ¬ Overrun rest := by
  have hreturns : (∃ t, ((runLoop inMemory (some n)).run { source := input }).2 = .ok t)
      ↔ ∀ s, Loop.Reaches (runLoop inMemory (some n)) { source := input } s →
          ∀ rest, TakesSignature s rest → ¬ Overrun rest := by
    rw [Loop.run_ok_iff]
    refine forall_congr' fun s => forall_congr' fun _ => ?_
    rw [runLoop_body, ← not_exists, pass_raises_iff]
    simp only [not_exists, not_and]
  rw [← hreturns]
  constructor
  · exact fun h => loop_of_run_ok h.returns
  · rintro ⟨t, ht⟩
    refine ⟨?_, fun at_ parsed hmem => ?_⟩
    · unfold run
      dsimp only
      rw [ht, Except.map, run_ok_nil ht]
    · obtain ⟨s, hs, hmem⟩ := Loop.mem_run.mp hmem
      refine reports_of_not_raised (packet_of_pass hmem fun e he => ?_)
      exact (Loop.run_ok_iff _).mp ⟨t, ht⟩ s hs e he

/-- A packet of the length of its header, in three octets: there is no
checksum to unpack. -/
theorem run_raises_struct_error : ¬ Robust (run inMemory (some "stdout")
    [0xB3, 0x20, 0x00, 0x80, 0x00, 0x06]) := by
  intro h
  have hret := h.returns
  have hraise : (run inMemory (some "stdout") [0xB3, 0x20, 0x00, 0x80, 0x00, 0x06]).result
      = .error .structError := by decide +kernel
  rw [hraise] at hret
  cases hret

/-! ## Conservation -/

/-- The bytes that an action accounts for: those of the piece, or those of the
packet, which are its packet data if it is reported. -/
def Action.bytes : Action → Bytes
  | .content _ bytes => bytes
  | .packet _ parsed => join parsed.packet

/-- The actions account for the input from left to right, each for the bytes
it begins at. -/
def Tiles : List Action → Bytes → Prop
  | [], input => input = []
  | a :: actions, input => a.start = input ∧ ∃ rest, input = a.bytes ++ rest ∧ Tiles actions rest

theorem Tiles.concat {actions : List Action} {input : Bytes} (h : Tiles actions input) :
    actions.flatMap Action.bytes = input := by
  induction actions generalizing input with
  | nil => exact h.symm
  | cons a actions ih =>
    obtain ⟨-, rest, rfl, htail⟩ := h
    rw [List.flatMap_cons, ih htail]

/-- The events account for the input from left to right, action by action: text
is in the event of its name, a packet that was not decoded in the event with the
packet data, and a decoded packet is itself the bytes that gave its event. -/
inductive Reported (name : String) : List Action → List StatusEvent → Bytes → Prop where
  | nil : Reported name [] [] []
  | text {event : StatusEvent} {bytes rest : Bytes} {actions : List Action}
      {events : List StatusEvent} (hname : event.fileName = some name)
      (hbytes : event.fileBytes = some bytes) (h : Reported name actions events rest) :
      Reported name (.content (bytes ++ rest) bytes :: actions) (event :: events) (bytes ++ rest)
  | decoded {parsed : ParseResult} {event : StatusEvent} {rest : Bytes} {actions : List Action}
      {events : List StatusEvent} (hresult : parsed.result = .ok event)
      (h : Reported name actions events rest) :
      Reported name (.packet (join parsed.packet ++ rest) parsed :: actions) (event :: events)
        (join parsed.packet ++ rest)
  | damaged {parsed : ParseResult} {message : String} {data error : StatusEvent}
      {bytes rest : Bytes} {actions : List Action} {events : List StatusEvent}
      (hresult : parsed.result = .error (.parseError message))
      (hname : data.fileName = some "Packet data") (hbytes : data.fileBytes = some bytes)
      (hmessage : error.fileBytes = some (utf8Bytes message))
      (h : Reported name actions events rest) :
      Reported name (.packet (bytes ++ rest) parsed :: actions) (data :: error :: events)
        (bytes ++ rest)

/-- The input is the concatenation of what the events of the run report, in the
order in which they are emitted: no byte is lost and none is reported twice. -/
def Conserves (name : String) (r : RunResult) (input : Bytes) : Prop :=
  Reported name r.actions (r.events (some name)) input

/-- Where no packet was let through, the events report the bytes of the
actions. -/
theorem reported_iff_tiles (name : String) {actions : List Action} {input : Bytes}
    (h : ∀ at_ parsed, .packet at_ parsed ∈ actions → parsed.raised = none) :
    Reported name actions (actions.flatMap (Action.events (some name))) input
      ↔ Tiles actions input := by
  induction actions generalizing input with
  | nil =>
    constructor
    · rintro ⟨⟩
      rfl
    · rintro rfl
      exact .nil
  | cons a actions ih =>
    have ih' : ∀ {rest : Bytes}, _ := fun {rest} =>
      @ih rest fun at_ parsed hmem => h at_ parsed (List.mem_cons_of_mem _ hmem)
    rw [List.flatMap_cons]
    generalize actions.flatMap (Action.events (some name)) = events at ih'
    cases a with
    | content at_ bytes =>
      constructor
      · rintro (_ | ⟨-, -, htail⟩)
        exact ⟨rfl, _, rfl, ih'.mp htail⟩
      · rintro ⟨rfl, rest, hsplit, htail⟩
        obtain rfl : _ = bytes ++ rest := hsplit
        exact .text rfl rfl (ih'.mpr htail)
    | packet at_ parsed =>
      rw [Action.events]
      rcases reports_of_not_raised (h at_ parsed List.mem_cons_self) with
        ⟨event, hresult, hevents⟩ | ⟨message, hresult, hevents⟩
      · rw [hevents]
        constructor
        · intro hreported
          cases hreported with
          | decoded _ htail => exact ⟨rfl, _, rfl, ih'.mp htail⟩
          | damaged hdamaged => rw [hresult] at hdamaged; cases hdamaged
        · rintro ⟨rfl, rest, hsplit, htail⟩
          obtain rfl : _ = join parsed.packet ++ rest := hsplit
          exact .decoded hresult (ih'.mpr htail)
      · rw [hevents]
        constructor
        · intro hreported
          cases hreported with
          | decoded hdecoded => rw [hresult] at hdecoded; cases hdecoded
          | damaged _ _ hbytes _ htail =>
            cases hbytes
            exact ⟨rfl, _, rfl, ih'.mp htail⟩
        · rintro ⟨rfl, rest, hsplit, htail⟩
          obtain rfl : _ = join parsed.packet ++ rest := hsplit
          exact .damaged hresult rfl rfl rfl (ih'.mpr htail)

theorem tiles_content {at_ bytes rest : Bytes} {actions : List Action} (h : at_ = bytes ++ rest) :
    Tiles (.content at_ bytes :: actions) at_ ↔ Tiles actions rest := by
  constructor
  · rintro ⟨-, rest', hsplit, htail⟩
    rw [h, Action.bytes, List.append_cancel_left_eq] at hsplit
    rwa [hsplit]
  · exact fun htail => ⟨rfl, rest, h, htail⟩

/-- The packet is cut short by its own length or by the end of input, after
more than its header was read. -/
def LosesRemainder (source : Bytes) : Prop :=
  5 < source.length ∧ ∃ length consumed, declaredLength source = some (length, consumed)
    ∧ (length < 6 ∨ source.length + 1 < length)

/-- The packet data and what is left unread are the bytes the parser was
given, except for a remainder that it read and dropped. -/
theorem parse_conserves (source : Bytes) :
    (¬ LosesRemainder source
        ∧ join (parse source).packet ++ (parse source).unread = signature :: source)
    ∨ (LosesRemainder source ∧ (parse source).unread = []
        ∧ (join (parse source).packet).length < source.length + 1) := by
  have hp := parse_cases source
  generalize parse source = r at hp
  cases hp with
  | shortHeader message h =>
    exact .inl ⟨fun hl => absurd hl.1 (by omega), by simp [join]⟩
  | longLength message h hd =>
    refine .inl ⟨?_, by simp [join, List.take_append_drop]⟩
    rintro ⟨-, length, consumed, hd', -⟩
    rw [hd] at hd'
    cases hd'
  | shortRemainder message length consumed h hd hlen =>
    rcases Nat.eq_or_lt_of_le h with h5 | h5
    · refine .inl ⟨fun hl => absurd hl.1 (by omega), ?_⟩
      rw [List.take_of_length_le (by omega)]
      simp [join]
    · refine .inr ⟨⟨h5, length, consumed, hd, hlen⟩, rfl, ?_⟩
      simp only [join, List.flatten_cons, List.flatten_nil, List.length_append,
        List.length_singleton, List.length_take, List.length_nil]
      omega
  | whole length consumed h hd hlow hhigh =>
    refine .inl ⟨?_, ?_⟩
    · rintro ⟨-, length', consumed', hd', hlen⟩
      rw [hd] at hd'
      cases hd'
      omega
    · rw [join_wholeResult_packet, wholeResult_unread, List.cons_append, List.take_append_drop]

/-- In state `s` a piece is cut after a signature byte that ended no character
it could be part of, and the run takes that byte up again. -/
def RepeatsSignature (polls : Polls) (s : RunState) : Prop :=
  let piece := textPiece polls s.codec 0 s.source
  piece.1.getLast? = some signature ∧ (s.codec.feedAll piece.1).midCharacter = false
    ∧ polls.cuts piece.1.length piece.2.length = true

/-- In state `s` the run comes to a packet, at once or after a piece of text;
`rest` is what follows its signature. -/
def ComesToPacket (polls : Polls) (s : RunState) (rest : Bytes) : Prop :=
  let piece := textPiece polls s.codec 0 s.source
  piece.2 = signature :: rest
    ∧ (piece.1 = [] ∨ polls.cuts piece.1.length (rest.length + 1) = false)

/-- A pass from `s` accounts for what it reads. -/
def Accounts (polls : Polls) (s : RunState) : Prop :=
  ¬ RepeatsSignature polls s ∧ ∀ rest, ComesToPacket polls s rest → ¬ LosesRemainder rest

section Accounts

variable {polls : Polls} {s : RunState} {piece rest : Bytes}

/-- At the end of input there is nothing to account for. -/
theorem accounts_nil (h : s.source = []) : Accounts polls s := by
  unfold Accounts RepeatsSignature ComesToPacket
  rw [h]
  refine ⟨?_, ?_⟩
  · rintro ⟨hlast, -⟩
    cases hlast
  · rintro rest ⟨hrest, -⟩
    cases hrest

/-- A piece that is cut elsewhere leads to no packet and repeats nothing. -/
theorem accounts_cut (h : textPiece polls s.codec 0 s.source = (piece, rest)) (hne : piece ≠ [])
    (hcut : polls.cuts piece.length rest.length = true)
    (hlast : (s.codec.feedAll piece).midCharacter = true ∨ piece.getLast? ≠ some signature) :
    Accounts polls s := by
  unfold Accounts RepeatsSignature ComesToPacket
  rw [h]
  refine ⟨?_, ?_⟩
  · rintro ⟨hsig, hmid, -⟩
    rcases hlast with hlast | hlast
    · rw [hlast] at hmid
      cases hmid
    · exact hlast hsig
  · rintro rest' ⟨hrest, hnil | hgo⟩
    · exact absurd hnil hne
    · simp only at hrest
      rw [hrest, List.length_cons, hgo] at hcut
      cases hcut

/-- At the end of input there is no packet. -/
theorem accounts_atEnd (h : textPiece polls s.codec 0 s.source = (piece, []))
    (hcut : polls.cuts piece.length 0 = false) : Accounts polls s := by
  unfold Accounts RepeatsSignature ComesToPacket
  rw [h]
  refine ⟨?_, ?_⟩
  · rintro ⟨-, -, hcut'⟩
    rw [List.length_nil, hcut] at hcut'
    cases hcut'
  · rintro rest' ⟨hrest, -⟩
    cases hrest

/-- A pass that comes to a packet accounts for what that packet reads. -/
theorem accounts_atPacket (h : textPiece polls s.codec 0 s.source = (piece, signature :: rest))
    (hcut : piece = [] ∨ polls.cuts piece.length (rest.length + 1) = false) :
    Accounts polls s ↔ ¬ LosesRemainder rest := by
  unfold Accounts RepeatsSignature ComesToPacket
  rw [h]
  constructor
  · exact fun hacc => hacc.2 rest ⟨rfl, hcut⟩
  · refine fun hkeeps => ⟨?_, ?_⟩
    · rintro ⟨hsig, -, hcut'⟩
      rcases hcut with rfl | hcut
      · cases hsig
      · rw [List.length_cons, hcut] at hcut'
        cases hcut'
    · rintro rest' ⟨hrest, -⟩
      cases hrest
      exact hkeeps

theorem not_accounts_repeated (h : textPiece polls s.codec 0 s.source = (piece, rest))
    (hcut : polls.cuts piece.length rest.length = true)
    (hmid : (s.codec.feedAll piece).midCharacter = false)
    (hlast : piece.getLast? = some signature) : ¬ Accounts polls s := by
  rintro ⟨hrepeats, -⟩
  refine hrepeats ?_
  unfold RepeatsSignature
  rw [h]
  exact ⟨hlast, hmid, hcut⟩

end Accounts

theorem tiles_packet {rest : Bytes} {actions : List Action}
    (hnil : (parse rest).unread = [] → actions = []) :
    Tiles (.packet (signature :: rest) (parse rest) :: actions) (signature :: rest)
      ↔ ¬ LosesRemainder rest ∧ Tiles actions (parse rest).unread := by
  rcases parse_conserves rest with ⟨hkeeps, hsplit⟩ | ⟨hloses, hunread, hlen⟩
  · constructor
    · rintro ⟨-, rest', hsplit', htail⟩
      rw [← hsplit, Action.bytes, List.append_cancel_left_eq] at hsplit'
      exact ⟨hkeeps, by rwa [hsplit']⟩
    · rintro ⟨-, htail⟩
      exact ⟨rfl, _, hsplit.symm, htail⟩
  · refine iff_of_false ?_ (fun h => h.1 hloses)
    rintro ⟨-, rest', hsplit', htail⟩
    rw [hnil hunread] at htail
    rw [show rest' = [] from htail, List.append_nil] at hsplit'
    have := congrArg List.length hsplit'
    rw [Action.bytes, List.length_cons] at this
    omega

section Tiling

variable {polls : Polls} {n : String}

theorem runLoop_nil (codec : Codec) :
    ((runLoop polls (some n)).run { codec, source := [] }).1 = [] := by
  have := runFrom_nil polls (some n) codec
  exact congrArg Prod.fst this

/-- After a packet the run accounts for the rest, or there is no rest. -/
theorem tiles_dispatch {codec : Codec} {rest : Bytes} :
    Tiles (.packet (signature :: rest) (parse rest)
        :: ((runLoop polls (some n)).run { codec, source := (parse rest).unread }).1)
      (signature :: rest)
      ↔ ¬ LosesRemainder rest
        ∧ Tiles ((runLoop polls (some n)).run { codec, source := (parse rest).unread }).1
          (parse rest).unread :=
  tiles_packet fun h => by rw [h]; exact runLoop_nil codec

/-- A pass that goes round accounts for what it reads, and the run from there
for the rest. -/
theorem tiles_again {s s' : RunState} (h : (runPass polls (some n) s).2 = .again s') :
    Tiles ((runPass polls (some n) s).1 ++ ((runLoop polls (some n)).run s').1) s.source
      ↔ Accounts polls s ∧ Tiles ((runLoop polls (some n)).run s').1 s'.source := by
  have hp := pass_cases polls (some n) s
  generalize runPass polls (some n) s = r at hp h
  cases hp with
  | stop hs => cases h
  | packet rest hs hmid =>
    have hpiece : textPiece polls s.codec 0 s.source = ([], signature :: rest) := by
      rw [hs, textPiece, Codec.starts_iff.mpr ⟨hmid, rfl⟩, Bool.or_true, if_pos rfl]
    rw [dispatch_again h, dispatch_fst, accounts_atPacket hpiece (.inl rfl), hs]
    exact tiles_dispatch
  | refused b hname => cases hname
  | cut piece rest hs hne hcut hlast =>
    cases h
    rw [List.singleton_append, tiles_content (textPiece_split hs)]
    exact (and_iff_right (accounts_cut hs hne hcut hlast)).symm
  | atEnd piece hs hne hcut =>
    cases h
    rw [List.singleton_append, tiles_content (textPiece_split hs)]
    exact (and_iff_right (accounts_atEnd hs hcut)).symm
  | atPacket piece rest hs hne hcut hmid =>
    rw [dispatch_again h, dispatch_fst, accounts_atPacket hs (.inr hcut), List.append_assoc,
      List.singleton_append, List.singleton_append, tiles_content (textPiece_split hs)]
    exact tiles_dispatch
  | repeated piece rest hs hcut hmid hlast =>
    rw [dispatch_fst, List.append_assoc, List.singleton_append, List.singleton_append,
      tiles_content (textPiece_split hs)]
    refine iff_of_false ?_ ?_
    · -- the packet begins before what the piece has left
      rintro ⟨hstart, -⟩
      have := congrArg List.length hstart
      rw [Action.start, List.length_cons] at this
      omega
    · intro hacc
      exact not_accounts_repeated hs hcut hmid hlast hacc.1

/-- A run that returns accounts for its input exactly when each pass does. -/
theorem tiles_iff (s : RunState) (h : ∃ t, ((runLoop polls (some n)).run s).2 = .ok t) :
    Tiles ((runLoop polls (some n)).run s).1 s.source
      ↔ ∀ t, Loop.Reaches (runLoop polls (some n)) s t → Accounts polls t := by
  refine Loop.run_iff_forall_reaches (P := fun s actions => Tiles actions s.source) ?_ ?_ h
  · intro s hs
    have hnil := source_of_stop hs
    have hpass : ((runLoop polls (some n)).body s).1 = [] := by
      rw [runLoop_body, runPass, hnil]
    rw [hpass]
    exact iff_of_true hnil (accounts_nil hnil)
  · intro s s' hs
    exact tiles_again hs

end Tiling

/-- A run that returns has let no packet through. -/
theorem raised_of_run_ok {polls : Polls} {name : Option String} {s t : RunState} {at_ : Bytes}
    {parsed : ParseResult} (h : ((runLoop polls name).run s).2 = .ok t)
    (hmem : .packet at_ parsed ∈ ((runLoop polls name).run s).1) : parsed.raised = none := by
  obtain ⟨u, hu, hmem⟩ := Loop.mem_run.mp hmem
  exact packet_of_pass hmem fun e he => (Loop.run_ok_iff _).mp ⟨t, h⟩ u hu e he

/-- **Conservation** holds of a run that returns exactly when no pass repeats a
signature or comes to a packet whose remainder is dropped. -/
theorem run_conserves_iff (polls : Polls) (n : String) (input : Bytes)
    (h : ∃ unread, (run polls (some n) input).result = .ok unread) :
    Conserves n (run polls (some n) input) input
      ↔ ∀ s, Loop.Reaches (runLoop polls (some n)) { source := input } s → Accounts polls s := by
  obtain ⟨unread, hreturns⟩ := h
  obtain ⟨t, ht⟩ := loop_of_run_ok hreturns
  have hpackets : ∀ at_ parsed, .packet at_ parsed ∈ (run polls (some n) input).actions →
      parsed.raised = none := fun at_ parsed hmem => raised_of_run_ok ht hmem
  exact (reported_iff_tiles n hpackets).trans (tiles_iff { source := input } ⟨t, ht⟩)

/-- Text, a packet, a character whose last octet is that of a signature, a packet with a bit of
its checksum wrong, a packet again, and one that the input ends in. -/
theorem run_conserves_text :
    let input := [0x41, 0x0A] ++ packetBytes passed ++ utf8Bytes "³"
      ++ [0xB3, 0x20, 0x00, 0x08, 0x00, 0x00, 0x00, 0x01] ++ packetBytes passed ++ [0xB3, 0x20]
    Conserves "stdout" (run inMemory (some "stdout") input) input
      ↔ ∀ s, Loop.Reaches (runLoop inMemory (some "stdout")) { source := input } s →
          Accounts inMemory s :=
  run_conserves_iff inMemory "stdout" _ ⟨[], by decide +kernel⟩

/-- The second byte of a superscript three is text and a signature. -/
theorem run_repeats_signature :
    (run inMemory (some "stdout") [0xC2, 0xB3]).result = .ok []
    ∧ ¬ Conserves "stdout" (run inMemory (some "stdout") [0xC2, 0xB3]) [0xC2, 0xB3] := by
  have hreturns : (run inMemory (some "stdout") [0xC2, 0xB3]).result = .ok [] := by decide +kernel
  have hbytes : (run inMemory (some "stdout") [0xC2, 0xB3]).actions.flatMap Action.bytes
      = [0xC2, 0xB3, 0xB3] := by decide +kernel
  obtain ⟨t, ht⟩ := loop_of_run_ok hreturns
  refine ⟨hreturns, fun h => ?_⟩
  have htiles := (reported_iff_tiles "stdout" fun at_ parsed hmem =>
    raised_of_run_ok ht hmem).mp h
  exact absurd (hbytes.symm.trans (Tiles.concat htiles)) (by decide)

end Pysubunit.V2
