/-
Pysubunit.V2.UnnamedTheorems — a reader that has no name for text.

Without a `non_subunit_name` the first byte between packets that is no signature ends the run. Up
to there the decoder of characters has not been asked, so a reader with a name has done the same:
`run_unnamed` reads the one off the other, whatever either is told when it polls its source, if
the sources answer the same reads alike.
-/
import Pysubunit.V2.Run

namespace Pysubunit.V2

open ByteLib

/-- `_parse_packet` is called. -/
def Action.isPacket : Action → Bool
  | .content _ _ => false
  | .packet _ _ => true

@[simp] theorem isPacket_content (at_ bytes : Bytes) :
    (Action.content at_ bytes).isPacket = false := rfl

@[simp] theorem isPacket_packet (at_ : Bytes) (parsed : ParseResult) :
    (Action.packet at_ parsed).isPacket = true := rfl

/-- The exception of a reader without a name, at the first text. -/
def Action.unnamed (action : Action) : Error := .nonSubunitContent (action.start.take 1)

/-- What is read of the same bytes without a name: the packets in front of the first text, and
then the exception, or the whole run. -/
def withoutName {α : Type} (named : List Action × Except Error α) : List Action × Except Error α :=
  (named.1.takeWhile Action.isPacket,
    match named.1.find? (!·.isPacket) with
    | some text => .error text.unnamed
    | none => named.2)

theorem withoutName_packet {α : Type} {at_ : Bytes} {parsed : ParseResult} (actions : List Action)
    (result : Except Error α) :
    withoutName (.packet at_ parsed :: actions, result)
      = (.packet at_ parsed :: (withoutName (actions, result)).1,
          (withoutName (actions, result)).2) := by
  simp [withoutName, List.takeWhile_cons]

section

variable (polls polls' : Polls) (n : String)

/-- A pass that meets text begins by emitting it. -/
theorem runPass_text {codec : Codec} {b : UInt8} {source : Bytes}
    (hb : ¬ (!codec.midCharacter && b == signature) = true) :
    ∃ piece tail, (runPass polls (some n) ⟨codec, b :: source⟩).1
      = .content (b :: source) piece :: tail := by
  simp only [runPass, hb]
  simp only [Bool.false_eq_true, if_false]
  split
  · exact ⟨_, [], rfl⟩
  · rw [dispatch_fst]
    exact ⟨_, _, rfl⟩

/-- **Where a character could begin**, the two readers go the same way until there is text. -/
theorem runLoop_unnamed (s : RunState) (hs : s.codec.midCharacter = false) :
    (runLoop polls' none).run s = withoutName ((runLoop polls (some n)).run s) := by
  induction s using (runLoop polls (some n)).induct with
  | h s ih =>
    obtain ⟨codec, source⟩ := s
    cases source with
    | nil =>
      have hnamed : (runPass polls (some n) ⟨codec, []⟩).2 = .stop := rfl
      have hunnamed : (runPass polls' none ⟨codec, []⟩).2 = .stop := rfl
      rw [Loop.run_stop (L := runLoop polls (some n)) hnamed,
        Loop.run_stop (L := runLoop polls' none) hunnamed]
      rfl
    | cons b source =>
      by_cases hb : (!codec.midCharacter && b == signature) = true
      · have hnamed : runPass polls (some n) ⟨codec, b :: source⟩ = dispatch [] codec source := by
          simp only [runPass, hb, if_true]
        have hunnamed : runPass polls' none ⟨codec, b :: source⟩ = dispatch [] codec source := by
          simp only [runPass, hb, if_true]
        have hfirst := dispatch_fst [] codec source
        cases hraised : (parse source).raised with
        | some e =>
          have hsecond : (dispatch [] codec source).2 = .raise e := by rw [dispatch_snd, hraised]
          have hraise : ((runLoop polls (some n)).body ⟨codec, b :: source⟩).2 = .raise e := by
            rw [runLoop_body, hnamed, hsecond]
          have hraise' : ((runLoop polls' none).body ⟨codec, b :: source⟩).2 = .raise e := by
            rw [runLoop_body, hunnamed, hsecond]
          rw [Loop.run_raise hraise, Loop.run_raise hraise', runLoop_body, runLoop_body, hnamed,
            hunnamed, hfirst]
          rfl
        | none =>
          have hsecond : (dispatch [] codec source).2
              = .again { codec, source := (parse source).unread } := by rw [dispatch_snd, hraised]
          have hagain : ((runLoop polls (some n)).body ⟨codec, b :: source⟩).2
              = .again { codec, source := (parse source).unread } := by
            rw [runLoop_body, hnamed, hsecond]
          have hagain' : ((runLoop polls' none).body ⟨codec, b :: source⟩).2
              = .again { codec, source := (parse source).unread } := by
            rw [runLoop_body, hunnamed, hsecond]
          rw [Loop.run_again hagain, Loop.run_again hagain', ih _ hagain hs, runLoop_body,
            runLoop_body, hnamed, hunnamed, hfirst]
          exact (withoutName_packet _ _).symm
      · have hraise : ((runLoop polls' none).body ⟨codec, b :: source⟩)
            = ([], .raise (.nonSubunitContent [b])) := by
          simp only [runLoop_body, runPass, hb]
          rfl
        obtain ⟨piece, tail, htext⟩ := runPass_text polls n hb
        obtain ⟨behind, hrun⟩ := (runLoop polls (some n)).body_prefix_run ⟨codec, b :: source⟩
        rw [runLoop_body, htext, List.cons_append] at hrun
        rw [Loop.run_raise (L := runLoop polls' none) (congrArg Prod.snd hraise), hraise,
          withoutName, ← hrun]
        rfl

/-- **A reader without a name for text.** Of sources that take a negative count for all that is left
(`sourceRead`), whatever they hold and however the two are polled: it parses the packets that a
reader with a name parses before it comes to text, with the same outcome of the run if it never
does, and otherwise raises with the first byte of that text. -/
theorem run_unnamed (input : Bytes) :
    let named := run polls (some n) input
    let unnamed := run polls' none input
    unnamed.actions = named.actions.takeWhile Action.isPacket
    ∧ unnamed.result = match named.actions.find? (!·.isPacket) with
        | some text => .error text.unnamed
        | none => named.result := by
  have hrun := runLoop_unnamed polls polls' n { source := input } rfl
  intro named unnamed
  have hactions : named.actions = ((runLoop polls (some n)).run { source := input }).1 := rfl
  have hresult : unnamed.result
      = (withoutName ((runLoop polls (some n)).run { source := input })).2.map (·.source) :=
    congrArg (fun r => r.2.map (·.source)) hrun
  refine ⟨congrArg Prod.fst hrun, ?_⟩
  rw [hresult, withoutName, hactions]
  cases ((runLoop polls (some n)).run { source := input }).1.find? (!·.isPacket) <;> rfl

end

end Pysubunit.V2
