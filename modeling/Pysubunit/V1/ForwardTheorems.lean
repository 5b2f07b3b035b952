/-
Pysubunit.V1.ForwardTheorems — a stream that was forwarded, read again.

What a server forwards is itself a stream of the protocol. `line_replays` says of one line
that it is forwarded with everything it does, or does nothing that a client could miss but
for a progress call, and leaves the server as it was. From it `lines_replay` follows for the
lines of a run, and `readFrom_forwarded` for the bytes: the forwarded stream makes the calls
of the original, in order, up to the end of the connection.
-/
import Pysubunit.V1.PassthroughTheorems

namespace Pysubunit.V1

open ByteLib

/-! ## What is left in a forwarded stream -/

/-- The lines that are forwarded. -/
def forwardedLines (outputs : List Output) : List Bytes :=
  outputs.filterMap fun
    | .subunit line => some line
    | _ => none

@[simp] theorem forwardedLines_append (os os' : List Output) :
    forwardedLines (os ++ os') = forwardedLines os ++ forwardedLines os' := List.filterMap_append

@[simp] theorem forwardedLines_subunit (line : Bytes) :
    forwardedLines [.subunit line] = [line] := rfl

/-- What a forwarded stream does again: all but the lines that are passed through and the
progress calls. -/
def replayed : Output → Bool
  | .stdOut _ => false
  | .call (.progress _ _) => false
  | _ => true

theorem forwardedLines_replayed (outputs : List Output) :
    forwardedLines (outputs.filter replayed) = forwardedLines outputs := by
  induction outputs with
  | nil => rfl
  | cons output outputs ih =>
    rw [List.filter_cons]
    split
    · rw [← List.singleton_append, forwardedLines_append, ih, ← forwardedLines_append,
        List.singleton_append]
    · rename_i hdropped
      rw [ih]
      cases output with
      | subunit line => exact absurd rfl hdropped
      | stdOut line => rfl
      | call call => rfl
      | lostNone description => rfl

/-- The line is forwarded with all that it does, or there is nothing to do again. -/
inductive Replays (s : Server) (line : Bytes) (e : Effect) : Prop where
  | kept (hlines : forwardedLines e.outputs = [line]) (hall : e.outputs.filter replayed = e.outputs)
  | skipped (hserver : e.server = s) (hlines : forwardedLines e.outputs = [])
      (hnone : e.outputs.filter replayed = [])

section Lines

variable (parseDate : Bytes → Except Error DateTime) {s : Server} {line : Bytes}

@[simp] theorem forwardedLines_onCurrentTest (call : RemotedTestCase → Call) :
    forwardedLines (s.onCurrentTest call) = [] := by
  unfold Server.onCurrentTest
  cases s.currentTest <;> rfl

theorem replayed_onCurrentTest {call : RemotedTestCase → Call}
    (h : ∀ test, replayed (.call (call test)) = true) :
    (s.onCurrentTest call).filter replayed = s.onCurrentTest call := by
  unfold Server.onCurrentTest
  cases s.currentTest with
  | none => rfl
  | some test => simp [h]

/-- A report is made again. -/
theorem replayed_report (label : Outcome) (details : Option Details) (line : Bytes) :
    (s.onCurrentTest (.outcome label · details) ++ s.onCurrentTest .stopTest
        ++ [Output.subunit line]).filter replayed
      = s.onCurrentTest (.outcome label · details) ++ s.onCurrentTest .stopTest
        ++ [Output.subunit line] := by
  rw [List.filter_append, List.filter_append, replayed_onCurrentTest fun _ => rfl,
    replayed_onCurrentTest fun _ => rfl]
  rfl

theorem stdOut_replays (s : Server) (line : Bytes) : Replays s line (s.stdOutLineReceived line) :=
  .skipped rfl rfl rfl

theorem called_replays {call : Call} {e : Effect}
    (houtputs : e.outputs = [.call call, .subunit line])
    (hcall : replayed (.call call) = true) : Replays s line e := by
  refine .kept ?_ ?_
  · rw [houtputs]
    rfl
  · rw [houtputs, List.filter_cons_of_pos hcall]
    rfl

theorem handleProgress_replays {offset : Nat} (hok : (s.handleProgress offset line).raised = none) :
    Replays s line (s.handleProgress offset line) := by
  unfold Server.handleProgress at hok ⊢
  split at hok
  · cases hok
  · exact .skipped rfl rfl rfl

theorem handleTags_replays {offset : Nat} (hok : (s.handleTags offset line).raised = none) :
    Replays s line (s.handleTags offset line) := by
  unfold Server.handleTags at hok ⊢
  split at hok
  · cases hok
  · exact called_replays rfl rfl

theorem handleTime_replays {offset : Nat}
    (hok : (s.handleTime parseDate offset line).raised = none) :
    Replays s line (s.handleTime parseDate offset line) := by
  unfold Server.handleTime at hok ⊢
  split at hok
  · cases hok
  · cases hok
  · cases hok
  · exact called_replays rfl rfl

theorem startTest_replays {offset : Nat} (hok : (s.startTest offset line).raised = none) :
    Replays s line (s.startTest offset line) := by
  unfold Server.startTest at hok ⊢
  split at hok
  · cases hok
  · exact called_replays rfl rfl

theorem outcome_replays {label : Outcome} {offset : Nat}
    (hok : (s.outcome label offset line).raised = none) :
    Replays s line (s.outcome label offset line) := by
  unfold Server.outcome at hok ⊢
  cases htext : decodeLine (line.drop offset) with
  | error e =>
    rw [htext] at hok
    cases hok
  | ok text =>
    cases hdescription : s.currentTestDescription with
    | unset =>
      rw [htext, hdescription] at hok
      cases hok
    | none =>
      rw [htext, hdescription] at hok
      cases hok
    | some description =>
      dsimp only
      split
      · exact .kept (by simp) (replayed_report label _ line)
      · split
        · exact .kept rfl rfl
        · split
          · exact .kept rfl rfl
          · exact stdOut_replays s line

theorem region_replays {label : Outcome} {p : DetailsParser}
    (hok : (s.detailsLineReceived label p line).raised = none) :
    Replays s line (s.detailsLineReceived label p line) := by
  unfold Server.detailsLineReceived at hok ⊢
  rcases hp : p.lineReceived line with ⟨p', result⟩
  rw [hp] at hok
  cases result with
  | error e => cases hok
  | ok ended =>
    cases ended with
    | false => exact .kept rfl rfl
    | true => exact .kept (by simp [Server.endDetails]) (replayed_report label _ line)

theorem command_replays {inTest : Bool}
    (hok : (s.commandReceived parseDate inTest line).raised = none) :
    Replays s line (s.commandReceived parseDate inTest line) := by
  unfold Server.commandReceived at hok ⊢
  cases hd : directive line with
  | none => exact stdOut_replays s line
  | some d =>
    obtain ⟨command, offset⟩ := d
    rw [hd] at hok
    cases command with
    | startTest =>
      cases inTest with
      | true => exact stdOut_replays s line
      | false => exact startTest_replays hok
    | outcome label =>
      cases inTest with
      | true => exact outcome_replays hok
      | false =>
        simp only [Bool.false_eq_true, if_false] at hok ⊢
        split at hok
        · cases hok
        · rename_i hlabel
          rw [if_neg hlabel]
          exact stdOut_replays s line
    | progress => exact handleProgress_replays hok
    | tags => exact handleTags_replays hok
    | time => exact handleTime_replays parseDate hok

/-- **One line**, read in any state. -/
theorem line_replays (hok : (s.lineReceived parseDate line).raised = none) :
    Replays s line (s.lineReceived parseDate line) := by
  unfold Server.lineReceived at hok ⊢
  cases hs : s.state with
  | outsideTest =>
    rw [hs] at hok
    exact command_replays parseDate hok
  | inTest =>
    rw [hs] at hok
    exact command_replays parseDate hok
  | readingDetails label p =>
    rw [hs] at hok
    exact region_replays hok

/-- **The lines of a run** that are forwarded do again what the run did. -/
theorem lines_replay {lines : List Bytes} (hok : (s.linesReceived parseDate lines).raised = none) :
    s.linesReceived parseDate (forwardedLines (s.linesReceived parseDate lines).outputs)
      = { s.linesReceived parseDate lines with
          outputs := (s.linesReceived parseDate lines).outputs.filter replayed } := by
  induction lines generalizing s with
  | nil => rfl
  | cons line lines ih =>
    obtain ⟨hfirst, hrun⟩ := linesReceived_cons parseDate hok
    have hrest := hok
    rw [hrun] at hrest
    rw [hrun]
    simp only [forwardedLines_append, List.filter_append]
    cases line_replays parseDate hfirst with
    | kept hlines hall =>
      rw [hlines, hall, List.singleton_append, Server.linesReceived, hfirst]
      simp [ih hrest]
    | skipped hserver hlines hnone =>
      rw [hlines, hnone, List.nil_append, List.nil_append]
      rw [hserver] at hrest ⊢
      exact ih hrest

theorem forwardedLines_sublist {lines : List Bytes}
    (hok : (s.linesReceived parseDate lines).raised = none) :
    (forwardedLines (s.linesReceived parseDate lines).outputs).Sublist lines := by
  induction lines generalizing s with
  | nil => simp [Server.linesReceived, forwardedLines]
  | cons line lines ih =>
    obtain ⟨hfirst, hrun⟩ := linesReceived_cons parseDate hok
    have hrest := hok
    rw [hrun] at hrest
    rw [hrun, forwardedLines_append]
    cases line_replays parseDate hfirst with
    | kept hlines _ =>
      rw [hlines]
      exact (ih hrest).cons_cons line
    | skipped _ hlines _ =>
      rw [hlines]
      exact (ih hrest).cons line

end Lines

/-! ## Streams -/

/-- What is written to the stream that is forwarded to. -/
def forwardedBytes (outputs : List Output) : Bytes := (forwardedLines outputs).flatten

theorem lostConnectionInTest_replays (s : Server) (stateString : String) :
    forwardedLines (s.lostConnectionInTest stateString).outputs = []
      ∧ (s.lostConnectionInTest stateString).outputs.filter replayed
        = (s.lostConnectionInTest stateString).outputs := by
  have htest : ∀ description, forwardedLines (s.lostTest stateString description).outputs = []
      ∧ (s.lostTest stateString description).outputs.filter replayed
        = (s.lostTest stateString description).outputs := by
    intro description
    unfold Server.lostTest
    cases s.currentTest <;> exact ⟨rfl, rfl⟩
  unfold Server.lostConnectionInTest
  cases s.currentTestDescription with
  | unset => exact ⟨rfl, rfl⟩
  | none => exact htest "None"
  | some description => exact htest description

theorem lostConnection_replays (s : Server) :
    forwardedLines s.lostConnection.outputs = []
      ∧ s.lostConnection.outputs.filter replayed = s.lostConnection.outputs := by
  unfold Server.lostConnection
  cases s.state with
  | outsideTest => exact ⟨rfl, rfl⟩
  | inTest => exact lostConnectionInTest_replays s _
  | readingDetails label p => exact lostConnectionInTest_replays s _

/-- **A forwarded stream stands for the original.** For every stream whose lines do not raise,
what a server forwards of it, read by a server like it, makes the same calls in the same order,
progress apart, with the same outcome for a test that is cut off; it passes nothing through, and
is itself forwarded byte for byte. -/
theorem readFrom_forwarded (parseDate : Bytes → Except Error DateTime) (s : Server) (pipe : Bytes)
    (h : (s.linesReceived parseDate (lines pipe)).raised = none) :
    let original := s.readFrom parseDate pipe
    let again := s.readFrom parseDate (forwardedBytes original.outputs)
    again = { original with outputs := original.outputs.filter replayed }
    ∧ forwardedBytes again.outputs = forwardedBytes original.outputs := by
  intro original again
  set read := s.linesReceived parseDate (lines pipe) with hread
  obtain ⟨hlost, hlost'⟩ := lostConnection_replays read.server
  have horiginal : original = { read.server.lostConnection with
      outputs := read.outputs ++ read.server.lostConnection.outputs } := readFrom_eq parseDate h
  have hlines : lines (forwardedBytes original.outputs) = forwardedLines read.outputs := by
    rw [horiginal, forwardedBytes, forwardedLines_append, hlost, List.append_nil]
    exact lines_flatten_sublist (forwardedLines_sublist parseDate h) (by rw [lines_flatten])
  have hreplay := lines_replay parseDate h
  have hagain : again = { original with outputs := original.outputs.filter replayed } := by
    have hok : (s.linesReceived parseDate (lines (forwardedBytes original.outputs))).raised
        = none := by
      rw [hlines, hreplay]
      exact h
    show s.readFrom parseDate _ = _
    rw [readFrom_eq parseDate hok, hlines, hreplay, horiginal, ← hread]
    simp [hlost']
  refine ⟨hagain, ?_⟩
  rw [hagain, forwardedBytes, forwardedLines_replayed, ← forwardedBytes]

/-- Text, a test with text inside it, and progress. -/
theorem readFrom_forwarded_session :
    let original := Server.readFrom (fun _ => .error .other) {}
      (ascii "junk\ntest: a\nprogress: +1\nmore\nerror: a [\nbad\n]\ntesting b")
    let again := Server.readFrom (fun _ => .error .other) {} (forwardedBytes original.outputs)
    again = { original with outputs := original.outputs.filter replayed }
    ∧ forwardedBytes again.outputs = forwardedBytes original.outputs :=
  readFrom_forwarded (fun _ => .error .other) {} _ (by decide +kernel)

end Pysubunit.V1
