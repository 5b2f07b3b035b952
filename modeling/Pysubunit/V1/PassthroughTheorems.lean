/-
Pysubunit.V1.PassthroughTheorems — which stream gets which lines.

A server writes to two streams: the lines it acts on are forwarded, the others
are passed through. `due` says which stream each line of a run is due to, and
`lines_partition_iff` that every line gets there, once and in its place, but for
the progress directives, which are written nowhere. What a handler may write is
said once for each of them; `writes_command` puts these together for the states
outside a region.
-/
import Pysubunit.V1.LineTheorems

namespace Pysubunit.V1

open ByteLib

/-! ## The two streams -/

/-- The streams of a server. -/
inductive Stream where
  | forward
  | passthrough
  deriving DecidableEq, Repr

/-- What is written to the streams. -/
def writes (outputs : List Output) : List (Stream × Bytes) :=
  outputs.filterMap fun
    | .subunit line => some (.forward, line)
    | .stdOut line => some (.passthrough, line)
    | .call _ => none
    | .lostNone _ => none

@[simp] theorem writes_append (os os' : List Output) :
    writes (os ++ os') = writes os ++ writes os' := List.filterMap_append

/-- A state that reads details. -/
def State.inRegion : State → Bool
  | .readingDetails _ _ => true
  | _ => false

section Lines

variable (parseDate : Bytes → Except Error DateTime) (s : Server) (line : Bytes)

/-- The line is acted on: it belongs to a details region, the client is called,
or the server is no longer what it was. -/
def ActedOn : Prop :=
  s.state.inRegion = true ∨ received (s.lineReceived parseDate line).outputs ≠ []
    ∨ (s.lineReceived parseDate line).server ≠ s

instance : Decidable (ActedOn parseDate s line) := inferInstanceAs (Decidable (_ ∨ _ ∨ _))

/-- The stream that a line is due to. -/
def streamOf : Stream := if ActedOn parseDate s line then .forward else .passthrough

/-- A progress directive that is read as one. -/
def ProgressLine : Prop :=
  s.state.inRegion = false ∧ ∃ offset, directive line = some (.progress, offset)

/-- Each line of a run with the stream that it is due to. -/
def due : Server → List Bytes → List (Stream × Bytes)
  | _, [] => []
  | s, line :: lines =>
    (streamOf parseDate s line, line) :: due (s.lineReceived parseDate line).server lines

/-- Every line is written unchanged, once, in its place and to the stream that
it is due to; the two streams merged are the input. -/
structure Partitioned (s : Server) (lines : List Bytes) : Prop where
  streams : writes (s.linesReceived parseDate lines).outputs = due parseDate s lines
  merged : (writes (s.linesReceived parseDate lines).outputs).map (·.2) = lines

variable {parseDate s line}

theorem streamOf_passthrough (h : s.lineReceived parseDate line = s.stdOutLineReceived line)
    (hs : s.state.inRegion = false) : streamOf parseDate s line = .passthrough := by
  refine if_neg ?_
  unfold ActedOn
  rw [h, hs]
  simp [Server.stdOutLineReceived, received]

theorem streamOf_called {call : Call} (h : .call call ∈ (s.lineReceived parseDate line).outputs) :
    streamOf parseDate s line = .forward := by
  refine if_pos (.inr (.inl ?_))
  exact List.ne_nil_of_mem (List.mem_filterMap.mpr ⟨_, h, rfl⟩)

theorem streamOf_changed (h : (s.lineReceived parseDate line).server.state ≠ s.state) :
    streamOf parseDate s line = .forward :=
  if_pos (.inr (.inr fun heq => h (congrArg Server.state heq)))

theorem writes_onCurrentTest (call : RemotedTestCase → Call) : writes (s.onCurrentTest call) = [] := by
  unfold Server.onCurrentTest
  cases s.currentTest <;> rfl

/-- Outside a region a line is looked at for a command. -/
theorem lineReceived_outside_region (hs : s.state.inRegion = false) :
    s.lineReceived parseDate line
      = s.commandReceived parseDate (decide (s.state = .inTest)) line := by
  unfold Server.lineReceived
  cases hstate : s.state with
  | readingDetails label p =>
    rw [hstate] at hs
    cases hs
  | outsideTest => rfl
  | inTest => rfl

/-- A progress directive is written nowhere. -/
theorem writes_progress (h : ProgressLine s line) :
    writes (s.lineReceived parseDate line).outputs = [] := by
  obtain ⟨hs, offset, hd⟩ := h
  rw [lineReceived_outside_region hs, Server.commandReceived, hd]
  simp only [Server.handleProgress]
  split <;> rfl

/-- A line in a details region is forwarded. -/
theorem writes_region {label : Outcome} {p : DetailsParser}
    (hs : s.state = .readingDetails label p)
    (hok : (s.lineReceived parseDate line).raised = none) :
    writes (s.lineReceived parseDate line).outputs = [(streamOf parseDate s line, line)] := by
  have hstream : streamOf parseDate s line = .forward := if_pos (.inl (by rw [hs]; rfl))
  have hline : s.lineReceived parseDate line = s.detailsLineReceived label p line := by
    rw [Server.lineReceived, hs]
  rw [hstream]
  rw [hline] at hok ⊢
  unfold Server.detailsLineReceived at hok ⊢
  rcases hp : p.lineReceived line with ⟨p', result⟩
  rw [hp] at hok
  cases result with
  | error e => cases hok
  | ok ended =>
    cases ended with
    | false => rfl
    | true =>
      simp only [Server.endDetails, writes_append, writes_onCurrentTest]
      rfl

/-- A line that is passed through. -/
theorem writes_stdOut (hs : s.state.inRegion = false)
    (h : s.lineReceived parseDate line = s.stdOutLineReceived line) :
    writes (s.lineReceived parseDate line).outputs = [(streamOf parseDate s line, line)] := by
  rw [streamOf_passthrough h hs, h]
  rfl

/-- A line that is forwarded and leaves another state behind. -/
theorem writes_forward (hstate : (s.lineReceived parseDate line).server.state ≠ s.state)
    (h : writes (s.lineReceived parseDate line).outputs = [(.forward, line)]) :
    writes (s.lineReceived parseDate line).outputs = [(streamOf parseDate s line, line)] := by
  rw [streamOf_changed hstate, h]

/-- An outcome directive is passed through, or forwarded out of the test. -/
theorem outcome_passes_or_leaves {label : Outcome} {offset : Nat}
    (hok : (s.outcome label offset line).raised = none) :
    s.outcome label offset line = s.stdOutLineReceived line
      ∨ ((s.outcome label offset line).server.state ≠ .inTest
        ∧ writes (s.outcome label offset line).outputs = [(.forward, line)]) := by
  unfold Server.outcome at hok ⊢
  cases ht : decodeLine (line.drop offset) with
  | error e =>
    rw [ht] at hok
    cases hok
  | ok text =>
    cases hdescription : s.currentTestDescription with
    | unset =>
      rw [ht, hdescription] at hok
      cases hok
    | none =>
      rw [ht, hdescription] at hok
      cases hok
    | some description =>
      dsimp only
      split
      · refine .inr ⟨by simp, ?_⟩
        simp only [writes_append, writes_onCurrentTest]
        rfl
      · split
        · exact .inr ⟨by simp, rfl⟩
        · split
          · exact .inr ⟨by simp, rfl⟩
          · exact .inl rfl

/-- A line that is forwarded after a call. -/
theorem writes_called
    (h : ∃ call, (s.lineReceived parseDate line).outputs = [.call call, .subunit line]) :
    writes (s.lineReceived parseDate line).outputs = [(streamOf parseDate s line, line)] := by
  obtain ⟨call, houtputs⟩ := h
  have hcalled : .call call ∈ (s.lineReceived parseDate line).outputs := by
    rw [houtputs]
    exact List.mem_cons_self
  rw [streamOf_called hcalled, houtputs]
  rfl

theorem handleTags_calls {offset : Nat} (hok : (s.handleTags offset line).raised = none) :
    ∃ call, (s.handleTags offset line).outputs = [.call call, .subunit line] := by
  unfold Server.handleTags at hok ⊢
  split at hok
  · cases hok
  · exact ⟨_, rfl⟩

theorem handleTime_calls {offset : Nat}
    (hok : (s.handleTime parseDate offset line).raised = none) :
    ∃ call, (s.handleTime parseDate offset line).outputs = [.call call, .subunit line] := by
  unfold Server.handleTime at hok ⊢
  split at hok
  · cases hok
  · cases hok
  · cases hok
  · exact ⟨_, rfl⟩

theorem startTest_calls {offset : Nat} (hok : (s.startTest offset line).raised = none) :
    ∃ call, (s.startTest offset line).outputs = [.call call, .subunit line] := by
  unfold Server.startTest at hok ⊢
  split at hok
  · cases hok
  · exact ⟨_, rfl⟩

theorem writes_outcome {label : Outcome} {offset : Nat} (hs : s.state = .inTest)
    (hline : s.lineReceived parseDate line = s.outcome label offset line)
    (hok : (s.lineReceived parseDate line).raised = none) :
    writes (s.lineReceived parseDate line).outputs = [(streamOf parseDate s line, line)] := by
  rw [hline] at hok
  rcases outcome_passes_or_leaves hok with hpassed | ⟨hstate, hwrites⟩
  · exact writes_stdOut (by rw [hs]; rfl) (hline.trans hpassed)
  · rw [← hline, ← hs] at hstate
    rw [← hline] at hwrites
    exact writes_forward hstate hwrites

/-- Outside a region, any other line is written once, to the stream that it is
due to. -/
theorem writes_command (hs : s.state.inRegion = false) (hno : ¬ ProgressLine s line)
    (hok : (s.lineReceived parseDate line).raised = none) :
    writes (s.lineReceived parseDate line).outputs = [(streamOf parseDate s line, line)] := by
  have hline := @lineReceived_outside_region parseDate s line hs
  unfold Server.commandReceived at hline
  cases hd : directive line with
  | none =>
    rw [hd] at hline
    exact writes_stdOut hs hline
  | some d =>
    obtain ⟨command, offset⟩ := d
    rw [hd] at hline
    cases command with
    | progress => exact absurd ⟨hs, offset, hd⟩ hno
    | tags =>
      dsimp only at hline
      rw [hline] at hok
      exact writes_called (hline ▸ handleTags_calls hok)
    | time =>
      dsimp only at hline
      rw [hline] at hok
      exact writes_called (hline ▸ handleTime_calls hok)
    | startTest =>
      cases hstate : s.state with
      | readingDetails label p =>
        rw [hstate] at hs
        cases hs
      | inTest =>
        rw [hstate] at hline
        exact writes_stdOut hs hline
      | outsideTest =>
        simp only [hstate, reduceCtorEq, decide_false, Bool.false_eq_true, if_false] at hline
        rw [hline] at hok
        exact writes_called (hline ▸ startTest_calls hok)
    | outcome label =>
      cases hstate : s.state with
      | readingDetails label p =>
        rw [hstate] at hs
        cases hs
      | inTest =>
        rw [hstate] at hline
        exact writes_outcome hstate hline hok
      | outsideTest =>
        rw [hstate] at hline
        simp only [decide_false, Bool.false_eq_true, if_false, reduceCtorEq] at hline
        split at hline
        · rw [hline] at hok
          cases hok
        · exact writes_stdOut hs hline

/-! ## Runs -/

/-- One line of a run. -/
theorem writes_line (hno : ¬ ProgressLine s line)
    (hok : (s.lineReceived parseDate line).raised = none) :
    writes (s.lineReceived parseDate line).outputs = [(streamOf parseDate s line, line)] := by
  cases hs : s.state with
  | readingDetails label p => exact writes_region hs hok
  | outsideTest => exact writes_command (by rw [hs]; rfl) hno hok
  | inTest => exact writes_command (by rw [hs]; rfl) hno hok

variable (parseDate)

/-- No more is written than there are lines. -/
theorem length_writes_le (s : Server) {lines : List Bytes}
    (hok : (s.linesReceived parseDate lines).raised = none) :
    (writes (s.linesReceived parseDate lines).outputs).length ≤ lines.length := by
  induction lines generalizing s with
  | nil => exact Nat.le_refl _
  | cons line lines ih =>
    obtain ⟨hfirst, hrun⟩ := linesReceived_cons parseDate hok
    rw [hrun] at hok ⊢
    have hrest := ih _ hok
    rw [writes_append, List.length_append, List.length_cons]
    by_cases hprogress : ProgressLine s line
    · rw [writes_progress hprogress, List.length_nil]
      omega
    · rw [writes_line hprogress hfirst, List.length_singleton]
      omega

/-- A line is written and the lines after it are, or the line is lost. -/
theorem partitioned_cons {s : Server} {line : Bytes} {lines : List Bytes}
    (hok : (s.linesReceived parseDate (line :: lines)).raised = none) :
    Partitioned parseDate s (line :: lines)
      ↔ ¬ ProgressLine s line
        ∧ Partitioned parseDate (s.lineReceived parseDate line).server lines := by
  obtain ⟨hfirst, hrun⟩ := linesReceived_cons parseDate hok
  have hrest := hok
  rw [hrun] at hrest
  constructor
  · rintro ⟨hstreams, hmerged⟩
    rw [hrun] at hstreams hmerged
    rw [writes_append] at hstreams hmerged
    by_cases hprogress : ProgressLine s line
    · -- One write too few for so many lines.
      rw [writes_progress hprogress, List.nil_append] at hmerged
      have hlen := length_writes_le parseDate _ hrest
      have hall := congrArg List.length hmerged
      rw [List.length_map, List.length_cons] at hall
      omega
    · rw [writes_line hprogress hfirst, List.singleton_append] at hstreams hmerged
      exact ⟨hprogress, (List.cons.inj hstreams).2, (List.cons.inj hmerged).2⟩
  · rintro ⟨hprogress, hstreams, hmerged⟩
    constructor
    · rw [hrun, writes_append, writes_line hprogress hfirst, hstreams]
      rfl
    · rw [hrun, writes_append, writes_line hprogress hfirst, List.map_append, hmerged]
      rfl

/-- What is said of every line of a run, with the server that receives it. -/
theorem forall_received_cons {P : Server → Bytes → Prop} {s : Server} {line : Bytes}
    {lines : List Bytes} (hfirst : (s.lineReceived parseDate line).raised = none) :
    (∀ before l after, line :: lines = before ++ l :: after →
        P (s.linesReceived parseDate before).server l)
      ↔ P s line ∧ ∀ before l after, lines = before ++ l :: after →
        P ((s.lineReceived parseDate line).server.linesReceived parseDate before).server l := by
  have hserver : ∀ before, (s.linesReceived parseDate (line :: before)).server
      = ((s.lineReceived parseDate line).server.linesReceived parseDate before).server := by
    intro before
    rw [Server.linesReceived, hfirst]
  constructor
  · intro hall
    refine ⟨hall [] line lines rfl, ?_⟩
    intro before l after hsplit
    have := hall (line :: before) l after (by rw [hsplit]; rfl)
    rwa [hserver] at this
  · rintro ⟨hline, hlines⟩ before l after hsplit
    cases before with
    | nil =>
      obtain ⟨rfl, -⟩ := List.cons.inj hsplit
      exact hline
    | cons line' before =>
      obtain ⟨rfl, hrest⟩ := List.cons.inj hsplit
      rw [hserver]
      exact hlines before l after hrest

/-- **Partition.** Of a run that does not raise, every line is written once, in
its place and to the stream that it is due to, exactly when none of its lines is
read as a progress directive. -/
theorem lines_partition_iff (s : Server) (lines : List Bytes)
    (h : (s.linesReceived parseDate lines).raised = none) :
    Partitioned parseDate s lines
      ↔ ∀ before line after, lines = before ++ line :: after →
          ¬ ProgressLine (s.linesReceived parseDate before).server line := by
  induction lines generalizing s with
  | nil => exact iff_of_true ⟨rfl, rfl⟩ fun before line after hsplit => by simp at hsplit
  | cons line lines ih =>
    obtain ⟨hfirst, hrun⟩ := linesReceived_cons parseDate h
    have hrest := h
    rw [hrun] at hrest
    rw [partitioned_cons parseDate h, ih _ hrest]
    exact (forall_received_cons parseDate (P := fun s line => ¬ ProgressLine s line) hfirst).symm

end Lines

/-- A test and its success. -/
theorem lines_partition_test :
    Partitioned (fun _ => .error .other) {} [ascii "test: a\n", ascii "success: a\n"]
      ↔ ∀ before line after, [ascii "test: a\n", ascii "success: a\n"] = before ++ line :: after →
          ¬ ProgressLine (Server.linesReceived (fun _ => .error .other) {} before).server line :=
  lines_partition_iff (fun _ => .error .other) {} [ascii "test: a\n", ascii "success: a\n"]
    (by decide +kernel)

/-- A progress directive is acted on and lost. -/
theorem lines_lose_progress :
    (Server.linesReceived (fun _ => .error .other) {} [ascii "progress: +1\n"]).raised = none
    ∧ ¬ Partitioned (fun _ => .error .other) {} [ascii "progress: +1\n"] := by
  refine ⟨by decide +kernel, fun h => ?_⟩
  have hwrites : writes (Server.linesReceived (fun _ => .error .other) {}
      [ascii "progress: +1\n"]).outputs = [] := by decide +kernel
  have hmerged := h.merged
  rw [hwrites] at hmerged
  cases hmerged

end Pysubunit.V1
