/-
Pysubunit.V1.BracketTheorems — the calls a client receives come in brackets.

Beside tags, times and progress, a server makes three kinds of call: a test is
started, it has an outcome, it is stopped. `startTest`, the outcomes and
`stopTest` are the bracket calls. A `Life` is what the input says of one test:
its lines, each with the bracket calls made while it was read, from the end of
the test before it to its report. The constructors of `Reports` are the only
ways to get an outcome, so a life carries the line that caused it, and it is the
first that could: the lines in front of the test start none (`StartsNone`), and
those inside it say nothing of its outcome (`ReportsNone`).

Three lemmas say what one line does in each kind of state (`outside_step`,
`inTest_step`, `details_step`). From them `Told.step` adds a line to a trace
that is a list of lives and the beginning of one more, and `told_lines` takes
this along a run.
-/
import Pysubunit.V1.Server

namespace Pysubunit.V1

open ByteLib

/-! ## Bracket calls -/

/-- The bracket call that an output is, if it is one. -/
def bracketOf : Output → Option Call
  | .call (.startTest test) => some (.startTest test)
  | .call (.outcome outcome test details) => some (.outcome outcome test details)
  | .call (.remoteError test description) => some (.remoteError test description)
  | .call (.stopTest test) => some (.stopTest test)
  | _ => none

/-- The calls that a client receives, apart from tags, times and progress. -/
def brackets (outputs : List Output) : List Call := outputs.filterMap bracketOf

@[simp] theorem brackets_nil : brackets [] = [] := rfl

@[simp] theorem brackets_append (os os' : List Output) :
    brackets (os ++ os') = brackets os ++ brackets os' := List.filterMap_append

/-! ## What a line says -/

/-- The command of a directive line, and its text: what stands behind the
first word and one separator, up to the last byte. -/
def lineSays (line : Bytes) : Option (Command × String) :=
  match directive line with
  | some (command, offset) =>
    (Utf8.decodeString (dropLastBytes (line.drop offset) 1)).map fun text => (command, text)
  | none => none

theorem decodeLine_says {line : Bytes} {command : Command} {offset : Nat} {text : String}
    (h : directive line = some (command, offset)) (ht : decodeLine (line.drop offset) = .ok text) :
    lineSays line = some (command, text) := by
  unfold decodeLine at ht
  unfold lineSays
  rw [h]
  cases hd : Utf8.decodeString (dropLastBytes (line.drop offset) 1) with
  | none => rw [hd] at ht; cases ht
  | some t =>
    rw [hd] at ht
    cases ht
    simp [hd]

/-- What a line says stands behind its first word and one separator, up to the
last byte. -/
theorem lineSays_splits {line : Bytes} {command : Command} {text : String}
    (h : lineSays line = some (command, text)) :
    ∃ first sep said last, line = first ++ sep :: (said ++ [last])
      ∧ commandOf (first.rdropWhile fun b => b == 58) = some command
      ∧ Utf8.decodeString said = some text := by
  unfold lineSays at h
  cases hd : directive line with
  | none => rw [hd] at h; cases h
  | some r =>
    rw [hd] at h
    obtain ⟨text', hdecode, hpair⟩ := Option.map_eq_some_iff.mp h
    unfold directive at hd
    split at hd
    · rename_i first rest hsplit
      split at hd
      · rename_i hcol
        obtain ⟨sep, tail, hline, htail⟩ := splitFirst_eq_pair hsplit hcol
        obtain ⟨said, last, rfl⟩ : ∃ said last, tail = said ++ [last] :=
          ⟨_, _, (List.dropLast_concat_getLast htail).symm⟩
        obtain ⟨command', hcommand, rfl⟩ := Option.map_eq_some_iff.mp hd
        cases hpair
        have hdrop : line.drop (first.length + 1) = said ++ [last] := by
          rw [hline]
          simp
        have hsaid : dropLastBytes (said ++ [last]) 1 = said := dropLastBytes_append said [last]
        dsimp only at hdecode
        rw [hdrop, hsaid] at hdecode
        exact ⟨first, sep, said, last, hline, hcommand, hdecode⟩
      · cases hd
    · cases hd

/-! ## Lives -/

/-- The lines of a trace, each with the bracket calls made while it was
read. -/
abbrev Trace := List (Bytes × List Call)

/-- Lines that make no bracket call. -/
def quiet (lines : List Bytes) : Trace := lines.map fun line => (line, [])

/-- The ends of a line that begins a details region, each with the parser of
the region. -/
inductive Begins : String → DetailsParser → Prop where
  | simple : Begins " [" .newSimple
  | multipart : Begins " [ multipart" .newMultipart

/-- The line starts no test. -/
def StartsNone (line : Bytes) : Prop := ∀ test, lineSays line ≠ some (.startTest, test)

/-- The line neither gives an outcome of the test nor begins the details of
one. -/
def ReportsNone (test : String) (line : Bytes) : Prop :=
  ∀ label said, lineSays line = some (.outcome label, said) →
    said ≠ test ∧ ∀ begins new, Begins begins new → said ≠ test ++ begins

/-- The lines of a details region so far. -/
inductive Feeds : DetailsParser → List Bytes → DetailsParser → Prop where
  | nil {p : DetailsParser} : Feeds p [] p
  | snoc {p p' p'' : DetailsParser} {region : List Bytes} {line : Bytes} (h : Feeds p region p')
      (hline : p'.lineReceived line = ⟨p'', .ok false⟩) : Feeds p (region ++ [line]) p''

/-- From the line that names an outcome of `test` to the report of it. -/
inductive Reports (test : String) : Outcome → Option Details → Trace → Prop where
  | atOnce {label : Outcome} {line : Bytes} (hline : lineSays line = some (.outcome label, test)) :
      Reports test label label.noDetails
        [(line, [.outcome label ⟨test⟩ label.noDetails, .stopTest ⟨test⟩])]
  | afterDetails {label : Outcome} {line last : Bytes} {begins : String}
      {new p ended : DetailsParser} {region : List Bytes} (hbegins : Begins begins new)
      (hline : lineSays line = some (.outcome label, test ++ begins)) (hfeeds : Feeds new region p)
      (hlast : p.lineReceived last = ⟨ended, .ok true⟩) :
      Reports test label (some (ended.getDetails label.style))
        ((line, []) :: quiet region ++ [(last,
          [.outcome label ⟨test⟩ (some (ended.getDetails label.style)), .stopTest ⟨test⟩])])

/-- What the input says of one test that has been reported. -/
structure Life where
  test : String
  label : Outcome
  details : Option Details
  before : List Bytes
  start : Bytes
  inside : List Bytes
  reported : Trace
  before_says : ∀ line ∈ before, StartsNone line
  start_says : lineSays start = some (.startTest, test)
  inside_says : ∀ line ∈ inside, ReportsNone test line
  reported_says : Reports test label details reported

namespace Life

/-- The lines of a life, from the end of the life before. -/
def trace (l : Life) : Trace :=
  quiet l.before ++ (l.start, [.startTest ⟨l.test⟩]) :: quiet l.inside ++ l.reported

/-- The bracket calls of a life. -/
def calls (l : Life) : List Call :=
  [.startTest ⟨l.test⟩, .outcome l.label ⟨l.test⟩ l.details, .stopTest ⟨l.test⟩]

end Life

/-- A test that is open, and what is said of its state if the connection is
lost. -/
structure Opened where
  test : String
  stateString : String

/-- The lines since the last report, with the server they leave behind and the
test that is open: of it neither an outcome has been read nor the end of its
details. -/
inductive Begun : Server → Trace → Option Opened → Prop where
  | outside {s : Server} {lines : List Bytes} (hs : s.state = .outsideTest)
      (hlines : ∀ line ∈ lines, StartsNone line) : Begun s (quiet lines) none
  | inTest {test : String} {start : Bytes} {before inside : List Bytes}
      (hbefore : ∀ line ∈ before, StartsNone line)
      (hstart : lineSays start = some (.startTest, test))
      (hinside : ∀ line ∈ inside, ReportsNone test line) :
      Begun ⟨.inTest, some ⟨test⟩, .some test⟩
        (quiet before ++ (start, [.startTest ⟨test⟩]) :: quiet inside) (some ⟨test, ""⟩)
  | readingDetails {test begins : String} {start line : Bytes} {label : Outcome}
      {new p : DetailsParser} {before inside region : List Bytes}
      (hbefore : ∀ line ∈ before, StartsNone line)
      (hstart : lineSays start = some (.startTest, test))
      (hinside : ∀ line ∈ inside, ReportsNone test line) (hbegins : Begins begins new)
      (hline : lineSays line = some (.outcome label, test ++ begins))
      (hfeeds : Feeds new region p) :
      Begun ⟨.readingDetails label p, some ⟨test⟩, .some test⟩
        (quiet before ++ (start, [.startTest ⟨test⟩]) :: quiet inside
          ++ (line, []) :: quiet region) (some ⟨test, label.label ++ " report of "⟩)

/-- A trace that leaves the server in `s` is a list of lives and what has begun
of one more. -/
def Told (s : Server) (trace : Trace) : Prop :=
  ∃ (lives : List Life) (begun : Trace) (opened : Option Opened), Begun s begun opened
    ∧ trace = lives.flatMap Life.trace ++ begun

theorem quiet_concat (lines : List Bytes) (line : Bytes) :
    quiet (lines ++ [line]) = quiet lines ++ [(line, [])] := by simp [quiet]

/-! ## What one line does -/

/-- The server is as it was, and no bracket call has been made. -/
def Effect.Idle (s : Server) (e : Effect) : Prop := e.server = s ∧ brackets e.outputs = []

section Steps

variable (parseDate : Bytes → Except Error DateTime) {s : Server} {line : Bytes}

theorem stdOut_idle : (s.stdOutLineReceived line).Idle s := ⟨rfl, rfl⟩

theorem raises_idle (e : Error) : (s.raises e).Idle s := ⟨rfl, rfl⟩

theorem handleProgress_idle (offset : Nat) : (s.handleProgress offset line).Idle s := by
  unfold Server.handleProgress
  split
  · exact raises_idle _
  · exact ⟨rfl, rfl⟩

theorem handleTags_idle (offset : Nat) : (s.handleTags offset line).Idle s := by
  unfold Server.handleTags
  split
  · exact raises_idle _
  · exact ⟨rfl, rfl⟩

theorem handleTime_idle (offset : Nat) : (s.handleTime parseDate offset line).Idle s := by
  unfold Server.handleTime
  split
  · exact raises_idle _
  · exact raises_idle _
  · exact raises_idle _
  · exact ⟨rfl, rfl⟩

/-- What a line says has the command of its first word. -/
theorem command_of_lineSays {command said : Command} {offset : Nat} {text : String}
    (hd : directive line = some (command, offset)) (h : lineSays line = some (said, text)) :
    said = command := by
  unfold lineSays at h
  rw [hd] at h
  obtain ⟨_, -, hpair⟩ := Option.map_eq_some_iff.mp h
  cases hpair
  rfl

theorem lineSays_none (hd : directive line = none) : lineSays line = none := by
  unfold lineSays
  rw [hd]

/-- Outside a test a line starts a test, or it could start none and makes no
bracket call. -/
theorem outside_step (hs : s.state = .outsideTest)
    (hok : (s.lineReceived parseDate line).raised = none) :
    (s.lineReceived parseDate line).Idle s ∧ StartsNone line
      ∨ ∃ test, lineSays line = some (.startTest, test)
        ∧ (s.lineReceived parseDate line).server = ⟨.inTest, some ⟨test⟩, .some test⟩
        ∧ brackets (s.lineReceived parseDate line).outputs = [.startTest ⟨test⟩] := by
  have hline : s.lineReceived parseDate line = s.commandReceived parseDate false line := by
    rw [Server.lineReceived, hs]
  rw [hline] at hok ⊢
  unfold Server.commandReceived at hok ⊢
  cases hd : directive line with
  | none =>
    refine .inl ⟨stdOut_idle, fun test htold => ?_⟩
    rw [lineSays_none hd] at htold
    cases htold
  | some d =>
    obtain ⟨command, offset⟩ := d
    rw [hd] at hok
    have hnone : command ≠ .startTest → StartsNone line := fun hne test htold =>
      hne (command_of_lineSays hd htold).symm
    cases command with
    | startTest =>
      simp only [Bool.false_eq_true, if_false, Server.startTest] at hok ⊢
      cases ht : decodeLine (line.drop offset) with
      | error e =>
        rw [ht] at hok
        cases hok
      | ok test => exact .inr ⟨test, decodeLine_says hd ht, rfl, rfl⟩
    | outcome label =>
      simp only [Bool.false_eq_true, if_false]
      split
      · exact .inl ⟨raises_idle _, hnone (by simp)⟩
      · exact .inl ⟨stdOut_idle, hnone (by simp)⟩
    | progress => exact .inl ⟨handleProgress_idle offset, hnone (by simp)⟩
    | tags => exact .inl ⟨handleTags_idle offset, hnone (by simp)⟩
    | time => exact .inl ⟨handleTime_idle parseDate offset, hnone (by simp)⟩

/-- In a test a line reports its outcome or begins a details region, or it says
nothing of the kind and makes no bracket call. -/
theorem inTest_step {test : String} (hs : s = ⟨.inTest, some ⟨test⟩, .some test⟩)
    (hok : (s.lineReceived parseDate line).raised = none) :
    (s.lineReceived parseDate line).Idle s ∧ ReportsNone test line
      ∨ (∃ label, lineSays line = some (.outcome label, test)
        ∧ (s.lineReceived parseDate line).server.state = .outsideTest
        ∧ brackets (s.lineReceived parseDate line).outputs
          = [.outcome label ⟨test⟩ label.noDetails, .stopTest ⟨test⟩])
      ∨ ∃ label begins new, Begins begins new
        ∧ lineSays line = some (.outcome label, test ++ begins)
        ∧ (s.lineReceived parseDate line).server
          = ⟨.readingDetails label new, some ⟨test⟩, .some test⟩
        ∧ brackets (s.lineReceived parseDate line).outputs = [] := by
  have hline : s.lineReceived parseDate line = s.commandReceived parseDate true line := by
    rw [Server.lineReceived, hs]
  rw [hline] at hok ⊢
  unfold Server.commandReceived at hok ⊢
  cases hd : directive line with
  | none =>
    refine .inl ⟨stdOut_idle, fun label said htold => ?_⟩
    rw [lineSays_none hd] at htold
    cases htold
  | some d =>
    obtain ⟨command, offset⟩ := d
    rw [hd] at hok
    have hnone : (∀ label, command ≠ .outcome label) → ReportsNone test line :=
      fun hne label said htold => absurd (command_of_lineSays hd htold).symm (hne label)
    cases command with
    | startTest => exact .inl ⟨stdOut_idle, hnone (by simp)⟩
    | outcome label =>
      simp only [if_true, Server.outcome, hs] at hok ⊢
      cases ht : decodeLine (line.drop offset) with
      | error e =>
        rw [ht] at hok
        cases hok
      | ok text =>
        have htold := decodeLine_says hd ht
        simp only
        split
        · rename_i htext
          subst htext
          exact .inr (.inl ⟨label, htold, rfl, rfl⟩)
        · rename_i hplain
          split
          · rename_i htext
            subst htext
            exact .inr (.inr ⟨label, _, _, .simple, htold, rfl, rfl⟩)
          · rename_i hsimple
            split
            · rename_i htext
              subst htext
              exact .inr (.inr ⟨label, _, _, .multipart, htold, rfl, rfl⟩)
            · rename_i hmultipart
              refine .inl ⟨stdOut_idle, fun label' said htold' => ?_⟩
              rw [htold] at htold'
              cases htold'
              refine ⟨Ne.symm hplain, fun begins new hbegins => ?_⟩
              cases hbegins with
              | simple => exact Ne.symm hsimple
              | multipart => exact Ne.symm hmultipart
    | progress => exact .inl ⟨handleProgress_idle offset, hnone (by simp)⟩
    | tags => exact .inl ⟨handleTags_idle offset, hnone (by simp)⟩
    | time => exact .inl ⟨handleTime_idle parseDate offset, hnone (by simp)⟩

/-- In a details region a line is taken by the parser of the region, and the
last one reports the outcome. -/
theorem details_step {test : String} {label : Outcome} {p : DetailsParser}
    (hs : s = ⟨.readingDetails label p, some ⟨test⟩, .some test⟩)
    (hok : (s.lineReceived parseDate line).raised = none) :
    (∃ p', p.lineReceived line = ⟨p', .ok false⟩
        ∧ (s.lineReceived parseDate line).server
          = ⟨.readingDetails label p', some ⟨test⟩, .some test⟩
        ∧ brackets (s.lineReceived parseDate line).outputs = [])
      ∨ ∃ ended, p.lineReceived line = ⟨ended, .ok true⟩
        ∧ (s.lineReceived parseDate line).server.state = .outsideTest
        ∧ brackets (s.lineReceived parseDate line).outputs
          = [.outcome label ⟨test⟩ (some (ended.getDetails label.style)), .stopTest ⟨test⟩] := by
  have hline : s.lineReceived parseDate line = s.detailsLineReceived label p line := by
    rw [Server.lineReceived, hs]
  rw [hline] at hok ⊢
  unfold Server.detailsLineReceived at hok ⊢
  rcases hp : p.lineReceived line with ⟨p', result⟩
  rw [hp] at hok
  match result with
  | .error e => cases hok
  | .ok false => exact .inl ⟨p', rfl, by rw [hs], rfl⟩
  | .ok true => exact .inr ⟨p', rfl, rfl, by rw [hs]; rfl⟩

theorem forall_mem_concat {P : Bytes → Prop} {lines : List Bytes} (h : ∀ l ∈ lines, P l)
    (hline : P line) : ∀ l ∈ lines ++ [line], P l := by
  intro l hl
  rcases List.mem_append.mp hl with hl | hl
  · exact h l hl
  · exact List.mem_singleton.mp hl ▸ hline

/-- One more line. -/
theorem Told.step {trace : Trace} (h : Told s trace)
    (hok : (s.lineReceived parseDate line).raised = none) :
    Told (s.lineReceived parseDate line).server
      (trace ++ [(line, brackets (s.lineReceived parseDate line).outputs)]) := by
  obtain ⟨lives, begun, opened, hbegun, rfl⟩ := h
  cases hbegun with
  | @outside _ lines hs hlines =>
    rcases outside_step parseDate hs hok with ⟨⟨hserver, hquiet⟩, hnone⟩
      | ⟨test, htold, hserver, hcalls⟩
    · rw [hserver, hquiet]
      exact ⟨lives, _, _, .outside hs (forall_mem_concat hlines hnone), by simp [quiet_concat]⟩
    · rw [hserver, hcalls]
      exact ⟨lives, _, _, @Begun.inTest _ _ _ [] hlines htold (by simp), by simp [quiet]⟩
  | @inTest test start before inside hbefore hstart hinside =>
    rcases inTest_step parseDate rfl hok with ⟨⟨hserver, hquiet⟩, hnone⟩
      | ⟨label, htold, hstate, hcalls⟩ | ⟨label, begins, new, hbegins, htold, hserver, hquiet⟩
    · rw [hserver, hquiet]
      exact ⟨lives, _, _, .inTest hbefore hstart (forall_mem_concat hinside hnone),
        by simp [quiet_concat]⟩
    · let life : Life := ⟨test, label, label.noDetails, before, start, inside, _, hbefore, hstart,
        hinside, .atOnce htold⟩
      rw [hcalls]
      exact ⟨lives ++ [life], _, _, @Begun.outside _ [] hstate (by simp),
        by simp [life, Life.trace, quiet]⟩
    · rw [hserver, hquiet]
      exact ⟨lives, _, _, .readingDetails hbefore hstart hinside hbegins htold .nil,
        by simp [quiet]⟩
  | @readingDetails test begins start opening label new p before inside region hbefore hstart
      hinside hbegins htold hfeeds =>
    rcases details_step parseDate rfl hok with ⟨p', hp, hserver, hquiet⟩
      | ⟨ended, hlast, hstate, hcalls⟩
    · rw [hserver, hquiet]
      exact ⟨lives, _, _, .readingDetails hbefore hstart hinside hbegins htold (hfeeds.snoc hp),
        by simp [quiet_concat]⟩
    · let life : Life := ⟨test, label, _, before, start, inside, _, hbefore, hstart, hinside,
        .afterDetails hbegins htold hfeeds hlast⟩
      rw [hcalls]
      exact ⟨lives ++ [life], _, _, @Begun.outside _ [] hstate (by simp),
        by simp [life, Life.trace, quiet]⟩

end Steps

/-! ## Whole runs -/

section Runs

variable (parseDate : Bytes → Except Error DateTime)

/-- Each line with the bracket calls made while it is read. -/
def Server.trace : Server → List Bytes → Trace
  | _, [] => []
  | s, line :: lines =>
    let e := s.lineReceived parseDate line
    (line, brackets e.outputs) :: trace e.server lines

/-- Lines, if the first does not raise. -/
theorem linesReceived_cons {s : Server} {line : Bytes} {lines : List Bytes}
    (h : (s.linesReceived parseDate (line :: lines)).raised = none) :
    (s.lineReceived parseDate line).raised = none
      ∧ s.linesReceived parseDate (line :: lines) =
        { (s.lineReceived parseDate line).server.linesReceived parseDate lines with
          outputs := (s.lineReceived parseDate line).outputs
            ++ ((s.lineReceived parseDate line).server.linesReceived parseDate lines).outputs } := by
  rw [Server.linesReceived] at h ⊢
  cases hfirst : (s.lineReceived parseDate line).raised with
  | some e =>
    simp only [hfirst] at h
    cases h
  | none => exact ⟨rfl, rfl⟩

theorem told_lines {s : Server} {trace : Trace} (h : Told s trace) {lines : List Bytes}
    (hok : (s.linesReceived parseDate lines).raised = none) :
    Told (s.linesReceived parseDate lines).server (trace ++ s.trace parseDate lines) := by
  induction lines generalizing s trace with
  | nil => simpa [Server.linesReceived, Server.trace] using h
  | cons line lines ih =>
    obtain ⟨hfirst, hrun⟩ := linesReceived_cons parseDate hok
    rw [hrun] at hok ⊢
    have := ih (h.step parseDate hfirst) hok
    simpa [Server.trace] using this

/-- A trace has the bracket calls of the run. -/
theorem brackets_linesReceived {s : Server} {lines : List Bytes}
    (hok : (s.linesReceived parseDate lines).raised = none) :
    brackets (s.linesReceived parseDate lines).outputs
      = (s.trace parseDate lines).flatMap fun entry => entry.2 := by
  induction lines generalizing s with
  | nil => rfl
  | cons line lines ih =>
    obtain ⟨-, hrun⟩ := linesReceived_cons parseDate hok
    rw [hrun] at hok ⊢
    simp [Server.trace, ih hok]

end Runs

/-! ## The calls of a life -/

@[simp] theorem calls_quiet (lines : List Bytes) :
    (quiet lines).flatMap (fun entry => entry.2) = [] := by
  induction lines with
  | nil => rfl
  | cons line lines ih => simp [quiet]

theorem Reports.calls {test : String} {label : Outcome} {details : Option Details} {trace : Trace}
    (h : Reports test label details trace) :
    trace.flatMap (fun entry => entry.2) = [.outcome label ⟨test⟩ details, .stopTest ⟨test⟩] := by
  cases h with
  | atOnce hline => rfl
  | afterDetails hbegins hline hfeeds hlast => simp

theorem Life.calls_trace (l : Life) : l.trace.flatMap (fun entry => entry.2) = l.calls := by
  simp [Life.trace, Life.calls, l.reported_says.calls]

theorem calls_lives (lives : List Life) :
    (lives.flatMap Life.trace).flatMap (fun entry => entry.2) = lives.flatMap Life.calls := by
  induction lives with
  | nil => rfl
  | cons l lives ih => simp [ih, l.calls_trace]

/-- What a client is told when the connection is lost. -/
def Opened.lost (o : Opened) : List Call :=
  [.remoteError ⟨o.test⟩
      ("lost connection during " ++ o.stateString ++ "test '" ++ o.test ++ "'"),
    .stopTest ⟨o.test⟩]

theorem Begun.calls {s : Server} {begun : Trace} {opened : Option Opened}
    (h : Begun s begun opened) :
    begun.flatMap (fun entry => entry.2) = opened.toList.map fun o => .startTest ⟨o.test⟩ := by
  cases h with
  | outside hs hlines => simp
  | inTest hbefore hstart hinside => simp
  | readingDetails hbefore hstart hinside hbegins hline hfeeds => simp

theorem Begun.lostConnection {s : Server} {begun : Trace} {opened : Option Opened}
    (h : Begun s begun opened) :
    brackets s.lostConnection.outputs = opened.toList.flatMap Opened.lost := by
  cases h with
  | outside hs hlines => simp [Server.lostConnection, hs]
  | inTest hbefore hstart hinside => rfl
  | readingDetails hbefore hstart hinside hbegins hline hfeeds => rfl

/-- The bracket calls of a test that is open when the connection is lost. -/
def Opened.calls (o : Opened) : List Call := .startTest ⟨o.test⟩ :: o.lost

theorem Begun.lostConnection_returns {s : Server} {begun : Trace} {opened : Option Opened}
    (h : Begun s begun opened) : s.lostConnection.raised = none := by
  cases h with
  | outside hs hlines => simp [Server.lostConnection, hs]
  | inTest hbefore hstart hinside => rfl
  | readingDetails hbefore hstart hinside hbegins hline hfeeds => rfl

/-- **Bracket discipline.** However the lines go, as long as none raises, what
the client is told is a list of lives, each a test started, given one
outcome and stopped before the next is started, and after them the test that is
still open, if there is one: it is stopped with the outcome that the connection
was lost. A life holds the line that caused its outcome, and of the test still open
no line has given an outcome or the end of its details. -/
theorem lines_bracketed (parseDate : Bytes → Except Error DateTime) (lines : List Bytes)
    (h : (Server.linesReceived parseDate {} lines).raised = none) :
    let run := Server.linesReceived parseDate {} lines
    let lost := run.server.lostConnection
    ∃ (lives : List Life) (begun : Trace) (opened : Option Opened),
      Begun run.server begun opened
        ∧ Server.trace parseDate {} lines = lives.flatMap Life.trace ++ begun
        ∧ lost.raised = none
        ∧ brackets lost.outputs = opened.toList.flatMap Opened.lost
        ∧ brackets (run.outputs ++ lost.outputs)
          = lives.flatMap Life.calls ++ opened.toList.flatMap Opened.calls := by
  have hstart : Told {} [] := ⟨[], [], none, @Begun.outside _ [] rfl (by simp), rfl⟩
  obtain ⟨lives, begun, opened, hbegun, htrace⟩ := told_lines parseDate hstart h
  rw [List.nil_append] at htrace
  refine ⟨lives, begun, opened, hbegun, htrace, hbegun.lostConnection_returns,
    hbegun.lostConnection, ?_⟩
  rw [brackets_append, brackets_linesReceived parseDate h, htrace, List.flatMap_append,
    calls_lives, hbegun.calls, hbegun.lostConnection, List.append_assoc]
  cases opened <;> rfl

/-- Junk, a test whose name ends like a details region begins, an outcome of
another test inside it, a region, and a test left open in its details. -/
theorem lines_bracketed_session :
    let lines := [ascii "junk\n", ascii "test: a [\n", ascii "error: a\n", ascii "skip: a [ [\n",
      ascii "success: a [\n", ascii " ]\n", ascii "]\n", ascii "testing b\n",
      ascii "failure b [ multipart\n"]
    let run := Server.linesReceived (fun _ => .error .other) {} lines
    ∃ (lives : List Life) (begun : Trace) (opened : Option Opened),
      Begun run.server begun opened
        ∧ Server.trace (fun _ => .error .other) {} lines = lives.flatMap Life.trace ++ begun
        ∧ run.server.lostConnection.raised = none
        ∧ brackets run.server.lostConnection.outputs = opened.toList.flatMap Opened.lost
        ∧ brackets (run.outputs ++ run.server.lostConnection.outputs)
          = lives.flatMap Life.calls ++ opened.toList.flatMap Opened.calls :=
  lines_bracketed _ _ (by decide)

end Pysubunit.V1
