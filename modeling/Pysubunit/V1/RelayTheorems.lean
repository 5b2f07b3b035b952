/-
Pysubunit.V1.RelayTheorems — a server whose client writes the calls on.

`ExecTestCase` and `run_isolated` read a stream into whatever result they are
run with; if that is a `TestProtocolClient`, the stream is written once more.
What a server makes of each line its client writes, and the next server, which
never reads a details region before its end, follows (`Follows`): it reads the
same calls, with the types of details as they are written and without changes
of tags that change none (`carries_line`). So a stream can be relayed any number
of times (`relays_received`).
-/
import Pysubunit.V1.CarriedTheorems

namespace Pysubunit.V1

open ByteLib

/-! ## Calls as they are shown -/

/-- The dict that is read for one that is written. -/
def Details.shown (details : Details) : Details :=
  insertAll ∅ (Client.sortedItems details.written)

theorem lookup_shown (details : Details) (name : String) :
    details.shown.lookup name
      = (details.lookup name).map fun content => content.written.joined := by
  rw [Details.shown, sameDetails_insertAll, lookup_written, Option.map_map]
  rfl

def Call.shown : Call → Call
  | .outcome label test (some details) => .outcome label test (some details.shown)
  | call => call

/-- The calls that are received for those that are sent. -/
def shownCalls (calls : List Call) : List Call :=
  (calls.filter (· ≠ .tags ∅ ∅)).map Call.shown

@[simp] theorem shownCalls_append (a b : List Call) :
    shownCalls (a ++ b) = shownCalls a ++ shownCalls b := by
  simp [shownCalls]

theorem shown_of_same {details got : Details} (h : SameDetails details.written got) :
    got = details.shown := by
  refine Finmap.ext_lookup fun name => ?_
  rw [h name, Details.shown, sameDetails_insertAll]

theorem shown_shown (call : Call) : call.shown.shown = call.shown := by
  cases call with
  | outcome label test details =>
    cases details with
    | none => rfl
    | some details =>
      have hsame : details.shown.shown = details.shown := by
        refine Finmap.ext_lookup fun name => ?_
        rw [lookup_shown, lookup_shown, Option.map_map]
        congr 1
        funext content
        simp [Content.written, Content.joined]
      simp [Call.shown, hsame]
  | _ => rfl

/-- **Calls that have been shown** are shown as they are. -/
theorem shownCalls_shownCalls (calls : List Call) :
    shownCalls (shownCalls calls) = shownCalls calls := by
  have htags : ∀ call : Call, call.shown = .tags ∅ ∅ ↔ call = .tags ∅ ∅ := by
    intro call
    unfold Call.shown
    split <;> simp
  simp [shownCalls, List.filter_map, Function.comp_def, shown_shown, htags, List.filter_filter]

/-! ## The relay -/

section Relay

variable (parseDate : Bytes → Except Error DateTime) (setOrder : Finset Bytes → List Bytes)
  (traceback : String → List Bytes)

/-- `TestProtocolServer(TestProtocolClient(out)).readFrom(pipe)`: what is written
to `out`. -/
def relay (pipe : Bytes) : Except Error Bytes :=
  let read := Server.readFrom parseDate {} pipe
  match read.raised with
  | some e => .error e
  | none => Client.writeAll setOrder traceback (received read.outputs)

/-- Relays in a row, each with its own order of sets. -/
def relays : List (Finset Bytes → List Bytes) → Bytes → Except Error Bytes
  | [], pipe => .ok pipe
  | setOrder :: hops, pipe => do
    let written ← relay parseDate setOrder traceback pipe
    relays hops written

/-- The text of a time directive. -/
def timeText (t : DateTime) : Bytes :=
  Client.padded 4 t.year ++ ascii "-" ++ Client.padded 2 t.month ++ ascii "-"
    ++ Client.padded 2 t.day ++ ascii " " ++ Client.padded 2 t.hour ++ ascii ":"
    ++ Client.padded 2 t.minute ++ ascii ":" ++ Client.padded 2 t.second ++ ascii "."
    ++ Client.padded 6 t.microsecond ++ ascii "Z"

/-- The calls that the line protocol carries: ids that are not blank, details in
ASCII and times that are read as they are written. A lost connection is reported with
a traceback, which is no such call. -/
def Relayable : Call → Prop
  | .startTest test => HasWord test.description.toList
  | .outcome _ _ (some details) => AsciiDetails details
  | .remoteError _ _ => False
  | .time t => parseDate (timeText t) = .ok t
  | _ => True

/-- What is written for some calls leads a server to the calls that are shown. -/
def Relayed (s : Server) (calls : List Call) (s' : Server) : Prop :=
  ∃ written os, Client.writeAll setOrder traceback calls = .ok written
    ∧ Reads parseDate s written os s' ∧ received os = shownCalls calls

variable {parseDate setOrder traceback}

theorem Relayed.nil (s : Server) : Relayed parseDate setOrder traceback s [] s :=
  ⟨[], [], rfl, .nil parseDate s, rfl⟩

theorem Relayed.append {s s' s'' : Server} {a b : List Call}
    (ha : Relayed parseDate setOrder traceback s a s')
    (hb : Relayed parseDate setOrder traceback s' b s'') :
    Relayed parseDate setOrder traceback s (a ++ b) s'' := by
  obtain ⟨written, os, hwrite, hreads, hreceived⟩ := ha
  obtain ⟨written', os', hwrite', hreads', hreceived'⟩ := hb
  refine ⟨_, _, writeAll_append hwrite hwrite', hreads.append hreads', ?_⟩
  rw [received_append, hreceived, hreceived', shownCalls_append]

/-- A single call. -/
theorem Relayed.one {s s' : Server} {call : Call} {written : Bytes} {os : List Output}
    (hwrite : Client.write setOrder traceback call = .ok written)
    (hreads : Reads parseDate s written os s') (hreceived : received os = shownCalls [call]) :
    Relayed parseDate setOrder traceback s [call] s' := by
  refine ⟨written, os, ?_, hreads, hreceived⟩
  simp [Client.writeAll, hwrite, bind, Except.bind, pure, Except.pure]

/-! ## Notes -/

/-- What a progress line can say. -/
theorem progressOf_cases {argument : Bytes} {delta : Option Int} {whence : Whence}
    (h : progressOf (strip argument) = .ok (delta, whence)) :
    (∃ n, delta = some n ∧ whence = .cur) ∨ (∃ n, delta = some n ∧ whence = .set ∧ 0 ≤ n)
      ∨ delta = none ∧ (whence = .push ∨ whence = .pop) := by
  unfold progressOf at h
  dsimp only at h
  split at h
  · cases h
  · rename_i b bs hargument
    have hint : ∀ n, intOf 10 (strip argument) = some n → b ≠ 45 → 0 ≤ n := by
      intro n hn hb
      refine intOf_nonneg hn ?_
      rw [strip_strip, hargument]
      simpa using hb
    split at h
    · -- a sign is in front
      cases hn : intOf 10 (strip argument) with
      | none =>
        rw [hn] at h
        cases h
      | some n =>
        rw [hn] at h
        cases h
        exact .inl ⟨n, rfl, rfl⟩
    · rename_i hsign
      split at h
      · cases h
        exact .inr (.inr ⟨rfl, .inl rfl⟩)
      · split at h
        · cases h
          exact .inr (.inr ⟨rfl, .inr rfl⟩)
        · cases hn : intOf 10 (strip argument) with
          | none =>
            rw [hn] at h
            cases h
          | some n =>
            rw [hn] at h
            cases h
            exact .inr (.inl ⟨n, rfl, rfl, hint n hn fun hb => hsign (.inr hb)⟩)

/-- It can be sent. -/
theorem progressOf_sendable {argument : Bytes} {delta : Option Int} {whence : Whence}
    (h : progressOf (strip argument) = .ok (delta, whence)) :
    Sendable (.progress delta whence)
      ∧ ∀ calls, Delivers (.progress delta whence) calls → calls = [.progress delta whence] := by
  rcases progressOf_cases h with ⟨n, rfl, rfl⟩ | ⟨n, rfl, rfl, hn⟩ | ⟨rfl, rfl | rfl⟩
  · exact ⟨.progressCur, fun calls h => by cases h; rfl⟩
  · exact ⟨.progressSet hn, fun calls h => by cases h; rfl⟩
  · exact ⟨.progressPush, fun calls h => by cases h; rfl⟩
  · exact ⟨.progressPop, fun calls h => by cases h; rfl⟩

variable {s : Server} (hs : TakesCommands s) {s₁ : Server} {line : Bytes} {offset : Nat}
include hs

theorem relayed_progress (horder : ∀ tags, (setOrder tags).toFinset = tags)
    (hok : (s₁.handleProgress offset line).raised = none) :
    Relayed parseDate setOrder traceback s (received (s₁.handleProgress offset line).outputs)
      s := by
  unfold Server.handleProgress at hok ⊢
  split at hok
  · cases hok
  · rename_i delta whence hprogress
    obtain ⟨hsend, hdelivers⟩ := progressOf_sendable hprogress
    obtain ⟨written, os, hwrite, hreads, hos⟩ :=
      @reads_note parseDate s hs setOrder horder traceback (.progress delta whence) trivial hsend
    refine .one hwrite hreads ?_
    rw [hdelivers _ hos]
    simp [shownCalls, Call.shown]

/-- Tags that change something are words; tags that do not are not written. -/
theorem relayed_tags (horder : ∀ tags, (setOrder tags).toFinset = tags)
    (hok : (s₁.handleTags offset line).raised = none) :
    Relayed parseDate setOrder traceback s (received (s₁.handleTags offset line).outputs) s := by
  unfold Server.handleTags at hok ⊢
  split at hok
  · cases hok
  · rename_i text htext
    generalize htags : tagsToNewGone (words text.toList) = tags
    obtain ⟨newTags, goneTags⟩ := tags
    have hnewTags : newTags = (tagsToNewGone (words text.toList)).1 := by rw [htags]
    have hgoneTags : goneTags = (tagsToNewGone (words text.toList)).2 := by rw [htags]
    dsimp only
    by_cases hne : newTags = ∅ ∧ goneTags = ∅
    · obtain ⟨rfl, rfl⟩ := hne
      have hwrite : Client.write setOrder traceback (.tags ∅ ∅) = .ok [] := by
        simp [Client.write, Client.tags]
      exact .one hwrite (.nil parseDate s) (by simp [received, shownCalls])
    · have hnew : ∀ t ∈ newTags, IsWord t.toList ∧ t.toList.head? ≠ some '-' := by
        intro t ht
        rw [hnewTags, mem_newTags] at ht
        exact ⟨isWord_of_mem_words ht.1, ht.2⟩
      have hgone : ∀ t ∈ goneTags, ∀ c ∈ t.toList, isSpaceChar c = false := by
        intro t ht c hc
        rw [hgoneTags, mem_goneTags] at ht
        exact (isWord_of_mem_words ht).2 c (List.mem_cons_of_mem _ hc)
      obtain ⟨line', hreads⟩ := @reads_tags parseDate s hs setOrder horder newTags goneTags hne
        (fun t ht => (hnew t ht).1) (fun t ht => (hnew t ht).2) hgone
      refine .one rfl hreads ?_
      have hcall : Call.tags newTags goneTags ≠ .tags ∅ ∅ := fun heq => hne (by simpa using heq)
      simp [received, shownCalls, Call.shown, hcall]

omit hs in
theorem time_eq (t : DateTime) : Client.time t = ascii "time: " ++ timeText t ++ [10] := by
  have hend : ascii "Z\n" = ascii "Z" ++ [10] := by decide
  simp [Client.time, timeText, hend]

omit hs in
theorem newline_not_mem_timeText (t : DateTime) : 10 ∉ timeText t := by
  have hpadded : ∀ width n, 10 ∉ Client.padded width n := by
    intro width n hmem
    rcases List.mem_append.mp hmem with hmem | hmem
    · exact absurd (List.eq_of_mem_replicate hmem) (by decide)
    · exact absurd (noSpace_numeral (by decide) (by decide) _ hmem) (by decide)
  have hseparators : 10 ∉ ascii "-" ∧ 10 ∉ ascii " " ∧ 10 ∉ ascii ":" ∧ 10 ∉ ascii "."
      ∧ 10 ∉ ascii "Z" := by decide
  simp [timeText, hpadded, hseparators]

/-- A time directive. -/
theorem relayed_time {t : DateTime} (h : parseDate (timeText t) = .ok t) :
    Relayed parseDate setOrder traceback s [.time t] s := by
  have hrest : NotBlank (timeText t ++ [10]) :=
    ⟨90, List.mem_append_left _ (List.mem_append_right _ (by decide)), by decide⟩
  have hdir : directive (Client.time t) = some (.time, 6) := by
    rw [time_eq, List.append_assoc]
    exact @directive_line (ascii "time") _ (by decide) hrest
  have htext : dropLastBytes ((Client.time t).drop 6) 1 = timeText t := by
    rw [time_eq, List.append_assoc, List.drop_left' (by decide)]
    exact dropLastBytes_append _ _
  obtain ⟨inTest, hline⟩ := @lineReceived_command parseDate s hs (Client.time t)
  have hreads : Reads parseDate s (Client.time t)
      [.call (.time t), .subunit (Client.time t)] s := by
    have hreceived : s.lineReceived parseDate (Client.time t)
        = { server := s, outputs := [.call (.time t), .subunit (Client.time t)] } := by
      rw [hline, Server.commandReceived, hdir]
      simp only [Server.handleTime, htext, h]
    rw [time_eq] at hreceived ⊢
    refine Reads.line ?_ hreceived
    rw [List.mem_append, not_or]
    exact ⟨by decide, newline_not_mem_timeText t⟩
  exact .one rfl hreads (by simp [received, shownCalls, Call.shown])

omit hs

/-! ## Tests -/

theorem relayed_startTest (hs : s.state = .outsideTest) {test : RemotedTestCase} (h : IdOk test) :
    Relayed parseDate setOrder traceback s [.startTest test]
      ⟨.inTest, some test, .some test.description⟩ := by
  obtain ⟨line, hreads⟩ := @reads_startTest parseDate s hs test h
  exact .one rfl hreads (by simp [received, shownCalls, Call.shown])

/-- The calls of a report: its details have been read and are ASCII, or there are none. -/
def CanReport (label : Outcome) : Option Details → Prop
  | none => label = .uxsuccess
  | some details => ReadDetails details ∧ AsciiDetails details

/-- **A report** is relayed with its details as they are shown. -/
theorem relayed_report {label : Outcome} {test : RemotedTestCase} (h : IdOk test)
    {details : Option Details} (hdetails : CanReport label details) :
    ∃ s', s'.state = .outsideTest
      ∧ Relayed parseDate setOrder traceback ⟨.inTest, some test, .some test.description⟩
        [.outcome label test details, .stopTest test] s' := by
  have hsend : Sendable (.outcome label test (details.map Details.written)) := by
    cases details with
    | none => exact .withoutDetails h (.inr hdetails)
    | some details => exact .withDetails h (hdetails.1.detailsOk hdetails.2)
  obtain ⟨s', hs', written, os, blocks, hwrite, hreads, hdelivers, hreceived⟩ :=
    @readBack_outcome parseDate setOrder traceback label test _ hsend
  refine ⟨s', hs', written, os, ?_, hreads, ?_⟩
  · cases details with
    | none => exact hwrite
    | some details =>
      rw [← hwrite]
      simp only [Client.writeAll, Option.map_some, write_written]
  · rw [hreceived]
    cases hdelivers with
    | cons hfirst hrest =>
      cases hrest with
      | cons hsecond hrest =>
        cases hrest
        cases hsecond
        cases details with
        | none =>
          cases hfirst
          simp [shownCalls, Call.shown, Outcome.noDetails, show label = .uxsuccess from hdetails]
        | some details =>
          cases hfirst with
          | withDetails hsame =>
            rw [shown_of_same hsame]
            simp [shownCalls, Call.shown]

/-! ## One line -/

/-- A server, and one that reads what its client writes: the second knows of a test
from its start to its report, and of no details region. -/
inductive Follows : Server → Server → Prop where
  | outside {s s' : Server} (hs : s.state = .outsideTest) (hs' : s'.state = .outsideTest) :
      Follows s s'
  | inTest {test : RemotedTestCase} (h : IdOk test) :
      Follows ⟨.inTest, some test, .some test.description⟩
        ⟨.inTest, some test, .some test.description⟩
  | readingDetails {test : RemotedTestCase} (h : IdOk test) (label : Outcome) {p : DetailsParser}
      (hp : Parsed p) :
      Follows ⟨.readingDetails label p, some test, .some test.description⟩
        ⟨.inTest, some test, .some test.description⟩

variable (parseDate setOrder traceback)

/-- The calls of an effect are relayed, and the servers still go together. -/
def Carries (s : Server) (e : Effect) : Prop :=
  ∃ s', Follows e.server s' ∧ Relayed parseDate setOrder traceback s (received e.outputs) s'

variable {parseDate setOrder traceback}

theorem carries_stdOut {s₁ s : Server} (h : Follows s₁ s) (line : Bytes) :
    Carries parseDate setOrder traceback s (s₁.stdOutLineReceived line) :=
  ⟨s, h, .nil s⟩

theorem newline_not_mem_drop {line : Bytes} (h : 10 ∉ dropLastBytes line 1) (offset : Nat) :
    10 ∉ dropLastBytes (line.drop offset) 1 := by
  simp only [dropLastBytes, ← List.dropLast_eq_take, List.dropLast_drop_eq_drop_dropLast] at h ⊢
  exact fun hmem => h (List.mem_of_mem_drop hmem)

section Lines

variable (horder : ∀ tags, (setOrder tags).toFinset = tags) {s₁ s : Server} {line : Bytes}

theorem carries_note {e : Effect} (hserver : e.server = s₁) (hfollows : Follows s₁ s)
    (h : Relayed parseDate setOrder traceback s (received e.outputs) s) :
    Carries parseDate setOrder traceback s e :=
  ⟨s, hserver ▸ hfollows, h⟩

/-- The text of a directive is one line. -/
theorem newline_not_mem_text (hline : 10 ∉ dropLastBytes line 1) {offset : Nat} {text : String}
    (h : decodeLine (line.drop offset) = .ok text) : '\n' ∉ text.toList :=
  newline_not_mem_decodeLine (newline_not_mem_drop hline offset) h

theorem carries_startTest (hs : s.state = .outsideTest) (hline : 10 ∉ dropLastBytes line 1)
    {offset : Nat} (hok : (s₁.startTest offset line).raised = none)
    (hcalls : ∀ call ∈ received (s₁.startTest offset line).outputs, Relayable parseDate call) :
    Carries parseDate setOrder traceback s (s₁.startTest offset line) := by
  unfold Server.startTest at hok hcalls ⊢
  split at hok
  · cases hok
  · rename_i name hname
    rw [hname] at hcalls
    have hword : HasWord name.toList := hcalls (.startTest ⟨name⟩) (by simp [received])
    have hid : IdOk ⟨name⟩ := ⟨newline_not_mem_text hline hname, hword⟩
    exact ⟨_, .inTest hid, relayed_startTest hs hid⟩

/-- An outcome line reports at once, begins a region or is passed through. -/
theorem carries_outcome {test : RemotedTestCase} (hid : IdOk test) {label : Outcome} {offset : Nat}
    (hok : (Server.outcome ⟨.inTest, some test, .some test.description⟩ label offset line).raised
      = none) :
    Carries parseDate setOrder traceback ⟨.inTest, some test, .some test.description⟩
      (Server.outcome ⟨.inTest, some test, .some test.description⟩ label offset line) := by
  unfold Server.outcome at hok ⊢
  split at hok
  · cases hok
  · dsimp only
    split
    · have hnone : CanReport label label.noDetails := by
        have hempty : ReadDetails ∅ ∧ AsciiDetails ∅ := by simp [ReadDetails, AsciiDetails]
        cases label <;> first | exact hempty | rfl
      obtain ⟨s', hs', hrelayed⟩ :=
        @relayed_report parseDate setOrder traceback label test hid _ hnone
      exact ⟨s', .outside rfl hs', hrelayed⟩
    · split
      · exact ⟨_, .readingDetails hid label (parsed_new .simple), .nil _⟩
      · split
        · exact ⟨_, .readingDetails hid label (parsed_new .multipart), .nil _⟩
        · exact carries_stdOut (.inTest hid) line

/-- A line in a region is read, or reports the test. -/
theorem carries_region {test : RemotedTestCase} (hid : IdOk test) {label : Outcome}
    {p : DetailsParser} (hp : Parsed p) (hline : 10 ∉ dropLastBytes line 1)
    (hok : (Server.detailsLineReceived ⟨.readingDetails label p, some test, .some test.description⟩
      label p line).raised = none)
    (hcalls : ∀ call ∈ received (Server.detailsLineReceived
      ⟨.readingDetails label p, some test, .some test.description⟩ label p line).outputs,
      Relayable parseDate call) :
    Carries parseDate setOrder traceback ⟨.inTest, some test, .some test.description⟩
      (Server.detailsLineReceived ⟨.readingDetails label p, some test, .some test.description⟩
        label p line) := by
  unfold Server.detailsLineReceived at hok hcalls ⊢
  rcases hreceived : p.lineReceived line with ⟨p', result⟩
  rw [hreceived] at hok hcalls
  match result with
  | .error e => cases hok
  | .ok false => exact ⟨_, .readingDetails hid label (hp.lineReceived hline hreceived), .nil _⟩
  | .ok true =>
    have hsame := lineReceived_ends hreceived
    subst hsame
    have hascii : AsciiDetails (p'.getDetails label.style) :=
      hcalls (.outcome label test (some (p'.getDetails label.style)))
        (by simp [received, Server.endDetails, Server.onCurrentTest])
    obtain ⟨s', hs', hrelayed⟩ := @relayed_report parseDate setOrder traceback label test hid
      (some (p'.getDetails label.style)) ⟨hp.readDetails _, hascii⟩
    exact ⟨s', .outside rfl hs', hrelayed⟩

include horder

/-- **A line outside a details region.** -/
theorem carries_command {inTest : Bool} (hfollows : Follows s₁ s)
    (hstate : s₁.state = if inTest then .inTest else .outsideTest)
    (hline : 10 ∉ dropLastBytes line 1)
    (hok : (s₁.commandReceived parseDate inTest line).raised = none)
    (hcalls : ∀ call ∈ received (s₁.commandReceived parseDate inTest line).outputs,
      Relayable parseDate call) :
    Carries parseDate setOrder traceback s (s₁.commandReceived parseDate inTest line) := by
  have hs : TakesCommands s := by
    cases hfollows with
    | outside hs hs' => exact .inl hs'
    | inTest h => exact .inr rfl
    | readingDetails h label hp => exact .inr rfl
  unfold Server.commandReceived at hok hcalls ⊢
  cases hdir : directive line with
  | none => exact carries_stdOut hfollows line
  | some d =>
    obtain ⟨command, offset⟩ := d
    rw [hdir] at hok hcalls
    cases command with
    | progress =>
      exact carries_note (handleProgress_idle offset).1 hfollows (relayed_progress hs horder hok)
    | tags => exact carries_note (handleTags_idle offset).1 hfollows (relayed_tags hs horder hok)
    | time =>
      refine carries_note (handleTime_idle parseDate offset).1 hfollows ?_
      dsimp only at hok hcalls ⊢
      unfold Server.handleTime at hok hcalls ⊢
      split at hok
      · cases hok
      · cases hok
      · cases hok
      · rename_i t ht
        rw [ht] at hcalls
        exact relayed_time hs (hcalls (.time t) (by simp [received]))
    | startTest =>
      cases inTest with
      | true => exact carries_stdOut hfollows line
      | false =>
        have houtside : s.state = .outsideTest := by
          cases hfollows with
          | outside hs₁ hs' => exact hs'
          | inTest h => cases hstate
          | readingDetails h label hp => cases hstate
        exact carries_startTest houtside hline hok hcalls
    | outcome label =>
      cases inTest with
      | true =>
        cases hfollows with
        | outside hs₁ hs' =>
          rw [hs₁] at hstate
          cases hstate
        | inTest h => exact carries_outcome h hok
        | readingDetails h label hp => cases hstate
      | false =>
        simp only [Bool.false_eq_true, if_false] at hok ⊢
        split at hok
        · cases hok
        · rename_i hlabel
          rw [if_neg hlabel]
          exact carries_stdOut hfollows line

/-- **One line.** -/
theorem carries_line (hfollows : Follows s₁ s) (hline : 10 ∉ dropLastBytes line 1)
    (hok : (s₁.lineReceived parseDate line).raised = none)
    (hcalls : ∀ call ∈ received (s₁.lineReceived parseDate line).outputs,
      Relayable parseDate call) :
    Carries parseDate setOrder traceback s (s₁.lineReceived parseDate line) := by
  cases hfollows with
  | outside hs₁ hs' =>
    have hlineReceived :
        s₁.lineReceived parseDate line = s₁.commandReceived parseDate false line := by
      rw [Server.lineReceived, hs₁]
    rw [hlineReceived] at hok hcalls ⊢
    exact carries_command horder (.outside hs₁ hs') hs₁ hline hok hcalls
  | inTest h => exact carries_command horder (.inTest h) rfl hline hok hcalls
  | readingDetails h label hp => exact carries_region h hp hline hok hcalls

/-- **A run of lines.** -/
theorem carries_lines {lines : List Bytes} (hfollows : Follows s₁ s)
    (hlines : ∀ line ∈ lines, 10 ∉ dropLastBytes line 1)
    (hok : (s₁.linesReceived parseDate lines).raised = none)
    (hcalls : ∀ call ∈ received (s₁.linesReceived parseDate lines).outputs,
      Relayable parseDate call) :
    Carries parseDate setOrder traceback s (s₁.linesReceived parseDate lines) := by
  induction lines generalizing s₁ s with
  | nil => exact ⟨s, hfollows, .nil s⟩
  | cons line lines ih =>
    obtain ⟨hfirst, hrun⟩ := linesReceived_cons parseDate hok
    rw [List.forall_mem_cons] at hlines
    rw [hrun] at hok hcalls ⊢
    simp only [received_append, List.mem_append, or_imp, forall_and] at hcalls
    obtain ⟨s', hfollows', hrelayed⟩ :=
      @carries_line parseDate setOrder traceback horder s₁ s line hfollows hlines.1 hfirst hcalls.1
    obtain ⟨s'', hfollows'', hrelayed'⟩ := ih hfollows' hlines.2 hok hcalls.2
    refine ⟨s'', hfollows'', ?_⟩
    rw [received_append]
    exact hrelayed.append hrelayed'

end Lines

/-! ## The run -/

/-- A test that is cut off is reported with a traceback. -/
theorem Follows.outside_of_relayable {s₁ s : Server} (h : Follows s₁ s)
    (hcalls : ∀ call ∈ received s₁.lostConnection.outputs, Relayable parseDate call) :
    s₁.state = .outsideTest ∧ s.state = .outsideTest := by
  cases h with
  | outside hs hs' => exact ⟨hs, hs'⟩
  | @inTest test h => exact (hcalls (.remoteError test _) List.mem_cons_self).elim
  | @readingDetails test h label p hp =>
    exact (hcalls (.remoteError test _) List.mem_cons_self).elim

/-- One relay: what it writes is read as the calls that are shown. -/
theorem relay_received (horder : ∀ tags, (setOrder tags).toFinset = tags) {pipe : Bytes}
    (hread : (Server.readFrom parseDate {} pipe).raised = none)
    (hcalls : ∀ call ∈ received (Server.readFrom parseDate {} pipe).outputs,
      Relayable parseDate call) :
    ∃ written, relay parseDate setOrder traceback pipe = .ok written
      ∧ (Server.readFrom parseDate {} written).raised = none
      ∧ received (Server.readFrom parseDate {} written).outputs
        = shownCalls (received (Server.readFrom parseDate {} pipe).outputs) := by
  have hok : (Server.linesReceived parseDate {} (lines pipe)).raised = none := by
    unfold Server.readFrom at hread
    cases hraised : (Server.linesReceived parseDate {} (lines pipe)).raised with
    | none => rfl
    | some e => simp [hraised] at hread
  have hrelay : relay parseDate setOrder traceback pipe = Client.writeAll setOrder traceback
      (received (Server.readFrom parseDate {} pipe).outputs) := by simp [relay, hread]
  rw [hrelay]
  rw [readFrom_eq parseDate hok] at hcalls ⊢
  simp only [received_append, List.mem_append, or_imp, forall_and] at hcalls ⊢
  have hlines : ∀ line ∈ lines pipe, 10 ∉ dropLastBytes line 1 := fun line hline =>
    newline_not_mem_line hline
  obtain ⟨s', hfollows, written, os, hwrite, hreads, hreceived⟩ :=
    @carries_lines parseDate setOrder traceback horder {} {} _ (.outside rfl rfl) hlines hok
      hcalls.1
  generalize Server.linesReceived parseDate {} (lines pipe) = read
    at hfollows hwrite hreceived hcalls
  have hstates := hfollows.outside_of_relayable hcalls.2
  have hlost : received read.server.lostConnection.outputs = [] := by
    simp [Server.lostConnection, hstates.1, received]
  rw [hlost, List.append_nil]
  exact ⟨written, hwrite, by rw [hreads.readFrom hstates.2],
    by rw [hreads.readFrom hstates.2, hreceived]⟩

/-- A call that has been shown can be relayed again. -/
theorem relayable_shown {call : Call} (h : Relayable parseDate call) :
    Relayable parseDate call.shown := by
  cases call with
  | outcome label test details =>
    cases details with
    | none => exact h
    | some details =>
      intro name content hlookup
      rw [lookup_shown, Option.map_eq_some_iff] at hlookup
      obtain ⟨before, hbefore, rfl⟩ := hlookup
      have hascii := h name before hbefore
      simpa [Content.written, Content.joined] using hascii
  | _ => exact h

theorem relayable_shownCalls {calls : List Call} (h : ∀ call ∈ calls, Relayable parseDate call) :
    ∀ call ∈ shownCalls calls, Relayable parseDate call := by
  intro call hcall
  obtain ⟨before, hbefore, rfl⟩ := List.mem_map.mp hcall
  exact relayable_shown (h before (List.mem_filter.mp hbefore).1)

end Relay

/-- **A stream can be relayed any number of times.** If no line of a stream raises and a client can
write all the calls that are read of it, what a chain of relays makes of it, each with its own
order of sets, is read as these calls, in their order, with the same ids, tags, times, progress
and details, the types of the details with their parameters as they are written; only changes of
tags that change none are gone. -/
theorem relays_received (parseDate : Bytes → Except Error DateTime)
    (traceback : String → List Bytes)
    {first : Finset Bytes → List Bytes} {hops : List (Finset Bytes → List Bytes)}
    (horder : ∀ setOrder ∈ first :: hops, ∀ tags, (setOrder tags).toFinset = tags) {pipe : Bytes}
    (hread : (Server.readFrom parseDate {} pipe).raised = none)
    (hcalls : ∀ call ∈ received (Server.readFrom parseDate {} pipe).outputs,
      Relayable parseDate call) :
    ∃ written, relays parseDate traceback (first :: hops) pipe = .ok written
      ∧ (Server.readFrom parseDate {} written).raised = none
      ∧ received (Server.readFrom parseDate {} written).outputs
        = shownCalls (received (Server.readFrom parseDate {} pipe).outputs) := by
  induction hops generalizing first pipe with
  | nil =>
    obtain ⟨written, hwritten, hread', hreceived⟩ :=
      @relay_received parseDate first traceback (horder first (by simp)) pipe hread hcalls
    exact ⟨written, by simp [relays, hwritten, bind, Except.bind], hread', hreceived⟩
  | cons second hops ih =>
    obtain ⟨written, hwritten, hread', hreceived⟩ :=
      @relay_received parseDate first traceback (horder first (by simp)) pipe hread hcalls
    obtain ⟨last, hlast, hread'', hreceived'⟩ := @ih second
      (fun setOrder h => horder setOrder (List.mem_cons_of_mem first h)) written hread'
      (by rw [hreceived]; exact relayable_shownCalls hcalls)
    refine ⟨last, ?_, hread'', ?_⟩
    · rw [relays, hwritten]
      exact hlast
    · rw [hreceived', hreceived, shownCalls_shownCalls]

/-- A parser of dates that knows one. -/
def sampleDate (text : Bytes) : Except Error DateTime :=
  if text = ascii "2000-01-01 00:00:00.000000Z" then .ok ⟨2000, 1, 1, 0, 0, 0, 0⟩
  else .error (.valueError (.text ""))

/-- A failure with a traceback, and notes around it. -/
def samplePipe : Bytes :=
  ascii "time: 2000-01-01 00:00:00.000000Z\ntest: a\nnoise\ntags: x -y\nprogress: +1\n"
    ++ ascii "failure: a [\nbad\n ]\n]\nprogress: pop\n"

theorem samplePipe_received :
    (Server.readFrom sampleDate {} samplePipe).raised = none
      ∧ received (Server.readFrom sampleDate {} samplePipe).outputs
        = [.time ⟨2000, 1, 1, 0, 0, 0, 0⟩, .startTest ⟨"a"⟩, .tags {"x"} {"y"},
          .progress (some 1) .cur,
          .outcome .failure ⟨"a"⟩ (some (DetailsParser.simpleDetails (ascii "bad\n]\n") none)),
          .stopTest ⟨"a"⟩, .progress none .pop] := by
  decide +kernel

theorem samplePipe_relayable :
    ∀ call ∈ received (Server.readFrom sampleDate {} samplePipe).outputs,
      Relayable sampleDate call := by
  have hword : HasWord ['a'] := by decide
  have htime : sampleDate (timeText ⟨2000, 1, 1, 0, 0, 0, 0⟩) = .ok ⟨2000, 1, 1, 0, 0, 0, 0⟩ := by
    decide +kernel
  rw [samplePipe_received.2]
  simp [Relayable, hword, htime, asciiDetails_simple]

theorem relays_received_session :
    ∃ written, relays sampleDate (fun _ => []) [Finset.toList, Finset.toList] samplePipe
        = .ok written
      ∧ (Server.readFrom sampleDate {} written).raised = none
      ∧ received (Server.readFrom sampleDate {} written).outputs
        = shownCalls (received (Server.readFrom sampleDate {} samplePipe).outputs) :=
  relays_received sampleDate (fun _ => []) (by simp) samplePipe_received.1 samplePipe_relayable

end Pysubunit.V1
