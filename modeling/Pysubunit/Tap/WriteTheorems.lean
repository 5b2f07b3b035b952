/-
Pysubunit.Tap.WriteTheorems — what `TAP2SubUnit` writes, read back.

The names of tests and bail-outs are cut out of the lines, so a script without U+0000
leads to events whose texts the parser takes back (`readsBack_events`). Every packet that
is written stands for one event: whether the function returns or raises, at the plan or at
an event too long for a packet, the bytes decode to the events that were emitted before.
-/
import Pysubunit.Tap.ResultLineTheorems
import Pysubunit.V2.TagStream

namespace Pysubunit.Tap

open ByteLib
open ByteLib.Pattern (mem_bind mem_pure mem_literal mem_many mem_many1 some_mem_optional
  none_mem_optional mem_of_first)
open V2 (StatusEvent TestStatus PartialWrites OutputStream Polls Encodable NulFree packetBytes
  delivered DecodesTo Written byteByByte inMemory)

/-! ## Names are cut out of the lines -/

theorem description_subset {groups : ResultLine} {line : List Char}
    (h : resultPattern.first line = some groups) {description : List Char}
    (hdescription : groups.description = some description) : description ⊆ line := by
  obtain ⟨rest, hmem⟩ := mem_of_first h
  simp only [resultPattern, mem_bind, mem_pure] at hmem
  obtain ⟨status, s1, hstatus, number, s2, hnumber, text, s3, htext, directive, s4, -, -, s5,
    -, rfl, -⟩ := hmem
  dsimp only at hdescription
  subst hdescription
  obtain ⟨front, rfl, -⟩ := mem_numberPattern hnumber
  have hline : s2 ⊆ line := by
    simp only [statusPattern, Pattern.mem_either, mem_literal] at hstatus
    rcases hstatus with ⟨-, rfl⟩ | ⟨-, rfl⟩ <;> exact fun c hc => by simp [hc]
  simp only [descriptionPattern, some_mem_optional, mem_bind, mem_many1, mem_many, mem_pure]
    at htext
  obtain ⟨gap, t1, ⟨rfl, -⟩, start, t2, ⟨rfl, -⟩, stop, t3, ⟨rfl, -⟩, blank, t4, ⟨rfl, -⟩, rfl,
    rfl⟩ :=
    htext
  refine fun c hc => hline ?_
  simp only [List.mem_append] at hc ⊢
  tauto

theorem reason_subset {reason line : List Char}
    (h : bailOutPattern.first line = some (some reason)) : reason ⊆ line := by
  obtain ⟨rest, hmem⟩ := mem_of_first h
  simp only [bailOutPattern, mem_bind, mem_literal, mem_pure] at hmem
  obtain ⟨-, s1, ⟨-, rfl⟩, group, s2, hgroup, -, s3, -, rfl, -⟩ := hmem
  simp only [some_mem_optional, mem_bind, mem_many] at hgroup
  obtain ⟨blank, t1, ⟨rfl, -⟩, rfl, -⟩ := hgroup
  intro c hc
  simp [hc]

theorem nulFree_ofList {cs : List Char} : NulFree (String.ofList cs) ↔ '\x00' ∉ cs := by
  rw [NulFree, String.toList_ofList]

theorem nulFree_toString (n : Nat) : NulFree (toString n) := by
  rw [Nat.toString_eq_ofList_toDigits, nulFree_ofList]
  intro hnul
  have hdigit := Nat.isDigit_of_mem_toDigits (by omega) (by omega) hnul
  revert hdigit
  decide

theorem nulFree_append {s t : String} (hs : NulFree s) (ht : NulFree t) : NulFree (s ++ t) := by
  rw [NulFree, String.toList_append, List.mem_append, not_or]
  exact ⟨hs, ht⟩

theorem nulFree_numberedName (number : Nat) {description : List Char}
    (h : '\x00' ∉ description) : NulFree (numberedName number description) :=
  nulFree_append (nulFree_append (by decide) (nulFree_toString number)) (nulFree_ofList.mpr h)

/-! ## Events that are read back -/

/-- The name that is held back has no zero in it. -/
def Locals.NameOk (t : Locals) : Prop := ∀ name ∈ t.testName, NulFree name

/-- The parser takes the event back as it is. -/
structure ReadsBack (e : StatusEvent) : Prop where
  encodable : Encodable e
  tags : e.testTags = none

theorem readsBack_missingTest (planStart : Nat) : ReadsBack (missingTest planStart) := by
  refine ⟨⟨fun s hs => ?_, by simp [missingTest], ?_, ?_, rfl, by simp [missingTest],
    by simp [missingTest]⟩, rfl⟩
  · cases hs
    exact nulFree_numberedName planStart (by simp)
  · rintro s ⟨⟩
    decide
  · rintro s ⟨⟩
    decide

theorem readsBack_fileSkip (comment : List Char) : ReadsBack (fileSkip comment) := by
  refine ⟨⟨?_, by simp [fileSkip], by simp [fileSkip], ?_, rfl, by simp [fileSkip],
    by simp [fileSkip]⟩, rfl⟩
  · rintro s ⟨⟩
    decide
  · rintro s ⟨⟩
    decide

theorem readsBack_stdOut (line : List Char) : ReadsBack (stdOut line) := by
  refine
    ⟨⟨by simp [stdOut], by simp [stdOut], ?_, ?_, rfl, by simp [stdOut], by simp [stdOut]⟩, rfl⟩
  · rintro s ⟨⟩
    decide
  · rintro s ⟨⟩
    decide

theorem readsBack_testEvent {testName : String} (h : NulFree testName)
    (result : Option TestStatus) (log : List (List Char)) :
    ReadsBack (testEvent testName result log) := by
  have hname : ∀ s ∈ some testName, NulFree s := by
    rintro s ⟨⟩
    exact h
  unfold testEvent
  split
  · exact ⟨⟨hname, by simp, by simp, by simp, rfl, by simp, by simp⟩, rfl⟩
  · refine ⟨⟨hname, by simp, ?_, ?_, rfl, by simp, by simp⟩, rfl⟩
    · rintro s ⟨⟩
      decide
    · rintro s ⟨⟩
      decide

namespace Locals

variable {t : Locals}

theorem readsBack_emitTest (ht : t.NameOk) {e : StatusEvent} (h : e ∈ t.emitTest.1) :
    ReadsBack e := by
  unfold emitTest at h
  split at h
  · simp at h
  · rename_i testName hname
    rw [List.mem_singleton] at h
    rw [h]
    exact readsBack_testEvent (ht testName hname) _ _

theorem readsBack_missingTests {planStart stop : Nat} {e : StatusEvent}
    (h : e ∈ missingTests planStart stop) : ReadsBack e := by
  obtain ⟨n, -, rfl⟩ := List.mem_map.mp h
  exact readsBack_missingTest n

/-- A line without U+0000 leads to events that are read back, and to another such
name held back. -/
theorem handle_readsBack (ht : t.NameOk) {line : List Char} (hline : '\x00' ∉ line) :
    (∀ e ∈ (t.handle line).1, ReadsBack e)
      ∧ ∀ t', (t.handle line).2 = .ok t' → t'.NameOk := by
  have hmatches := readLine_matches t.state line
  unfold handle
  generalize readLine t.state line = reading at hmatches
  cases reading with
  | plan planStop comment =>
    dsimp only
    unfold plan
    dsimp only
    split
    · cases comment with
      | none => exact ⟨by simp, by simp⟩
      | some comment =>
        refine ⟨fun e he => ?_, ?_⟩
        · rw [List.mem_singleton.mp he]
          exact readsBack_fileSkip comment
        · rintro t' ⟨⟩
          exact ht
    · refine ⟨by simp, ?_⟩
      rintro t' ⟨⟩
      exact ht
  | result groups =>
    dsimp only
    refine ⟨fun e he => ?_, ?_⟩
    · rcases List.mem_append.mp he with he | he
      · exact readsBack_emitTest ht he
      · exact readsBack_missingTests he
    · rintro t' ⟨⟩ name ⟨⟩
      refine nulFree_numberedName _ ?_
      unfold ResultLine.suffix
      cases hdescription : groups.description with
      | none => simp
      | some description =>
        have hsubset := description_subset hmatches hdescription
        have hnul : '\x00' ∉ description := fun hnul => hline (hsubset hnul)
        simp [hnul]
  | bailOut reason =>
    dsimp only
    refine ⟨fun e he => readsBack_emitTest ht he, ?_⟩
    rintro t' ⟨⟩ name ⟨⟩
    refine nulFree_append (by decide) (nulFree_ofList.mpr ?_)
    cases reason with
    | none => simp
    | some reason =>
      have hnul : '\x00' ∉ reason := fun hnul => hline (reason_subset hmatches.2 hnul)
      simp [hnul]
  | comment =>
    refine ⟨by simp, ?_⟩
    rintro t' ⟨⟩
    exact ht
  | other =>
    refine ⟨fun e he => ?_, ?_⟩
    · rw [List.mem_singleton.mp he]
      exact readsBack_stdOut line
    · rintro t' ⟨⟩
      exact ht

/-- Every event of a script without U+0000 is read back as it is. -/
theorem readsBack_events (ht : t.NameOk) {tap : List (List Char)}
    (htap : ∀ line ∈ tap, '\x00' ∉ line) {e : StatusEvent} (h : e ∈ (t.events tap).1) :
    ReadsBack e := by
  induction tap generalizing t with
  | nil =>
    rcases List.mem_append.mp h with h | h
    · exact readsBack_emitTest ht h
    · exact readsBack_missingTests h
  | cons line tap ih =>
    obtain ⟨hline, hrest⟩ := List.forall_mem_cons.mp htap
    obtain ⟨hevents, hnext⟩ := handle_readsBack ht hline
    cases hok : (t.handle line).2 with
    | error x =>
      rw [events_of_error hok] at h
      exact hevents e h
    | ok t' =>
      rw [events_of_ok hok, List.mem_append] at h
      exact h.elim (hevents e) (ih (hnext t' hok) hrest)

end Locals

/-! ## The stream -/

/-- What is written is the packets of the events up to the first that does not fit. -/
theorem writeAll_packets {events : List StatusEvent} (h : ∀ e ∈ events, IsTapEvent e)
    (w : PartialWrites) (out : OutputStream) :
    (writeAll w out events).2.written
      = out.written
        ++ (events.takeWhile fun e => decide (Fits e)).flatMap (packetBytes ∘ statusCall) := by
  induction events generalizing out with
  | nil => simp [writeAll]
  | cons e events ih =>
    rw [List.forall_mem_cons] at h
    rcases V2.status_written w out h.1.writable with
      ⟨hfits, hok, hwritten⟩ | ⟨hlong, ⟨m, herror⟩, hout⟩
    · have hfits' : Fits e := hfits
      cases hstatus : V2.status w out (statusCall e) with
      | mk result out' =>
      rw [hstatus] at hok hwritten
      dsimp only at hok hwritten
      subst hok
      rw [List.takeWhile_cons_of_pos (by simpa using hfits'), List.flatMap_cons]
      simp only [writeAll, hstatus]
      rw [ih h.2, hwritten, List.append_assoc]
      rfl
    · have hlong' : ¬ Fits e := Nat.not_le_of_lt hlong
      cases hstatus : V2.status w out (statusCall e) with
      | mk result out' =>
      rw [hstatus] at herror hout
      dsimp only at herror hout
      subst herror hout
      rw [List.takeWhile_cons_of_neg (by simpa using hlong')]
      simp [writeAll, hstatus]

/-- Nothing becomes of an event without tags on the way. -/
theorem event_statusCall {e : StatusEvent} (h : e.testTags = none) :
    (statusCall e).event = e ∧ delivered e = e := by
  cases e
  cases h
  exact ⟨rfl, rfl⟩

/-- The stream of what was written. -/
theorem tap2SubUnit_written (w : PartialWrites) (tap : List (List Char)) :
    (tap2SubUnit w {} tap).2.written = (emitted tap).flatMap (packetBytes ∘ statusCall) := by
  have hall : ∀ e ∈ (Locals.events {} tap).1, IsTapEvent e := fun e he =>
    Locals.isTapEvent_events he
  have hpackets := writeAll_packets hall w {}
  rw [← emitted_eq, List.nil_append] at hpackets
  unfold tap2SubUnit
  dsimp only
  cases hwrite : writeAll w {} (Locals.events {} tap).1 with
  | mk result out =>
  rw [hwrite] at hpackets
  cases result <;> exact hpackets

/-- The bytes decode to the events that were emitted. -/
theorem emitted_decodes (w : PartialWrites) (polls : Polls) (name : Option String)
    {tap : List (List Char)} (htap : ∀ line ∈ tap, '\x00' ∉ line) :
    DecodesTo polls name (tap2SubUnit w {} tap).2.written (emitted tap) := by
  have hreads : ∀ e ∈ emitted tap, ReadsBack e ∧ Written (statusCall e) := by
    intro e he
    rw [emitted_eq] at he
    have hevent := List.takeWhile_subset _ he
    have hfits : Fits e := by simpa using List.mem_takeWhile_imp he
    exact ⟨Locals.readsBack_events (by simp [Locals.NameOk]) htap hevent,
      V2.written_iff.mpr ⟨(Locals.isTapEvent_events hevent).writable, hfits⟩⟩
  have hcalls : ∀ call ∈ (emitted tap).map statusCall, Written call ∧ Encodable call.event := by
    intro call hmem
    obtain ⟨e, he, rfl⟩ := List.mem_map.mp hmem
    rw [(event_statusCall (hreads e he).1.tags).1]
    exact ⟨(hreads e he).2, (hreads e he).1.encodable⟩
  have hdelivered : ((emitted tap).map statusCall).map (fun call => delivered call.event)
      = emitted tap := by
    rw [List.map_map]
    refine (List.map_congr_left fun e he => ?_).trans (List.map_id _)
    obtain ⟨hevent, hdelivered⟩ := event_statusCall (hreads e he).1.tags
    rw [Function.comp_apply, hevent, hdelivered]
    rfl
  obtain ⟨hevents, hresult⟩ := V2.run_packets polls name
    (rfl : ({} : V2.Codec).midCharacter = false) _ hcalls []
  rw [List.append_nil, V2.runFrom_nil, List.flatMap_map] at hevents hresult
  unfold DecodesTo
  rw [tap2SubUnit_written, V2.run_eq_runFrom, V2.RunResult.events]
  rw [hdelivered] at hevents
  exact ⟨congrArg (Except.map fun s => s.source) hresult, hevents.trans (List.append_nil _)⟩

/-- **What is written is what was emitted.** Of a script without U+0000 the bytes decode to the
events, in order and field for field, whether the function has come to its end or was left by
an exception; when it returns, these are all the events of the script. -/
theorem tap2SubUnit_decodes (w : PartialWrites) (polls : Polls) (name : Option String)
    {tap : List (List Char)} (htap : ∀ line ∈ tap, '\x00' ∉ line) :
    DecodesTo polls name (tap2SubUnit w {} tap).2.written (emitted tap)
    ∧ ((tap2SubUnit w {} tap).1 = .ok 0 → emitted tap = (Locals.events {} tap).1) :=
  ⟨emitted_decodes w polls name htap, emitted_of_ok⟩

/-- A result line, a comment and a bail-out. -/
def bailedOut : List (List Char) :=
  ["ok 1 - a\n".toList, "# b\n".toList, "Bail out! c\n".toList]

theorem tap2SubUnit_decodes_bailedOut :
    DecodesTo inMemory none (tap2SubUnit byteByByte {} bailedOut).2.written (emitted bailedOut)
    ∧ ((tap2SubUnit byteByByte {} bailedOut).1 = .ok 0 →
      emitted bailedOut = (Locals.events {} bailedOut).1) :=
  tap2SubUnit_decodes byteByByte inMemory none (by decide)

end Pysubunit.Tap
