/-
Pysubunit.Output.StreamResults — `generate_stream_results` (`_output.py`): a file is
attached to a test in several status events.

The loop keeps one hunk ahead, to know which event is the last. An event is the
arguments that `partial` has collected for `output_writer.status`; what the writer
does with it is not part of the loop. The file is read by a reader that may return
less than it is asked for (`ShortReads`). The loop ends because every pass but the
last uses up a hunk (`hunkLoop`).

`generateStreamResults_splits` says what the events come to.
-/
import Pysubunit.ByteLib.Loop
import Pysubunit.V2.Event

namespace Pysubunit.Output

open ByteLib
open V2 (StatusEvent TestStatus DateTime)

/-! ## Arguments -/

/-- An open file. -/
structure File where
  name : String
  content : Bytes
  deriving DecidableEq

/-- The options that are read, with the attached file open. (There is one kind of
command line on which `parse_arguments` leaves `attach_file` a text, which has no
`read`: `Parsed.text`.) -/
structure Args where
  action : Option TestStatus := none
  testId : Option String := none
  tags : List String := []
  mimetype : Option String := none
  fileName : Option String := none
  attachFile : Option File := none

/-- `_FINAL_ACTIONS` -/
def finalActions : List TestStatus := [.exists, .fail, .skip, .success, .uxsuccess, .xfail]

/-- An optional text as a truth value. -/
def isTrue : Option String → Bool
  | none => false
  | some text => text ≠ ""

namespace Args

variable (args : Args)

/-- `args.action in _FINAL_ACTIONS` -/
def isFinal : Bool := args.action.any fun action => action ∈ finalActions

/-- `args.file_name or args.attach_file.name` -/
def shownName (file : File) : String :=
  match args.fileName with
  | none => file.name
  | some fileName => if fileName = "" then file.name else fileName

end Args

/-! ## Reading -/

/-- How much of what there is a read returns: at call number `call`, where at most
`most > 0` bytes can be had, at least one and at most all of them. -/
structure ShortReads where
  amount : Nat → Nat → Nat
  reads_one : ∀ call most, 0 < most → 1 ≤ amount call most
  reads_at_most : ∀ call most, amount call most ≤ most

/-- What is left of a file, and how often it was read. -/
structure Source where
  rest : Bytes
  calls : Nat := 0

/-- `attach_file.read(size)` -/
def Source.read (r : ShortReads) (size : Nat) (source : Source) : Bytes × Source :=
  let n := r.amount source.calls (min size source.rest.length)
  (source.rest.take n, { rest := source.rest.drop n, calls := source.calls + 1 })

theorem Source.read_append (r : ShortReads) (size : Nat) (source : Source) :
    (source.read r size).1 ++ (source.read r size).2.rest = source.rest :=
  List.take_append_drop _ _

theorem Source.length_read_le (r : ShortReads) (size : Nat) (source : Source) :
    (source.read r size).1.length ≤ size := by
  have h := r.reads_at_most source.calls (min size source.rest.length)
  simp only [Source.read, List.length_take]
  omega

/-- Nothing is read at the end of the file only, and nothing is left there. -/
theorem Source.rest_eq_nil (r : ShortReads) {size : Nat} (hsize : 0 < size) {source : Source}
    (h : (source.read r size).1 = []) : (source.read r size).2.rest = [] := by
  have hrest : source.rest = [] := by
    by_contra hne
    have hpos : 0 < min size source.rest.length := by
      have := List.length_pos_iff.mpr hne
      omega
    have hone := r.reads_one source.calls _ hpos
    have hlen := congrArg List.length h
    simp only [Source.read, List.length_take, List.length_nil] at hlen
    omega
  simp [Source.read, hrest]

/-! ## The loop -/

/-- The variables of the loop. -/
structure Hunks where
  isFirstPacket : Bool := true
  thisFileHunk : Bytes := []
  nextFileHunk : Bytes := []
  source : Source

section

variable (r : ShortReads) (chunkSize : Nat) (now : DateTime) (args : Args)

/-- What only the first event has. -/
def firstPacket (e : StatusEvent) : StatusEvent :=
  let e := if args.attachFile.isSome && isTrue args.mimetype then
    { e with mimeType := args.mimetype } else e
  let e := if args.tags.isEmpty then e else { e with testTags := some args.tags.toFinset }
  let e := { e with timestamp := some now }
  if args.isFinal then e else { e with testStatus := args.action }

/-- What an event has whose `isLastPacket` is known. -/
def anyPacket (isLastPacket : Bool) (e : StatusEvent) : StatusEvent :=
  let e := if isTrue args.testId then { e with testId := args.testId } else e
  if isLastPacket && args.isFinal then { e with testStatus := args.action } else e

/-- The body of the loop. -/
def hunkPass (s : Hunks) : List StatusEvent × Pass Hunks Empty :=
  let e := if s.isFirstPacket then firstPacket now args {} else {}
  match args.attachFile with
  | none => ([anyPacket args true e], .stop)
  | some file =>
    let e := { e with fileName := some (args.shownName file), fileBytes := some s.thisFileHunk }
    if s.nextFileHunk = [] then ([anyPacket args true { e with eof := true }], .stop)
    else
      let (hunk, source) := s.source.read r chunkSize
      ([anyPacket args false e],
        .again {
          isFirstPacket := false
          thisFileHunk := s.nextFileHunk
          nextFileHunk := hunk
          source })

/-- `while not is_last_packet` -/
def hunkLoop : Loop Hunks StatusEvent Empty where
  body := hunkPass r chunkSize now args
  size s := s.nextFileHunk.length + s.source.rest.length
  shrinks := by
    intro s s' h
    unfold hunkPass at h
    cases hfile : args.attachFile with
    | none =>
      rw [hfile] at h
      cases h
    | some file =>
      rw [hfile] at h
      dsimp only at h
      by_cases hlast : s.nextFileHunk = []
      · rw [if_pos hlast] at h
        cases h
      · rw [if_neg hlast] at h
        cases h
        have hpos := List.length_pos_iff.mpr hlast
        have hread := congrArg List.length (s.source.read_append r chunkSize)
        rw [List.length_append] at hread
        dsimp only
        omega

/-- The events of `generate_stream_results(args, output_writer)`, which go to the writer
between `startTestRun` and `stopTestRun`. -/
def generateStreamResults : List StatusEvent :=
  match args.attachFile with
  | none => ((hunkLoop r chunkSize now args).run { source := { rest := [] } }).1
  | some file =>
    let (thisFileHunk, source) := Source.read r chunkSize { rest := file.content }
    let (nextFileHunk, source) := source.read r chunkSize
    ((hunkLoop r chunkSize now args).run { thisFileHunk, nextFileHunk, source }).1

end

/-! ## The events -/

section

variable (now : DateTime) (args : Args) (file : File)

/-- The event of a hunk. -/
def hunkEvent (first last : Bool) (hunk : Bytes) : StatusEvent where
  testId := if isTrue args.testId then args.testId else none
  testStatus := if args.isFinal then (if last then args.action else none)
    else if first then args.action else none
  testTags := if first && !args.tags.isEmpty then some args.tags.toFinset else none
  fileName := some (args.shownName file)
  fileBytes := some hunk
  eof := last
  mimeType := if first && isTrue args.mimetype then args.mimetype else none
  timestamp := if first then some now else none

/-- The events of the hunks of a file. -/
def hunkEvents : Bool → List Bytes → List StatusEvent
  | _, [] => []
  | first, [hunk] => [hunkEvent now args file first true hunk]
  | first, hunk :: hunk' :: hunks =>
    hunkEvent now args file first false hunk :: hunkEvents false (hunk' :: hunks)

end

variable {r : ShortReads} {chunkSize : Nat} {now : DateTime} {args : Args} {file : File}

/-- What the arguments of the first event and of any event come to. -/
theorem anyPacket_eq (hfile : args.attachFile = some file) (first last : Bool) (hunk : Bytes) :
    anyPacket args last
        { (if first then firstPacket now args {} else {}) with
          fileName := some (args.shownName file), fileBytes := some hunk, eof := last }
      = hunkEvent now args file first last hunk := by
  unfold anyPacket firstPacket hunkEvent
  rw [hfile]
  cases first <;> cases last <;> cases args.isFinal <;> cases args.tags.isEmpty <;>
    cases isTrue args.testId <;> cases isTrue args.mimetype <;> rfl

/-- A pass that is the last. -/
theorem hunkPass_last (hfile : args.attachFile = some file) {s : Hunks} (h : s.nextFileHunk = []) :
    hunkPass r chunkSize now args s
      = ([hunkEvent now args file s.isFirstPacket true s.thisFileHunk], .stop) := by
  rw [← anyPacket_eq hfile, hunkPass, hfile]
  dsimp only
  rw [if_pos h]

/-- A pass that is not. -/
theorem hunkPass_again (hfile : args.attachFile = some file) {s : Hunks} (h : s.nextFileHunk ≠ []) :
    hunkPass r chunkSize now args s
      = ([hunkEvent now args file s.isFirstPacket false s.thisFileHunk],
        .again {
          isFirstPacket := false
          thisFileHunk := s.nextFileHunk
          nextFileHunk := (s.source.read r chunkSize).1
          source := (s.source.read r chunkSize).2 }) := by
  have heof : (if s.isFirstPacket = true then firstPacket now args {} else {}).eof = false := by
    unfold firstPacket
    cases s.isFirstPacket <;> cases args.isFinal <;> cases args.tags.isEmpty <;>
      cases args.attachFile.isSome && isTrue args.mimetype <;> rfl
  rw [← anyPacket_eq hfile, hunkPass, hfile]
  dsimp only
  rw [if_neg h, heof]

/-- The next hunk is short, and empty only at the end of the file. -/
structure Hunks.Ready (chunkSize : Nat) (s : Hunks) : Prop where
  length_le : s.nextFileHunk.length ≤ chunkSize
  at_end : s.nextFileHunk = [] → s.source.rest = []

/-- The loop cuts what is left into hunks. -/
theorem hunkLoop_run (hsize : 0 < chunkSize) (hfile : args.attachFile = some file) (s : Hunks)
    (hready : s.Ready chunkSize) :
    ∃ hunks : List Bytes, hunks.flatten = s.nextFileHunk ++ s.source.rest
      ∧ (∀ hunk ∈ hunks, hunk.length ≤ chunkSize)
      ∧ ((hunkLoop r chunkSize now args).run s).1
        = hunkEvents now args file s.isFirstPacket (s.thisFileHunk :: hunks) := by
  induction s using (hunkLoop r chunkSize now args).induct with
  | h s ih =>
    by_cases hlast : s.nextFileHunk = []
    · have hpass : (hunkLoop r chunkSize now args).body s = _ := hunkPass_last hfile hlast
      rw [Loop.run_stop (by rw [hpass]), hpass]
      exact ⟨[], by simp [hlast, hready.at_end hlast], by simp, rfl⟩
    · have hpass : (hunkLoop r chunkSize now args).body s = _ := hunkPass_again hfile hlast
      have hread := s.source.read_append r chunkSize
      obtain ⟨hunks, hflat, hall, hrun⟩ := ih _ (by rw [hpass])
        ⟨s.source.length_read_le r chunkSize, s.source.rest_eq_nil r hsize⟩
      refine ⟨s.nextFileHunk :: hunks, ?_, ?_, ?_⟩
      · rw [List.flatten_cons, hflat, hread]
      · rw [List.forall_mem_cons]
        exact ⟨hready.length_le, hall⟩
      · rw [Loop.run_again (by rw [hpass]), hpass, hrun]
        rfl

theorem hunkEvents_map {α : Type} {f : StatusEvent → α} {g : Bytes → α}
    (h : ∀ first last hunk, f (hunkEvent now args file first last hunk) = g hunk) (first : Bool)
    (hunks : List Bytes) : (hunkEvents now args file first hunks).map f = hunks.map g := by
  induction hunks generalizing first with
  | nil => rfl
  | cons hunk hunks ih =>
    cases hunks with
    | nil => simp [hunkEvents, h]
    | cons hunk' hunks =>
      rw [hunkEvents, List.map_cons, h, ih]
      rfl

/-- What only the first event has. -/
theorem hunkEvents_map_first {α : Type} {f : StatusEvent → α} {x y : α}
    (h : ∀ first last hunk, f (hunkEvent now args file first last hunk) = if first then x else y)
    (hunk : Bytes) (hunks : List Bytes) :
    (hunkEvents now args file true (hunk :: hunks)).map f = x :: List.replicate hunks.length y := by
  have hlater : ∀ hunks, (hunkEvents now args file false hunks).map f
      = List.replicate hunks.length y := by
    intro hunks
    induction hunks with
    | nil => rfl
    | cons hunk hunks ih =>
      cases hunks with
      | nil => simp [hunkEvents, h]
      | cons hunk' hunks =>
        rw [hunkEvents, List.map_cons, h, ih]
        rfl
  cases hunks with
  | nil => simp [hunkEvents, h]
  | cons hunk' hunks =>
    rw [hunkEvents, List.map_cons, h, hlater]
    rfl

/-- What only the last event has. -/
theorem hunkEvents_map_last {α : Type} {f : StatusEvent → α} {x y : α}
    (h : ∀ first last hunk, f (hunkEvent now args file first last hunk) = if last then x else y)
    (first : Bool) (hunk : Bytes) (hunks : List Bytes) :
    (hunkEvents now args file first (hunk :: hunks)).map f = List.replicate hunks.length y ++ [x] := by
  induction hunks generalizing first hunk with
  | nil => simp [hunkEvents, h]
  | cons hunk' hunks ih =>
    rw [hunkEvents, List.map_cons, h, ih]
    rfl

/-- `f` is `x` of the first event and `y` of all others. -/
def OnFirst {α : Type} (f : StatusEvent → α) (x y : α) (events : List StatusEvent) : Prop :=
  events.map f = x :: List.replicate (events.length - 1) y

/-- `f` is `x` of the last event and `y` of all others. -/
def OnLast {α : Type} (f : StatusEvent → α) (x y : α) (events : List StatusEvent) : Prop :=
  events.map f = List.replicate (events.length - 1) y ++ [x]

theorem length_hunkEvents (first : Bool) (hunks : List Bytes) :
    (hunkEvents now args file first hunks).length = hunks.length := by
  have h := congrArg List.length (@hunkEvents_map now args file Unit (fun _ => ()) (fun _ => ())
    (fun _ _ _ => rfl) first hunks)
  simpa using h

/-- The events of a file, from its hunks. -/
theorem generateStreamResults_hunks (hsize : 0 < chunkSize) (hfile : args.attachFile = some file) :
    ∃ hunk hunks, (hunk :: hunks).flatten = file.content
      ∧ (∀ h ∈ hunk :: hunks, h.length ≤ chunkSize)
      ∧ generateStreamResults r chunkSize now args = hunkEvents now args file true (hunk :: hunks) := by
  let first := Source.read r chunkSize { rest := file.content }
  let second := first.2.read r chunkSize
  have hready : Hunks.Ready chunkSize
      { thisFileHunk := first.1, nextFileHunk := second.1, source := second.2 } :=
    ⟨first.2.length_read_le r chunkSize, first.2.rest_eq_nil r hsize⟩
  obtain ⟨hunks, hflat, hall, hrun⟩ := @hunkLoop_run r chunkSize now args file hsize hfile _ hready
  have hfirst := Source.read_append r chunkSize { rest := file.content }
  have hsecond := first.2.read_append r chunkSize
  refine ⟨first.1, hunks, ?_, ?_, ?_⟩
  · rw [List.flatten_cons, hflat, hsecond]
    exact hfirst
  · rw [List.forall_mem_cons]
    exact ⟨Source.length_read_le r chunkSize _, hall⟩
  · unfold generateStreamResults
    rw [hfile]
    exact hrun

theorem mem_hunkEvents {first : Bool} {hunks : List Bytes} {e : StatusEvent}
    (h : e ∈ hunkEvents now args file first hunks) :
    ∃ first last, ∃ hunk ∈ hunks, e = hunkEvent now args file first last hunk := by
  induction hunks generalizing first with
  | nil => cases h
  | cons hunk hunks ih =>
    cases hunks with
    | nil => exact ⟨first, true, hunk, List.mem_cons_self, List.mem_singleton.mp h⟩
    | cons hunk' hunks =>
      rcases List.mem_cons.mp h with rfl | h
      · exact ⟨first, false, hunk, List.mem_cons_self, rfl⟩
      · obtain ⟨first', last, x, hx, rfl⟩ := ih h
        exact ⟨first', last, x, List.mem_cons_of_mem hunk hx, rfl⟩

/-- The one event without a file. -/
theorem generateStreamResults_none (hfile : args.attachFile = none) :
    generateStreamResults r chunkSize now args
      = [{ testId := if isTrue args.testId then args.testId else none
           testStatus := args.action
           testTags := if args.tags = [] then none else some args.tags.toFinset
           timestamp := some now }] := by
  have hpass : ∀ s : Hunks, s.isFirstPacket = true →
      (hunkLoop r chunkSize now args).body s
        = ([anyPacket args true (firstPacket now args {})], .stop) := by
    intro s hs
    show hunkPass r chunkSize now args s = _
    unfold hunkPass
    rw [hfile, hs]
    rfl
  have htags : (if args.tags = [] then none else some args.tags.toFinset)
      = if args.tags.isEmpty then none else some args.tags.toFinset := by
    simp [List.isEmpty_iff]
  unfold generateStreamResults
  rw [hfile]
  dsimp only
  rw [Loop.run_stop (by rw [hpass _ rfl]), hpass _ rfl, htags]
  unfold anyPacket firstPacket
  rw [hfile]
  cases args.isFinal <;> cases args.tags.isEmpty <;> cases isTrue args.testId <;> rfl

/-- **How a file is split.** With a file, its content is spread over the events in
order; without one there is one event. The time stamp, the tags and the MIME type are
on the first event only, the end of the file is on the last only, and so is a final
action; any other action is on the first. -/
theorem generateStreamResults_splits (r : ShortReads) {chunkSize : Nat} (hsize : 0 < chunkSize)
    (now : DateTime) (args : Args) :
    let events := generateStreamResults r chunkSize now args
    events ≠ []
    ∧ (∀ e ∈ events, e.testId = if isTrue args.testId then args.testId else none)
    ∧ OnFirst (·.timestamp) (some now) none events
    ∧ OnFirst (·.testTags) (if args.tags = [] then none else some args.tags.toFinset) none events
    ∧ (if args.isFinal then OnLast (·.testStatus) args.action none events
      else OnFirst (·.testStatus) args.action none events)
    ∧ (args.attachFile = none → events.length = 1)
    ∧ ∀ file, args.attachFile = some file →
      (events.map fun e => e.fileBytes.getD []).flatten = file.content
      ∧ (∀ e ∈ events, ∃ hunk, e.fileBytes = some hunk ∧ hunk.length ≤ chunkSize)
      ∧ (∀ e ∈ events, e.fileName = some (args.shownName file))
      ∧ OnFirst (·.mimeType) (if isTrue args.mimetype then args.mimetype else none) none events
      ∧ OnLast (·.eof) true false events := by
  intro events
  cases hfile : args.attachFile with
  | none =>
    have hevents : events = _ := generateStreamResults_none hfile
    rw [hevents]
    refine ⟨by simp, by simp, rfl, rfl, ?_, fun _ => rfl, fun file h => by cases h⟩
    split
    · rfl
    · rfl
  | some file =>
    obtain ⟨hunk, hunks, hflat, hall, hevents'⟩ :=
      @generateStreamResults_hunks r chunkSize now args file hsize hfile
    have hevents : events = hunkEvents now args file true (hunk :: hunks) := hevents'
    have hlength : events.length - 1 = hunks.length := by
      rw [hevents, length_hunkEvents]
      rfl
    have honFirst : ∀ {α : Type} {f : StatusEvent → α} {x y : α},
        (∀ first last hunk, f (hunkEvent now args file first last hunk) = if first then x else y) →
        OnFirst f x y events := by
      intro α f x y h
      rw [OnFirst, hlength, hevents, hunkEvents_map_first h]
    have honLast : ∀ {α : Type} {f : StatusEvent → α} {x y : α},
        (∀ first last hunk, f (hunkEvent now args file first last hunk) = if last then x else y) →
        OnLast f x y events := by
      intro α f x y h
      rw [OnLast, hlength, hevents, hunkEvents_map_last h]
    refine ⟨?_, ?_, honFirst fun _ _ _ => rfl, honFirst ?_, ?_, by simp, ?_⟩
    · intro hnil
      rw [hevents] at hnil
      have := congrArg List.length hnil
      rw [length_hunkEvents] at this
      cases this
    · intro e he
      rw [hevents] at he
      obtain ⟨first, last, x, -, rfl⟩ := mem_hunkEvents he
      rfl
    · intro first last x
      cases htags : args.tags <;> cases first <;> simp [hunkEvent, htags]
    · by_cases hfinal : args.isFinal = true
      · rw [if_pos hfinal]
        exact honLast fun first last x => by simp [hunkEvent, hfinal]
      · rw [if_neg hfinal]
        exact honFirst fun first last x => by simp [hunkEvent, hfinal]
    · intro file' hfile'
      cases hfile'
      refine ⟨?_, ?_, ?_, honFirst ?_, honLast fun first last x => by cases last <;> rfl⟩
      · rw [hevents, hunkEvents_map (g := id) fun _ _ _ => rfl, List.map_id, hflat]
      · intro e he
        rw [hevents] at he
        obtain ⟨first, last, x, hx, rfl⟩ := mem_hunkEvents he
        exact ⟨x, rfl, hall x hx⟩
      · intro e he
        rw [hevents] at he
        obtain ⟨first, last, x, -, rfl⟩ := mem_hunkEvents he
        rfl
      · intro first last x
        cases first <;> rfl

theorem one_le_amount (_call most : Nat) (h : 0 < most) : 1 ≤ min 1 most := by omega

theorem amount_le_most (_call most : Nat) : min 1 most ≤ most := by omega

/-- A reader that returns one byte at a time. -/
def oneByOne : ShortReads where
  amount _ most := min 1 most
  reads_one := one_le_amount
  reads_at_most := amount_le_most

theorem generateStreamResults_two :
    (generateStreamResults oneByOne 4 ⟨0⟩
      { action := some .fail, testId := some "t", attachFile := some ⟨"f", [72, 105]⟩ }).length = 2
    ∧ OnLast (·.eof) true false (generateStreamResults oneByOne 4 ⟨0⟩
      { action := some .fail, testId := some "t", attachFile := some ⟨"f", [72, 105]⟩ }) := by
  obtain ⟨-, -, -, -, -, -, hfile⟩ := @generateStreamResults_splits oneByOne 4 (by omega) ⟨0⟩
    { action := some .fail, testId := some "t", attachFile := some ⟨"f", [72, 105]⟩ }
  exact ⟨by decide +kernel, (hfile _ rfl).2.2.2.2⟩

end Pysubunit.Output
