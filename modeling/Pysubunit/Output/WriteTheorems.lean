/-
Pysubunit.Output.WriteTheorems — `output_main` (`_output.py`): the events of a file on
their way through `StreamResultToBytes` and back.

`parse_arguments` opens the attached file, unless it is `-` and has a name: then it stays a
text, and the program ends at its `read` (`parseArguments_text`). A chunk of 3.5 MiB leaves
little more than half a MiB of a packet for everything else. `metadataSize` is the room that
the texts of the command line take, and `outputMain_decodes` says that the file arrives whole
when they fit beside a chunk.
-/
import Pysubunit.Output.StreamResults
import Pysubunit.V2.WriteAll

namespace Pysubunit.Output

open ByteLib
open V2 (StatusEvent TestStatus DateTime PartialWrites OutputStream TagOrders Polls Encodable Fits
  NulFree DecodesTo delivered toBytes textSize tagsSize timestampSize contentSize fieldsSize)

/-! ## The command line -/

/-- The options as the option parser has collected them. -/
structure Options where
  action : Option TestStatus := none
  testId : Option String := none
  tags : List String := []
  mimetype : Option String := none
  fileName : Option String := none
  attachFile : Option String := none

/-- What `parse_arguments` returns: `attach_file` is an open file or nothing, or still
the text that was given. -/
inductive Parsed where
  | args (args : Args)
  | text (attachFile : String)

/-- The options with that file, under another name perhaps. -/
def Options.args (options : Options) (fileName : Option String) (attachFile : Option File) :
    Args where
  action := options.action
  testId := options.testId
  tags := options.tags
  mimetype := options.mimetype
  fileName
  attachFile

/-- `parse_arguments`, behind `parser.parse_args(args)`: the options, or the message of
`parser.error`. The disk tells a file's content or the `strerror` of its opening. With `-`
standard input is attached where it also gets its name, and nowhere else. -/
def parseArguments (disk : String → Except String Bytes) (stdin : Bytes) (options : Options) :
    Except String Parsed :=
  if isTrue options.mimetype && !isTrue options.attachFile then
    .error "Cannot specify --mimetype without --attach-file"
  else if isTrue options.fileName && !isTrue options.attachFile then
    .error "Cannot specify --file-name without --attach-file"
  else
    match options.attachFile with
    | none => .ok (.args (options.args options.fileName none))
    | some path =>
      if path = "" then .ok (.args (options.args options.fileName none))
      else if path = "-" then
        if isTrue options.fileName then .ok (.text path)
        else .ok (.args (options.args (some "stdin") (some ⟨"<stdin>", stdin⟩)))
      else
        match disk path with
        | .ok content => .ok (.args (options.args options.fileName (some ⟨path, content⟩)))
        | .error strerror => .error ("Cannot open " ++ path ++ " (" ++ strerror ++ ")")

/-- Standard input cannot be given a name. -/
theorem parseArguments_text {disk : String → Except String Bytes} {stdin : Bytes}
    {options : Options} {parsed : Parsed} (h : parseArguments disk stdin options = .ok parsed) :
    (∃ attachFile, parsed = .text attachFile)
      ↔ options.attachFile = some "-" ∧ isTrue options.fileName = true := by
  unfold parseArguments at h
  split at h
  · cases h
  · split at h
    · cases h
    · split at h
      · rename_i hnone
        cases h
        simp [hnone]
      · rename_i path hpath
        split at h
        · rename_i hempty
          cases h
          simp [hpath, hempty]
        · split at h
          · rename_i hdash
            subst hdash
            split at h
            · rename_i hname
              cases h
              simp [hpath, hname]
            · rename_i hname
              cases h
              simp [hname]
          · rename_i hdash
            split at h
            · cases h
              simp [hpath, hdash]
            · cases h

/-! ## The program -/

/-- `_CHUNK_SIZE` -/
def chunkSize : Nat := 3670016

/-- How the program ends. -/
inductive Exit where
  | returns
  /-- `parser.error(message)` -/
  | usage (message : String)
  | raises (e : V2.Error)
  | attributeError (message : String)

/-- `output_main`: how it ends, and what was written. -/
def outputMain (disk : String → Except String Bytes) (stdin : Bytes) (r : ShortReads)
    (orders : TagOrders) (w : PartialWrites) (now : DateTime) (options : Options) :
    Exit × OutputStream :=
  match parseArguments disk stdin options with
  | .error message => (.usage message, {})
  | .ok (.text _) => (.attributeError "'str' object has no attribute 'read'", {})
  | .ok (.args args) =>
    let written := forEach (toBytes orders w) (0, {}) (generateStreamResults r chunkSize now args)
    match written.2 with
    | none => (.returns, written.1.2)
    | some e => (.raises e, written.1.2)

/-! ## Arguments that a packet can hold -/

/-- The room that a text takes when it is given. -/
def givenSize (text : Option String) : Nat := (text.filter (· ≠ "")).elim 0 textSize

/-- The room that everything but the content takes, but for the time stamp. -/
def metadataSize (args : Args) : Nat :=
  givenSize args.testId + tagsSize args.tags.toFinset + givenSize args.mimetype
    + (args.attachFile.map args.shownName).elim 0 textSize

/-- What a packet can carry of the command line. -/
structure Carried (args : Args) : Prop where
  testId : ∀ s ∈ args.testId, NulFree s
  tags : ∀ tag ∈ args.tags, NulFree tag
  mimetype : ∀ s ∈ args.mimetype, NulFree s
  shownName : ∀ file ∈ args.attachFile, NulFree (args.shownName file)
  metadata : metadataSize args ≤ 524266

theorem ite_isTrue (text : Option String) :
    (if isTrue text then text else none) = text.filter (· ≠ "") := by
  cases text with
  | none => rfl
  | some s => by_cases hs : s = "" <;> simp [isTrue, Option.filter_some, hs]

theorem mem_of_isTrue {text : Option String} {s : String} (h : isTrue text = true)
    (hs : text = some s) : s ≠ "" := by
  simpa [isTrue, hs] using h

theorem timestampSize_le (t : DateTime) : timestampSize t ≤ 8 := by
  unfold timestampSize V2.numberWidth
  split_ifs <;> omega

theorem contentSize_le {content : Bytes} (h : content.length ≤ chunkSize) :
    contentSize content ≤ 3670019 := by
  unfold chunkSize at h
  unfold contentSize V2.numberWidth
  split_ifs <;> omega

theorem fits_of_fieldsSize {e : StatusEvent} (h : fieldsSize e ≤ 4194293) : Fits e := by
  unfold Fits V2.wholeLength V2.maxPacketLength
  split_ifs <;> omega

/-! ## The events are carried -/

section

variable {r : ShortReads} {now : DateTime} {args : Args} {file : File}

theorem delivered_hunkEvent (first last : Bool) (hunk : Bytes) :
    delivered (hunkEvent now args file first last hunk)
      = hunkEvent now args file first last hunk := by
  cases htags : args.tags <;> cases first <;>
    simp [delivered, hunkEvent, htags, Option.filter_some]

theorem encodable_hunkEvent (hnow : 0 ≤ now.micros ∧ now.micros < 4294967296 * 1000000)
    (h : Carried args) (hfile : args.attachFile = some file) (first last : Bool) (hunk : Bytes) :
    Encodable (hunkEvent now args file first last hunk) where
  testId s hs := by
    simp only [hunkEvent, ite_isTrue] at hs
    exact h.testId s (Option.mem_filter_iff.mp hs).1
  testTags tags htags tag htag := by
    simp only [hunkEvent] at htags
    split at htags
    · cases htags
      exact h.tags tag (List.mem_toFinset.mp htag)
    · cases htags
  mimeType s hs := by
    simp only [hunkEvent] at hs
    split at hs
    · rename_i hgiven
      rw [Bool.and_eq_true] at hgiven
      exact ⟨h.mimetype s hs, mem_of_isTrue hgiven.2 hs⟩
    · cases hs
  fileName s hs := by
    cases hs
    exact h.shownName file hfile
  file := rfl
  routeCode s hs := by cases hs
  timestamp t ht := by
    simp only [hunkEvent] at ht
    split at ht
    · cases ht
      exact hnow
    · cases ht

/-- A chunk and the texts beside it fit into a packet. -/
theorem fits_hunkEvent (h : Carried args) (hfile : args.attachFile = some file)
    (first last : Bool) {hunk : Bytes} (hhunk : hunk.length ≤ chunkSize) :
    Fits (hunkEvent now args file first last hunk) := by
  have hmetadata := h.metadata
  have htimestamp := timestampSize_le now
  have hcontent := contentSize_le hhunk
  have hstamp : (hunkEvent now args file first last hunk).timestamp.elim 0 timestampSize ≤ 8 := by
    cases first <;> simp [hunkEvent, htimestamp]
  have htags : tagsSize ((hunkEvent now args file first last hunk).testTags.getD ∅)
      ≤ tagsSize args.tags.toFinset := by
    cases htags : args.tags <;> cases first <;> simp [hunkEvent, htags, tagsSize]
  have hmime : ((hunkEvent now args file first last hunk).mimeType.filter (· ≠ "")).elim 0 textSize
      ≤ givenSize args.mimetype := by
    unfold givenSize
    cases first with
    | false => simp [hunkEvent]
    | true =>
      simp only [hunkEvent, Bool.true_and, ite_isTrue]
      cases args.mimetype with
      | none => simp
      | some s => by_cases hs : s = "" <;> simp [Option.filter_some, hs]
  have hid : (hunkEvent now args file first last hunk).testId.elim 0 textSize
      = givenSize args.testId := by
    simp only [hunkEvent, ite_isTrue, givenSize]
  have hname : V2.fileSize (hunkEvent now args file first last hunk).fileName
      (hunkEvent now args file first last hunk).fileBytes
      = (args.attachFile.map args.shownName).elim 0 textSize + contentSize hunk := by
    rw [hfile]
    rfl
  have hroute : (hunkEvent now args file first last hunk).routeCode.elim 0 textSize = 0 := rfl
  refine fits_of_fieldsSize ?_
  unfold metadataSize at hmetadata
  unfold fieldsSize
  omega

/-- The one event without a file. -/
theorem carried_of_no_file (hnow : 0 ≤ now.micros ∧ now.micros < 4294967296 * 1000000)
    (h : Carried args) {e : StatusEvent}
    (he : e = { testId := if isTrue args.testId then args.testId else none
                testStatus := args.action
                testTags := if args.tags = [] then none else some args.tags.toFinset
                timestamp := some now }) :
    (Encodable e ∧ Fits e) ∧ delivered e = e := by
  subst he
  have hmetadata := h.metadata
  have htimestamp := timestampSize_le now
  refine ⟨⟨⟨fun s hs => ?_, fun tags htags tag htag => ?_, by simp, by simp, rfl, by simp,
    fun t ht => ?_⟩, fits_of_fieldsSize ?_⟩, ?_⟩
  · simp only [ite_isTrue] at hs
    exact h.testId s (Option.mem_filter_iff.mp hs).1
  · by_cases hempty : args.tags = []
    · simp [hempty] at htags
    · simp only [if_neg hempty, Option.mem_some_iff] at htags
      subst htags
      exact h.tags tag (List.mem_toFinset.mp htag)
  · cases ht
    exact hnow
  · have htags : tagsSize ((if args.tags = [] then none else some args.tags.toFinset).getD ∅)
        = tagsSize args.tags.toFinset := by
      by_cases hempty : args.tags = [] <;> simp [hempty]
    unfold metadataSize at hmetadata
    unfold fieldsSize
    simp only [ite_isTrue, htags, Option.elim_some, V2.fileSize, Option.filter_none,
      Option.elim_none, givenSize] at hmetadata ⊢
    omega
  · by_cases hempty : args.tags = [] <;> simp [delivered, hempty, Option.filter_some]

/-- Every event of the command line is carried, and comes back as it is. -/
theorem generateStreamResults_carried
    (hnow : 0 ≤ now.micros ∧ now.micros < 4294967296 * 1000000) (h : Carried args)
    {e : StatusEvent} (he : e ∈ generateStreamResults r chunkSize now args) :
    (Encodable e ∧ Fits e) ∧ delivered e = e := by
  cases hfile : args.attachFile with
  | none =>
    rw [generateStreamResults_none hfile] at he
    exact carried_of_no_file hnow h (List.mem_singleton.mp he)
  | some file =>
    obtain ⟨hunk, hunks, -, hall, hevents⟩ :=
      @generateStreamResults_hunks r chunkSize now args file (by decide) hfile
    rw [hevents] at he
    obtain ⟨first, last, x, hx, rfl⟩ := mem_hunkEvents he
    exact ⟨⟨encodable_hunkEvent hnow h hfile first last x,
      fits_hunkEvent h hfile first last (hall x hx)⟩, delivered_hunkEvent first last x⟩

end

/-! ## The round trip -/

/-- What is written for arguments with an open file. -/
theorem written_decodes (r : ShortReads) (orders : TagOrders) (w : PartialWrites) (polls : Polls)
    (name : Option String) {now : DateTime} {args : Args}
    (hnow : 0 ≤ now.micros ∧ now.micros < 4294967296 * 1000000) (h : Carried args) :
    ∃ count out, forEach (toBytes orders w) (0, {}) (generateStreamResults r chunkSize now args)
        = ((count, out), none)
      ∧ DecodesTo polls name out.written (generateStreamResults r chunkSize now args) := by
  obtain ⟨out, hrun, hdecodes⟩ := V2.writeAll_decodes orders w polls name
    fun e he => (@generateStreamResults_carried r now args hnow h e he).1
  have hdelivered : (generateStreamResults r chunkSize now args).map delivered
      = generateStreamResults r chunkSize now args :=
    (List.map_congr_left fun e he => (generateStreamResults_carried hnow h he).2).trans
      (List.map_id _)
  rw [hdelivered] at hdecodes
  exact ⟨_, out, hrun, hdecodes⟩

/-- The events of a file hold it whole, under its name. -/
theorem generateStreamResults_file {r : ShortReads} {now : DateTime} {args : Args} {file : File}
    (hfile : args.attachFile = some file) :
    ((generateStreamResults r chunkSize now args).map fun e => e.fileBytes.getD []).flatten
        = file.content
      ∧ ∀ e ∈ generateStreamResults r chunkSize now args,
          e.fileName = some (args.shownName file) := by
  obtain ⟨hunk, hunks, hflat, -, hsplit⟩ :=
    @generateStreamResults_hunks r chunkSize now args file (by decide) hfile
  have hbytes : ∀ first last x,
      (hunkEvent now args file first last x).fileBytes.getD [] = id x := fun _ _ _ => rfl
  rw [hsplit, hunkEvents_map hbytes, List.map_id]
  refine ⟨hflat, fun e he => ?_⟩
  obtain ⟨first, last, x, -, rfl⟩ := mem_hunkEvents he
  rfl

/-- **A file arrives whole.** A command line that is accepted names standard input, and then
nothing is written and an attribute is missed, or else, when its texts fit beside a chunk, raises
nothing: what is written decodes to the events, and whatever the reads and the writes are cut into,
the contents put together are the file. -/
theorem outputMain_decodes (disk : String → Except String Bytes) (stdin : Bytes) (r : ShortReads)
    (orders : TagOrders) (w : PartialWrites) (polls : Polls) (name : Option String) (now : DateTime)
    (hnow : 0 ≤ now.micros ∧ now.micros < 4294967296 * 1000000) (options : Options) (parsed : Parsed)
    (hparsed : parseArguments disk stdin options = .ok parsed)
    (h : ∀ args, parsed = .args args → Carried args) :
    let main := outputMain disk stdin r orders w now options
    let decoded := V2.run polls name main.2.written
    if options.attachFile = some "-" ∧ isTrue options.fileName then
      main = (.attributeError "'str' object has no attribute 'read'", {})
    else
      ∃ args, parsed = .args args
        ∧ main.1 = .returns
        ∧ decoded.result = .ok []
        ∧ decoded.events name = generateStreamResults r chunkSize now args
        ∧ ∀ file, args.attachFile = some file →
          ((decoded.events name).map fun e => e.fileBytes.getD []).flatten = file.content
          ∧ ∀ e ∈ decoded.events name, e.fileName = some (args.shownName file) := by
  intro main decoded
  have hmain : main = outputMain disk stdin r orders w now options := rfl
  unfold outputMain at hmain
  rw [hparsed] at hmain
  have htext := parseArguments_text hparsed
  cases parsed with
  | text attachFile =>
    rw [if_pos (htext.mp ⟨attachFile, rfl⟩)]
    exact hmain
  | args args =>
    rw [if_neg (htext.not.mp (by simp))]
    obtain ⟨count, out, hrun, hresult, hevents⟩ :=
      written_decodes r orders w polls name hnow (h args rfl)
    simp only [hrun] at hmain
    have hdecoded : decoded = V2.run polls name out.written := by
      show V2.run polls name main.2.written = _
      rw [hmain]
    rw [hdecoded, hevents, hmain]
    exact ⟨args, rfl, rfl, hresult, rfl, fun file hfile => generateStreamResults_file hfile⟩

/-- `subunit-output --fail t --tag x --attach-file log --mimetype text/plain` -/
def failed : Options where
  action := some .fail
  testId := some "t"
  tags := ["x"]
  mimetype := some "text/plain"
  attachFile := some "log"

/-- The file that it attaches. -/
def log : File := ⟨"log", [72, 105]⟩

theorem carried_failed : Carried (failed.args none (some log)) where
  testId s hs := by
    cases hs
    decide
  tags := by decide
  mimetype s hs := by
    cases hs
    decide
  shownName file hfile := by
    cases hfile
    decide
  metadata := by decide +kernel

theorem outputMain_decodes_failed :
    let main := outputMain (fun _ => .ok [72, 105]) [] oneByOne V2.sortedOrders V2.byteByByte ⟨0⟩
      failed
    let decoded := V2.run V2.inMemory none main.2.written
    if failed.attachFile = some "-" ∧ isTrue failed.fileName then
      main = (.attributeError "'str' object has no attribute 'read'", {})
    else
      ∃ args, Parsed.args (failed.args none (some log)) = .args args
        ∧ main.1 = .returns
        ∧ decoded.result = .ok []
        ∧ decoded.events none = generateStreamResults oneByOne chunkSize ⟨0⟩ args
        ∧ ∀ file, args.attachFile = some file →
          ((decoded.events none).map fun e => e.fileBytes.getD []).flatten = file.content
          ∧ ∀ e ∈ decoded.events none, e.fileName = some (args.shownName file) := by
  refine outputMain_decodes (fun _ => .ok [72, 105]) [] oneByOne V2.sortedOrders V2.byteByByte
    V2.inMemory none ⟨0⟩ (by decide) failed (.args (failed.args none (some log))) ?_ ?_
  · rfl
  · rintro args ⟨⟩
    exact carried_failed

end Pysubunit.Output
