/-
Pysubunit.Filter.RunTests — `run_tests_from_stream` (`filters.py`) on a version 2
stream, with `CatFiles` (`test_results.py`).

The function wires the result it is given to the streams it is given. Two classes that it
wires with are of testtools: a `CopyStreamResult` hands every event to each of its results,
and a `StreamResultRouter` with a rule for `test_id=None` hands the events without a test id
to the result of the rule and all others to its first one. They are the parameter
`TestTools`, which carries what is relied on.

`startTestRun` and `stopTestRun` do nothing in the results that are defined here; what they
do in the result that is given belongs to its state before and after.
-/
import Pysubunit.V2.MixedStreamTheorems
import Pysubunit.V2.WriteAll

namespace Pysubunit.Filter

open ByteLib
open V2 (StatusEvent StatusCall Error PartialWrites OutputStream TagOrders Polls Action Segment
  Encodable Fits Noise DecodesTo delivered toBytes streamBytes packetBytes packetEvents merge
  textEvent Emits Written Faithful)

/-- The results of testtools that the filters are wired with. -/
structure TestTools where
  copyStreamResult {σ τ : Type} (first : Sink σ StatusEvent Error)
    (second : Sink τ StatusEvent Error) : Sink (σ × τ) StatusEvent Error
  /-- A router to `fallback`, with the rule `test_id=None` for `target`. -/
  streamResultRouter {σ τ : Type} (fallback : Sink σ StatusEvent Error)
    (target : Sink τ StatusEvent Error) : Sink (σ × τ) StatusEvent Error
  streamResult : Sink Unit StatusEvent Error
  copies : ∀ {σ τ : Type} (first : Sink σ StatusEvent Error) (second : Sink τ StatusEvent Error),
    copyStreamResult first second = Sink.tee first second
  routes : ∀ {σ τ : Type} (fallback : Sink σ StatusEvent Error)
    (target : Sink τ StatusEvent Error),
    streamResultRouter fallback target = Sink.route (fun e => e.testId.isSome) fallback target
  discards : streamResult = Sink.discard

/-! ## The function -/

/-- `CatFiles.status`: one write, whose count is not looked at. -/
def catFiles (w : PartialWrites) : Sink OutputStream StatusEvent Error := fun out e =>
  match e.fileName, e.fileBytes with
  | none, _ => (out, none)
  | some _, none => (out, some .typeError)
  | some _, some fileBytes => ((out.write w fileBytes).2, none)

/-- `ByteStreamToStreamResult(input_stream, non_subunit_name='stdout').run(result)` -/
def runInto {σ : Type} (polls : Polls) (input : Bytes) (result : Sink σ StatusEvent Error) (s : σ) :
    σ × Option Error :=
  let source := V2.run polls (some "stdout") input
  match forEach result s (source.events (some "stdout")) with
  | (s, some e) => (s, some e)
  | (s, none) =>
    match source.result with
    | .error e => (s, some e)
    | .ok _ => (s, none)

/-- The state of the result, and what the two streams were given. -/
structure Outputs (ρ : Type) where
  result : ρ
  passthrough : OutputStream := {}
  forward : OutputStream := {}

section

variable {ρ : Type} (tools : TestTools) (polls : Polls) (orders : TagOrders) (w : PartialWrites)

/-- `run_tests_from_stream(input_stream, result, passthrough_stream, forward_stream, 2,
passthrough_subunit)`, where the flags say which of the streams are given. -/
def runTestsFromStream (input : Bytes) (result : Sink ρ StatusEvent Error) (s : ρ)
    (passthroughStream forwardStream passthroughSubunit : Bool) : Outputs ρ × Option Error :=
  if forwardStream then
    let forwardResult := toBytes orders w
    if !passthroughStream then
      let router := tools.streamResultRouter forwardResult tools.streamResult
      let r := runInto polls input (tools.copyStreamResult router result) (((0, {}), ()), s)
      ({ result := r.1.2, forward := r.1.1.1.2 }, r.2)
    else
      let r := runInto polls input (tools.copyStreamResult forwardResult result) ((0, {}), s)
      ({ result := r.1.2, forward := r.1.1.2 }, r.2)
  else if passthroughStream then
    if !passthroughSubunit then
      let r := runInto polls input (tools.streamResultRouter result (catFiles w)) (s, {})
      ({ result := r.1.1, passthrough := r.1.2 }, r.2)
    else
      let r := runInto polls input (tools.streamResultRouter result (toBytes orders w)) (s, (0, {}))
      ({ result := r.1.1, passthrough := r.1.2.2 }, r.2)
  else
    let r := runInto polls input result s
    ({ result := r.1 }, r.2)

end

theorem runInto_ok {σ : Type} {polls : Polls} {input : Bytes} {es : List StatusEvent}
    (hinput : DecodesTo polls (some "stdout") input es) {result : Sink σ StatusEvent Error}
    {s s' : σ} (h : forEach result s es = (s', none)) :
    runInto polls input result s = (s', none) := by
  unfold runInto
  dsimp only
  rw [hinput.2, hinput.1, h]

/-! ## Forwarding -/

section Forward

variable {ρ : Type} {polls : Polls} {input : Bytes} {es : List StatusEvent}
  {result : Sink ρ StatusEvent Error} {s s' : ρ}

/-- A forwarded stream decodes to what was received, and the result receives what it would
receive without it. -/
theorem forwarded_decodes (tools : TestTools) (orders : TagOrders) (w : PartialWrites)
    (hinput : DecodesTo polls (some "stdout") input es) (hes : ∀ e ∈ es, Encodable e ∧ Fits e)
    (hresult : forEach result s es = (s', none)) (passthroughSubunit : Bool) :
    ∃ out, runTestsFromStream tools polls orders w input result s true true passthroughSubunit
        = ({ result := s', forward := out }, none)
      ∧ ∀ polls' name, DecodesTo polls' name out.written (es.map delivered) := by
  obtain ⟨out, hall, hwritten⟩ := V2.writeAll_written orders w 0 {}
    fun e he => ⟨(hes e he).1.writable, (hes e he).2⟩
  have hcopy : forEach (tools.copyStreamResult (toBytes orders w) result) ((0, {}), s) es
      = (((0 + es.length, out), s'), none) := by
    rw [tools.copies, Sink.forEach_tee_iff]
    exact ⟨hall, hresult⟩
  refine ⟨out, ?_, fun polls' name => ?_⟩
  · simp [runTestsFromStream, runInto_ok hinput hcopy]
  · rw [hwritten, List.nil_append]
    exact V2.decodesTo_calls polls' name orders 0 hes

end Forward

/-- A filter of a pipeline that forwards: its own result, and how its streams behave. -/
structure Stage where
  ρ : Type
  result : Sink ρ StatusEvent Error
  initial : ρ
  polls : Polls
  orders : TagOrders
  w : PartialWrites

/-- The result takes all of these events. -/
def Stage.Takes (stage : Stage) (es : List StatusEvent) : Prop :=
  (forEach stage.result stage.initial es).2 = none

/-- `filter | filter | ...`, each with `--forward`: the exceptions raised, and the last output. -/
def pipeline (tools : TestTools) : List Stage → Bytes → List Error × Bytes
  | [], input => ([], input)
  | stage :: stages, input =>
    let r := runTestsFromStream tools stage.polls stage.orders stage.w input stage.result
      stage.initial true true true
    let rest := pipeline tools stages r.1.forward.written
    (r.2.toList ++ rest.1, rest.2)

/-- **Forwarding filters in a row are transparent.** If the input decodes to events that can be
written again and no stage's result raises at one of them, then however many stages there are,
none raises, and the output of the last decodes to the events that went into the first; the text
between the packets, put into events by the first of them, included. -/
theorem pipeline_decodes (tools : TestTools) (polls : Polls) (name : Option String) (stage : Stage)
    (stages : List Stage) {input : Bytes} {es : List StatusEvent}
    (hinput : DecodesTo stage.polls (some "stdout") input es)
    (hes : ∀ e ∈ es, Encodable e ∧ Fits e) (hfirst : stage.Takes es)
    (hlater : ∀ later ∈ stages, later.Takes (es.map delivered)) :
    (pipeline tools (stage :: stages) input).1 = []
    ∧ DecodesTo polls name (pipeline tools (stage :: stages) input).2 (es.map delivered) := by
  induction stages generalizing stage input es with
  | nil =>
    obtain ⟨out, hrun, hdecodes⟩ := forwarded_decodes tools stage.orders stage.w hinput hes
      (Prod.ext rfl hfirst) true
    simp only [pipeline, hrun]
    exact ⟨rfl, hdecodes polls name⟩
  | cons next stages ih =>
    obtain ⟨out, hrun, hdecodes⟩ := forwarded_decodes tools stage.orders stage.w hinput hes
      (Prod.ext rfl hfirst) true
    obtain ⟨hnext, hrest⟩ := List.forall_mem_cons.mp hlater
    have hagain : (es.map delivered).map delivered = es.map delivered := by
      simp [V2.delivered_delivered]
    have hes' : ∀ e ∈ es.map delivered, Encodable e ∧ Fits e := by
      intro e he
      obtain ⟨e', he', rfl⟩ := List.mem_map.mp he
      exact ⟨(hes e' he').1.delivered, V2.fits_delivered.mpr (hes e' he').2⟩
    have hpipe := ih next (hdecodes next.polls (some "stdout")) hes' hnext (by rwa [hagain])
    rw [hagain] at hpipe
    rw [pipeline, hrun]
    exact hpipe

/-- The results of testtools. -/
def documented : TestTools where
  copyStreamResult := Sink.tee
  streamResultRouter := Sink.route fun e => e.testId.isSome
  streamResult := Sink.discard
  copies _ _ := rfl
  routes _ _ := rfl
  discards := rfl

/-- A result that keeps the tests' names, and raises at an event of none. -/
def names : Sink (List String) StatusEvent Error := fun seen e =>
  match e.testId with
  | none => (seen, some .typeError)
  | some id => (seen ++ [id], none)

/-- A filter with that result. -/
def naming : Stage where
  ρ := List String
  result := names
  initial := []
  polls := V2.inMemory
  orders := V2.sortedOrders
  w := V2.byteByByte

theorem fits_passed : Fits V2.passed.event := by
  unfold Fits
  decide

theorem decodesTo_passed (polls : Polls) (name : Option String) :
    DecodesTo polls name (packetBytes V2.passed) [delivered V2.passed.event] := by
  obtain ⟨hevents, hresult⟩ := V2.run_packets polls name
    (rfl : ({} : V2.Codec).midCharacter = false) [V2.passed]
    (by simpa using ⟨V2.written_passed, V2.encodable_passed⟩) []
  rw [List.append_nil, V2.runFrom_nil] at hevents hresult
  unfold DecodesTo
  rw [← List.flatMap_singleton packetBytes V2.passed, V2.run_eq_runFrom, V2.RunResult.events,
    hevents, hresult]
  exact ⟨rfl, rfl⟩

theorem pipeline_decodes_naming :
    (pipeline documented [naming, naming, naming] (packetBytes V2.passed)).1 = []
    ∧ DecodesTo V2.inMemory none
        (pipeline documented [naming, naming, naming] (packetBytes V2.passed)).2
        ([delivered V2.passed.event].map delivered) :=
  pipeline_decodes documented V2.inMemory none naming [naming, naming]
    (decodesTo_passed V2.inMemory (some "stdout"))
    (by simpa [V2.encodable_passed.delivered, V2.fits_delivered] using fits_passed)
    rfl (by simp only [List.forall_mem_cons]; exact ⟨rfl, rfl, by simp⟩)

/-! ## Output that is no test's -/

/-- What `CatFiles` writes of an event. -/
def catBytes (e : StatusEvent) : Bytes := if e.fileName.isSome then e.fileBytes.getD [] else []

/-- The event belongs to no test. -/
def isPlain (e : StatusEvent) : Bool := e.testId.isNone

/-- What a stream holds beside its tests: its text, and the files of no test. -/
def plainBytes : Segment → Bytes
  | .text bytes => bytes
  | .packet call => if isPlain call.event then catBytes call.event else []

/-- The tests of a stream. -/
def testEvents : Segment → List StatusEvent
  | .text _ => []
  | .packet call => if isPlain call.event then [] else [delivered call.event]

/-- A stream that takes all it is offered. -/
def TakesAll (w : PartialWrites) : Prop := ∀ call offered, w.accept call offered = offered

theorem forEach_catFiles {w : PartialWrites} (hw : TakesAll w) (out : OutputStream)
    {es : List StatusEvent} (hes : ∀ e ∈ es, e.fileName.isSome = e.fileBytes.isSome) :
    ∃ out', forEach (catFiles w) out es = (out', none)
      ∧ out'.written = out.written ++ es.flatMap catBytes := by
  induction es generalizing out with
  | nil => exact ⟨out, rfl, by simp⟩
  | cons e es ih =>
    obtain ⟨hfile, hrest⟩ := List.forall_mem_cons.mp hes
    have hstep : ∃ out₁, catFiles w out e = (out₁, none)
        ∧ out₁.written = out.written ++ catBytes e := by
      unfold catFiles catBytes
      cases hname : e.fileName <;> cases hbytes : e.fileBytes <;> simp [hname, hbytes] at hfile
      · exact ⟨out, rfl, by simp⟩
      · exact ⟨_, rfl, by simp [OutputStream.write, hw _ _]⟩
    obtain ⟨out₁, hcat, hwritten₁⟩ := hstep
    obtain ⟨out', hrun, hwritten⟩ := ih out₁ hrest
    refine ⟨out', by rw [forEach_cons hcat, hrun], ?_⟩
    rw [hwritten, hwritten₁, List.flatMap_cons, List.append_assoc]

section Emits

variable {t : Bytes} {packets : List (StatusCall × Bytes)} {events : List StatusEvent}

/-- The bytes of no test in a run are the texts between its packets and what the packets hold of
them. -/
theorem plain_of_emits (h : Emits "stdout" t packets events) :
    (events.filter isPlain).flatMap catBytes
      = t ++ packets.flatMap fun p => ((packetEvents p.1).filter isPlain).flatMap catBytes ++ p.2 := by
  have hpieces : ∀ pieces : List Bytes,
      ((pieces.map (textEvent "stdout")).filter isPlain).flatMap catBytes = pieces.flatten := by
    intro pieces
    induction pieces with
    | nil => rfl
    | cons piece pieces ih =>
      rw [List.map_cons, List.filter_cons_of_pos rfl, List.flatMap_cons, ih, List.flatten_cons]
      rfl
  induction packets generalizing t events with
  | nil =>
    obtain ⟨pieces, rfl, rfl⟩ := h
    rw [hpieces, List.flatMap_nil, List.append_nil]
  | cons p packets ih =>
    obtain ⟨pieces, later, rfl, rfl, hlater⟩ := h
    rw [List.filter_append, List.filter_append, List.flatMap_append, List.flatMap_append, hpieces,
      ih hlater, List.flatMap_cons, List.append_assoc]

theorem tests_of_emits (h : Emits "stdout" t packets events) :
    events.filter (fun e => e.testId.isSome)
      = packets.flatMap fun p => (packetEvents p.1).filter fun e => e.testId.isSome := by
  have hpieces : ∀ pieces : List Bytes,
      (pieces.map (textEvent "stdout")).filter (fun e => e.testId.isSome) = [] := by
    intro pieces
    simp [textEvent]
  induction packets generalizing t events with
  | nil =>
    obtain ⟨pieces, rfl, rfl⟩ := h
    exact hpieces pieces
  | cons p packets ih =>
    obtain ⟨pieces, later, rfl, rfl, hlater⟩ := h
    rw [List.filter_append, List.filter_append, hpieces, ih hlater, List.flatMap_cons,
      List.nil_append]

/-- Text comes with a file's name and bytes. -/
theorem file_of_emits (h : Emits "stdout" t packets events)
    (hfile : ∀ p ∈ packets, ∀ e ∈ packetEvents p.1, e.fileName.isSome = e.fileBytes.isSome) :
    ∀ e ∈ events, e.fileName.isSome = e.fileBytes.isSome := by
  have hpieces : ∀ pieces : List Bytes, ∀ e ∈ pieces.map (textEvent "stdout"),
      e.fileName.isSome = e.fileBytes.isSome := by
    intro pieces e he
    obtain ⟨piece, -, rfl⟩ := List.mem_map.mp he
    rfl
  induction packets generalizing t events with
  | nil =>
    obtain ⟨pieces, rfl, rfl⟩ := h
    exact hpieces pieces
  | cons p packets ih =>
    obtain ⟨pieces, later, rfl, rfl, hlater⟩ := h
    obtain ⟨hp, hpackets⟩ := List.forall_mem_cons.mp hfile
    intro e he
    rcases List.mem_append.mp he with he | he
    · exact hpieces pieces e he
    · rcases List.mem_append.mp he with he | he
      · exact hp e he
      · exact ih hlater hpackets e he

end Emits

section Segments

variable {segments : List Segment}

theorem packet_of_mem_merge {call : StatusCall} {text : Bytes}
    (h : (call, text) ∈ (merge segments).2) : .packet call ∈ segments := by
  induction segments with
  | nil => simp [merge] at h
  | cons segment segments ih =>
    cases segment with
    | text bytes => exact List.mem_cons_of_mem _ (ih h)
    | packet call' =>
      rcases List.mem_cons.mp h with heq | h
      · cases heq
        exact List.mem_cons_self
      · exact List.mem_cons_of_mem _ (ih h)

/-- What the packets of a stream decode to. -/
theorem plain_merge
    (h : ∀ call, .packet call ∈ segments → packetEvents call = [delivered call.event]) :
    (merge segments).1
        ++ (merge segments).2.flatMap
          (fun p => ((packetEvents p.1).filter isPlain).flatMap catBytes ++ p.2)
      = segments.flatMap plainBytes := by
  induction segments with
  | nil => rfl
  | cons segment segments ih =>
    have hrest := ih fun call hcall => h call (List.mem_cons_of_mem _ hcall)
    cases segment with
    | text bytes => rw [merge, List.flatMap_cons, ← hrest, plainBytes, List.append_assoc]
    | packet call =>
      have hcall := h call List.mem_cons_self
      rw [merge, List.flatMap_cons, List.flatMap_cons, ← hrest, plainBytes, hcall]
      have hplain : isPlain (delivered call.event) = isPlain call.event := rfl
      have hcat : catBytes (delivered call.event) = catBytes call.event := rfl
      cases hid : isPlain call.event <;> simp [hplain, hcat, hid]

theorem tests_merge
    (h : ∀ call, .packet call ∈ segments → packetEvents call = [delivered call.event]) :
    (merge segments).2.flatMap (fun p => (packetEvents p.1).filter fun e => e.testId.isSome)
      = segments.flatMap testEvents := by
  induction segments with
  | nil => rfl
  | cons segment segments ih =>
    have hrest := ih fun call hcall => h call (List.mem_cons_of_mem _ hcall)
    cases segment with
    | text bytes => rw [merge, List.flatMap_cons, ← hrest, testEvents, List.nil_append]
    | packet call =>
      have hcall := h call List.mem_cons_self
      rw [merge, List.flatMap_cons, List.flatMap_cons, ← hrest, testEvents, hcall]
      have hid : (delivered call.event).testId = call.event.testId := rfl
      cases htest : call.event.testId <;> simp [isPlain, hid, htest]

end Segments

/-- A run over packets and lines without the signature byte is faithful to them. -/
theorem faithful_of_noise (polls : Polls) (name : String) {segments : List Segment}
    (hnoise : ∀ bytes, .text bytes ∈ segments → Noise bytes)
    (hpacket : ∀ call, .packet call ∈ segments → Written call) :
    Faithful name segments (V2.run polls (some name) (streamBytes segments)) := by
  obtain ⟨hfirst, hrest⟩ :=
    V2.merge_forall ⟨List.not_mem_nil, .inl rfl⟩ V2.noise_append hnoise hpacket
  obtain ⟨haligned, hclean⟩ := V2.aligned_noise polls
    (rfl : ({} : V2.Codec).midCharacter = false) hfirst hrest
  exact (V2.faithful_iff haligned).mpr hclean

/-- **Output that is no test's comes through byte for byte.** From a stream of packets and lines
without the signature byte a result that raises at none of them receives the events with a test
id, in order, and a passthrough stream that takes all of each write (`CatFiles` ignores how much
was taken) the text between the packets and the files of no test, in order and nothing else,
however the source is polled. -/
theorem passthrough_catFiles {ρ : Type} (tools : TestTools) (polls : Polls) (orders : TagOrders)
    (w : PartialWrites) (hw : TakesAll w) {segments : List Segment}
    (hnoise : ∀ bytes, .text bytes ∈ segments → Noise bytes)
    (hpacket : ∀ call, .packet call ∈ segments → Written call ∧ Encodable call.event)
    {result : Sink ρ StatusEvent Error} {s s' : ρ}
    (hresult : forEach result s (segments.flatMap testEvents) = (s', none)) :
    let r :=
      runTestsFromStream tools polls orders w (streamBytes segments) result s true false false
    r.2 = none ∧ r.1.result = s' ∧ r.1.passthrough.written = segments.flatMap plainBytes := by
  intro r
  have hfaithful := faithful_of_noise polls "stdout" hnoise fun call hcall => (hpacket call hcall).1
  have hevents : ∀ call, .packet call ∈ segments → packetEvents call = [delivered call.event] :=
    fun call hcall => V2.packetEvents_encodable (hpacket call hcall).1 (hpacket call hcall).2
  set source := V2.run polls (some "stdout") (streamBytes segments) with hsource
  have hplain : ((source.events (some "stdout")).filter isPlain).flatMap catBytes
      = segments.flatMap plainBytes := by
    rw [plain_of_emits hfaithful.emits, plain_merge hevents]
  have htests : (source.events (some "stdout")).filter (fun e => e.testId.isSome)
      = segments.flatMap testEvents := by
    rw [tests_of_emits hfaithful.emits, tests_merge hevents]
  have hfiles : ∀ e ∈ source.events (some "stdout"), e.fileName.isSome = e.fileBytes.isSome := by
    refine file_of_emits hfaithful.emits fun p hp e he => ?_
    obtain ⟨call, text⟩ := p
    have hmem := packet_of_mem_merge hp
    rw [hevents call hmem, List.mem_singleton] at he
    subst he
    exact (hpacket call hmem).2.file
  obtain ⟨out, hcat, hwritten⟩ := forEach_catFiles hw {} fun e he =>
    hfiles e (List.mem_of_mem_filter (p := isPlain) he)
  have hroute : forEach (tools.streamResultRouter result (catFiles w)) (s, {})
      (source.events (some "stdout")) = ((s', out), none) := by
    have hnot : (fun e : StatusEvent => !e.testId.isSome) = isPlain :=
      funext fun e => by simp [isPlain]
    rw [tools.routes, Sink.forEach_route_iff, htests, hnot]
    exact ⟨hresult, hcat⟩
  have hrun : runInto polls (streamBytes segments)
      (tools.streamResultRouter result (catFiles w)) (s, {}) = ((s', out), none) :=
    runInto_ok ⟨hfaithful.returns, rfl⟩ hroute
  refine ⟨?_, ?_, ?_⟩
  · simp [r, runTestsFromStream, hrun]
  · simp [r, runTestsFromStream, hrun]
  · have hout : r.1.passthrough = out := by simp [r, runTestsFromStream, hrun]
    rw [hout, hwritten, List.nil_append, hplain]

/-- A stream that takes all. -/
def buffered : PartialWrites where
  accept _ offered := offered
  accepts_one _ _ h := h
  accepts_at_most _ _ := Nat.le_refl _

theorem passthrough_catFiles_broken :
    let segments : List Segment := [.text [0xC3, 0x0A], .packet V2.passed, .text [0x68, 0x0A]]
    let r := runTestsFromStream documented V2.inMemory V2.sortedOrders buffered
      (streamBytes segments) names [] true false false
    r.2 = none ∧ r.1.result = ["t"]
      ∧ r.1.passthrough.written = segments.flatMap plainBytes :=
  passthrough_catFiles documented V2.inMemory V2.sortedOrders buffered (fun _ _ => rfl)
    (by simp [Noise, V2.signature]) (by simpa using ⟨V2.written_passed, V2.encodable_passed⟩)
    (by decide)

end Pysubunit.Filter
