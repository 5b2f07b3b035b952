/-
Pysubunit.V1.CarriedTheorems — what a details parser has read, a client can
write.

A client writes the parameters of a content type behind the subtype, where a
parser leaves them: a content is written as the one with the type as its text
reads (`writePart_written`). The names and types that a parser has read hold no
newline and no second slash (`Parsed.readDetails`), so a dict that is ASCII can
be sent again (`ReadDetails.detailsOk`).
-/
import Pysubunit.V1.HeaderTheorems
import Pysubunit.V1.RoundTripTheorems

namespace Pysubunit.V1

open ByteLib

/-! ## Types as they are written -/

/-- The type with its parameters in the subtype. -/
def ContentType.written (t : ContentType) : ContentType :=
  if t.parameters.isEmpty then t
  else
    { type := t.type
      subtype := t.subtype ++ ";"
        ++ ",".intercalate (t.parameters.map fun p => p.1 ++ "=" ++ p.2) }

@[simp] theorem ContentType.parameters_written (t : ContentType) : t.written.parameters = [] := by
  unfold ContentType.written
  split
  · simpa using ‹t.parameters.isEmpty = true›
  · rfl

@[simp] theorem ContentType.written_of_nil {t : ContentType} (h : t.parameters = []) :
    t.written = t := by
  simp [ContentType.written, h]

def Content.written (c : Content) : Content := { c with contentType := c.contentType.written }

/-- Latin-1, part by part. -/
theorem latin1_append (s t : String) :
    Client.latin1 (s ++ t) = (do
      let a ← Client.latin1 s
      let b ← Client.latin1 t
      return a ++ b) := by
  have hall : ((s ++ t).toList.all fun c => decide (c.toNat < 256))
      = ((s.toList.all fun c => decide (c.toNat < 256))
        && (t.toList.all fun c => decide (c.toNat < 256))) := by simp
  unfold Client.latin1
  rw [hall, ascii_append]
  cases s.toList.all fun c => decide (c.toNat < 256) <;>
    cases t.toList.all fun c => decide (c.toNat < 256) <;>
    simp [bind, Except.bind, pure, Except.pure]

/-- **A content is written as its type is shown.** -/
theorem writePart_written (name : String) (c : Content) :
    Client.writePart name c.written = Client.writePart name c := by
  obtain ⟨t, pieces⟩ := c
  by_cases h : t.parameters = []
  · simp [Content.written, h]
  · have hne : t.parameters.isEmpty = false := by simpa using h
    generalize hshown : ",".intercalate (t.parameters.map fun p => p.1 ++ "=" ++ p.2) = shown
    have hline : "Content-Type: " ++ t.type ++ "/" ++ (t.subtype ++ ";" ++ shown)
        = ("Content-Type: " ++ t.type ++ "/" ++ t.subtype) ++ (";" ++ shown) := by
      simp only [String.append_assoc]
    have hsemicolon : Client.latin1 ";" = .ok [59] := by decide
    unfold Client.writePart
    simp only [Content.written, ContentType.written, Client.writeParameters, hne, hshown]
    simp only [Bool.false_eq_true, if_false, hline, latin1_append (t := ";" ++ shown),
      latin1_append ";" shown, hsemicolon]
    cases Client.latin1 ("Content-Type: " ++ t.type ++ "/" ++ t.subtype) <;>
      cases Client.latin1 shown <;> simp [bind, Except.bind, pure, Except.pure]

/-! ## Dicts as they are written -/

/-- The dict with its types as they are written. -/
def Details.written (details : Details) : Details :=
  Finmap.keysLookupEquiv.symm
    ⟨(details.keys, fun name => (details.lookup name).map Content.written), by
      simp [Finmap.lookup_isSome, Finmap.mem_keys]⟩

@[simp] theorem lookup_written (details : Details) (name : String) :
    details.written.lookup name = (details.lookup name).map Content.written :=
  Finmap.keysLookupEquiv_symm_apply_lookup _ name

@[simp] theorem keys_written (details : Details) : details.written.keys = details.keys :=
  Finmap.keysLookupEquiv_symm_apply_keys _

theorem sortedItems_written (details : Details) :
    Client.sortedItems details.written
      = (Client.sortedItems details).map fun item => (item.1, item.2.written) := by
  unfold Client.sortedItems
  rw [keys_written, List.map_filterMap]
  congr 1
  funext name
  simp [Function.comp_def]

theorem writeParts_written (items : List (String × Content)) :
    Client.writeParts (items.map fun item => (item.1, item.2.written))
      = Client.writeParts items := by
  induction items with
  | nil => rfl
  | cons item items ih => simp [Client.writeParts, writePart_written, ih]

theorem writeDetails_written (details : Details) :
    Client.writeDetails details.written = Client.writeDetails details := by
  simp [Client.writeDetails, sortedItems_written, writeParts_written]

theorem addOutcome_written (outcome : String) (test : RemotedTestCase) (details : Details)
    (errorPermitted : Bool) :
    Client.addOutcome outcome test none (some details.written) errorPermitted
      = Client.addOutcome outcome test none (some details) errorPermitted := by
  simp [Client.addOutcome, Client.outcomeBody, writeDetails_written]

/-- **An outcome is written as its details are shown.** -/
theorem write_written (setOrder : Finset Bytes → List Bytes) (traceback : String → List Bytes)
    (label : Outcome) (test : RemotedTestCase) (details : Details) :
    Client.write setOrder traceback (.outcome label test (some details.written))
      = Client.write setOrder traceback (.outcome label test (some details)) := by
  cases label <;> exact addOutcome_written _ test details _

/-! ## What a parser has read -/

/-- Details as they can be read: names without a newline, and types that are
types again once they are written. -/
def ReadDetails (details : Details) : Prop :=
  ∀ name content, details.lookup name = some content →
    '\n' ∉ name.toList ∧ ReadType content.contentType.written

/-- What a parser has read so far. -/
def Parsed : DetailsParser → Prop
  | .simple _ => True
  | .multipart details state =>
    ReadTypes (.multipart details state) ∧ (∀ name ∈ details, '\n' ∉ name.toList)
      ∧ match state with
        | .feedChunks _ name _ _ => '\n' ∉ name.toList
        | _ => True

theorem parsed_new {begins : String} {p : DetailsParser} (h : Begins begins p) : Parsed p := by
  cases h with
  | simple => trivial
  | multipart => exact ⟨⟨by simp, trivial⟩, by simp [Finmap.notMem_empty], trivial⟩

/-- The text of a line, and its last byte is no part of it. -/
theorem newline_not_mem_decodeLine {line : Bytes} {text : String}
    (hline : 10 ∉ dropLastBytes line 1) (h : decodeLine line = .ok text) :
    '\n' ∉ text.toList := by
  intro hmem
  rw [← encode_of_decodeLine h] at hline
  refine hline (List.mem_flatMap.mpr ⟨'\n', hmem, ?_⟩)
  rw [Utf8.encodeChar_ascii (by decide)]
  decide

/-- **A line** that does not end the region. -/
theorem Parsed.lineReceived {p p' : DetailsParser} (h : Parsed p) {line : Bytes}
    (hline : 10 ∉ dropLastBytes line 1) (hp : p.lineReceived line = ⟨p', .ok false⟩) :
    Parsed p' := by
  cases p with
  | simple message =>
    simp only [DetailsParser.lineReceived, DetailsParser.simpleLineReceived] at hp
    split at hp
    · cases hp
    · split at hp <;> (cases hp; trivial)
  | multipart details state =>
    obtain ⟨htypes, hnames, hname⟩ := h
    have hread := readTypes_lineReceived htypes hline hp
    cases state with
    | lookForContent =>
      simp only [DetailsParser.lineReceived, DetailsParser.lookForContent] at hp
      split at hp
      · cases hp
      · split at hp
        · cases hp
        · cases hp
          exact ⟨hread, hnames, trivial⟩
    | getName t =>
      simp only [DetailsParser.lineReceived, DetailsParser.getName] at hp
      split at hp
      · cases hp
      · rename_i hdecode
        cases hp
        exact ⟨hread, hnames, newline_not_mem_decodeLine hline hdecode⟩
    | feedChunks t name body decoder =>
      simp only [DetailsParser.lineReceived, DetailsParser.feedChunks] at hp
      split at hp
      · cases hp
      · cases hp
        exact ⟨hread, hnames, hname⟩
      · split at hp
        · cases hp
        · split at hp
          · cases hp
          · cases hp
            refine ⟨hread, fun n hn => ?_, trivial⟩
            rcases Finmap.mem_insert.mp hn with rfl | hn
            · exact hname
            · exact hnames n hn

/-- The line that ends a region leaves the parser as it is. -/
theorem lineReceived_ends {p p' : DetailsParser} {line : Bytes}
    (h : p.lineReceived line = ⟨p', .ok true⟩) : p' = p := by
  cases p with
  | simple message =>
    simp only [DetailsParser.lineReceived, DetailsParser.simpleLineReceived] at h
    split at h
    · cases h
      rfl
    · split at h <;> cases h
  | multipart details state =>
    cases state with
    | lookForContent =>
      simp only [DetailsParser.lineReceived, DetailsParser.lookForContent] at h
      split at h
      · cases h
        rfl
      · split at h <;> cases h
    | getName t =>
      simp only [DetailsParser.lineReceived, DetailsParser.getName] at h
      split at h <;> cases h
    | feedChunks t name body decoder =>
      simp only [DetailsParser.lineReceived, DetailsParser.feedChunks] at h
      split at h
      · cases h
      · cases h
      · split at h
        · cases h
        · split at h <;> cases h

theorem forall_lookup_singleton {P : String → Content → Prop} {name : String} {content : Content}
    (h : P name content) :
    ∀ n c, (Finmap.singleton name content : Details).lookup n = some c → P n c := by
  intro n c hlookup
  have hmem := Finmap.mem_of_lookup_eq_some hlookup
  rw [Finmap.mem_singleton] at hmem
  subst hmem
  rw [Finmap.lookup_singleton_eq] at hlookup
  cases hlookup
  exact h

/-- **A simple region** has one of three contents. -/
theorem forall_lookup_simple {P : String → ContentType → Prop}
    (htraceback : P "traceback" ⟨"text", "x-traceback", [("charset", "utf8")]⟩)
    (hreason : P "reason" ⟨"text", "plain", []⟩) (hmessage : P "message" ⟨"text", "plain", []⟩)
    (message : Bytes) (style : Option String) :
    ∀ n c, (DetailsParser.simpleDetails message style).lookup n = some c → P n c.contentType := by
  unfold DetailsParser.simpleDetails
  cases style with
  | none => exact forall_lookup_singleton (P := fun n c => P n c.contentType) htraceback
  | some style =>
    refine forall_lookup_singleton (P := fun n c => P n c.contentType) ?_
    split
    · exact hreason
    · exact hmessage

theorem readDetails_simple (message : Bytes) (style : Option String) :
    ReadDetails (DetailsParser.simpleDetails message style) := by
  refine @forall_lookup_simple (fun n t => '\n' ∉ n.toList ∧ ReadType t.written) ?_ ?_ ?_ message
    style
  · exact ⟨by decide, rfl, by decide, by decide⟩
  · exact ⟨by decide, rfl, by decide, by decide⟩
  · exact ⟨by decide, rfl, by decide, by decide⟩

/-- **What has been read** has names without newlines and types that can be sent
on. -/
theorem Parsed.readDetails {p : DetailsParser} (h : Parsed p) (style : Option String) :
    ReadDetails (p.getDetails style) := by
  cases p with
  | simple message => exact readDetails_simple message style
  | multipart details state =>
    intro name content hlookup
    have htype := h.1.1 name content hlookup
    rw [ContentType.written_of_nil htype.parameters]
    exact ⟨h.2.1 name (Finmap.mem_of_lookup_eq_some hlookup), htype⟩

/-- Names and types without a character beyond ASCII. -/
def AsciiDetails (details : Details) : Prop :=
  ∀ name content, details.lookup name = some content →
    IsAscii name ∧ IsAscii content.contentType.written.type
      ∧ IsAscii content.contentType.written.subtype

theorem asciiDetails_simple (message : Bytes) (style : Option String) :
    AsciiDetails (DetailsParser.simpleDetails message style) :=
  @forall_lookup_simple
    (fun n t => IsAscii n ∧ IsAscii t.written.type ∧ IsAscii t.written.subtype)
    (by decide) (by decide) (by decide) message style

/-- Details that have been read can be sent if they are ASCII. -/
theorem ReadDetails.detailsOk {details : Details} (h : ReadDetails details)
    (hascii : AsciiDetails details) : DetailsOk details.written := by
  intro name content hlookup
  rw [lookup_written, Option.map_eq_some_iff] at hlookup
  obtain ⟨read, hread, rfl⟩ := hlookup
  obtain ⟨hname, htype⟩ := h name read hread
  obtain ⟨hnameAscii, htypeAscii, hsubAscii⟩ := hascii name read hread
  refine ⟨fun c hc => ⟨hnameAscii c hc, ?_⟩, fun c hc => ⟨htypeAscii c hc, ?_⟩,
    fun c hc => ⟨hsubAscii c hc, ?_⟩, htype.type.1, htype.subtype.1, htype.parameters⟩
  · exact fun heq => hname (heq ▸ hc)
  · exact fun heq => htype.type.2 (heq ▸ hc)
  · exact fun heq => htype.subtype.2 (heq ▸ hc)

end Pysubunit.V1
