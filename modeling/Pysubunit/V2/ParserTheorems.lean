/-
Pysubunit.V2.ParserTheorems — what `_parse_packet` makes of the bytes after
a signature.

`reads_fields` is the round trip of the body, field by field: under the flags
of a call the positional readers read what the writer wrote, or refuse a text
that holds a zero byte. `ParseOutcome` names the ways a call of the parser can
end and `parse_cases` says there are no others: a short header, a length in
four octets, a length below the header, a short remainder, or a whole packet.
A whole packet is consumed exactly, whatever its body (`parse_whole`), and its
checksum is that of the whole packet however the parser has cut it into
fragments (`packetChecksum_eq`).
-/
import Pysubunit.V2.WriterTheorems
import Pysubunit.V2.Parser

namespace Pysubunit.V2

open ByteLib

/-! ## The fields -/

/-- The errors that `_parse_packet` reports. -/
def IsParseError (e : Error) : Prop := ∃ message, e = .parseError message

/-- A string without U+0000 has no zero byte. -/
theorem zero_not_mem_utf8Bytes {s : String} : 0 ∉ utf8Bytes s ↔ NulFree s :=
  not_congr Utf8.zero_mem_encode

/-- A string is read back, or refused for a zero byte. -/
theorem reads_text {s : String} (hlen : (textBytes s).length < 1073741824) :
    Reads IsParseError (NulFree s) readUtf8 (textBytes s) s := by
  intro body pos rest hd
  rw [textBytes, List.length_append] at hlen
  rw [textBytes, List.append_assoc] at hd
  have hn := parseVarint_numberBytes false (by omega) (by simp) hd
  have hd' := drop_add_of_drop hd
  rw [length_numberBytes] at hd'
  have hslice := slice_of_drop hd'
  unfold readUtf8
  rw [hn, ok_bind]
  dsimp only
  rw [hslice, if_neg (by simp)]
  by_cases hs : NulFree s
  · refine .inl ⟨hs, ?_⟩
    rw [if_neg (zero_not_mem_utf8Bytes.mpr hs), utf8Bytes, Utf8.decode_encode]
    simp only [List.length_nil, Nat.sub_zero, ne_eq, not_true_eq_false, if_false,
      String.ofList_toList]
    rw [textBytes, List.length_append, length_numberBytes, utf8Bytes]
    exact congrArg (fun p => Except.ok (s, p)) (by omega)
  · have hzero : 0 ∈ utf8Bytes s := not_not.mp (mt zero_not_mem_utf8Bytes.mp hs)
    rw [if_pos hzero]
    exact .inr ⟨hs, _, ⟨_, rfl⟩, rfl⟩

/-- Whole microseconds are not rounded. -/
theorem roundedThousandth_mul (n : Nat) : roundedThousandth (n * 1000) = n := by
  unfold roundedThousandth
  rw [if_pos (by omega)]
  omega

section Fields

variable {Refused : Error → Prop}

theorem reads_timestamp {t : DateTime} (h : 0 ≤ t.micros ∧ t.micros < 4294967296 * 1000000) :
    Reads Refused True readTimestamp (timestampBytes t) t := by
  refine Reads.of_ok fun body pos rest hd => ?_
  obtain ⟨h0, h1⟩ := h
  rw [timestampBytes, List.append_assoc] at hd
  have hsecs : slice body pos 4 = beBytes 4 (t.micros / 1000000).toNat := by
    have := slice_of_drop hd
    rwa [length_beBytes] at this
  have hd' := drop_add_of_drop hd
  rw [length_beBytes] at hd'
  have hn := parseVarint_numberBytes false (by omega) (by simp) hd'
  unfold readTimestamp
  rw [hsecs, structUnpack_beBytes (by omega), ok_bind, hn, ok_bind]
  dsimp only
  rw [roundedThousandth_mul, timestampBytes, List.length_append, length_beBytes, length_numberBytes]
  refine congrArg Except.ok (Prod.ext ?_ (Nat.add_assoc _ _ _))
  show DateTime.mk _ = t
  congr 1
  omega

theorem reads_content (content : Bytes) :
    Reads Refused True (readContent content.length) content content := by
  refine Reads.of_ok fun body pos rest hd => ?_
  simp only [readContent, slice_of_drop hd, ne_eq, not_true_eq_false, if_false]
  rfl

/-- A field that is there when its value is. -/
theorem reads_optionBytes {α : Type} {r : Reader Error α} {enc : α → Bytes} {fine : α → Prop}
    {o : Option α} (h : ∀ v ∈ o, Reads Refused (fine v) r (enc v) v) :
    Reads Refused (∀ v ∈ o, fine v) (Reader.optionally o.isSome r) (optionBytes enc o) o := by
  cases o with
  | none => exact (Reads.optionally_none r).congr (by simp)
  | some v => exact (Reads.optionally_some (h v rfl)).congr (by simp)

end Fields

theorem reads_tags {tags : List String} (hne : tags ≠ [])
    (hlen : (tagsBytes tags).length < 1073741824) :
    Reads IsParseError (∀ tag ∈ tags, NulFree tag) readTags (tagsBytes tags) tags.toFinset := by
  have hcount := length_le_flatMap_textBytes tags
  have henc : tagsBytes tags = numberBytes tags.length ++ (tags.flatMap textBytes ++ []) := by
    rw [tagsBytes, if_neg (by simpa using hne), List.append_nil]
  rw [henc] at hlen ⊢
  rw [List.append_nil, List.length_append] at hlen
  have htag : ∀ tag ∈ tags, Reads IsParseError (NulFree tag) readUtf8 (textBytes tag) (id tag) := by
    intro tag hmem
    have := (List.sublist_flatten_of_mem (List.mem_map_of_mem (f := textBytes) hmem)).length_le
    rw [← List.flatMap_def] at this
    exact reads_text (by omega)
  have htags := Reads.replicate textBytes id NulFree tags htag
  rw [List.map_id] at htags
  have hfine : (True ∧ (∀ tag ∈ tags, NulFree tag) ∧ True) ↔ ∀ tag ∈ tags, NulFree tag := by
    simp only [true_and, and_true]
  refine Reads.congr ?_ hfine
  refine Reads.bind (reads_number (by omega)) ?_
  exact Reads.bind htags (Reads.pure _)

theorem reads_file {fileName : String} {content : Bytes}
    (hlen : (textBytes fileName ++ fileContentBytes content).length < 1073741824) :
    Reads IsParseError (NulFree fileName) readFile (textBytes fileName ++ fileContentBytes content)
      (fileName, content) := by
  rw [List.length_append, fileContentBytes, List.length_append] at hlen
  have henc : textBytes fileName ++ fileContentBytes content
      = textBytes fileName ++ (numberBytes content.length ++ (content ++ [])) := by
    rw [fileContentBytes, List.append_nil]
  rw [henc]
  have hfine : (NulFree fileName ∧ True ∧ True ∧ True) ↔ NulFree fileName := by
    simp only [and_true]
  refine Reads.congr ?_ hfine
  refine Reads.bind (reads_text (by omega)) ?_
  refine Reads.bind (reads_number (by omega)) ?_
  exact Reads.bind (reads_content content) (Reads.pure _)

/-- An event as it arrives: an empty tag set comes back as `None`. -/
def delivered (e : StatusEvent) : StatusEvent :=
  { e with testTags := e.testTags.filter (· ≠ ∅) }

/-- What a packet carries of an event: no empty tag set, no empty MIME type and
no content without a file name. -/
def carried (e : StatusEvent) : StatusEvent :=
  { e with
    testTags := e.testTags.filter (· ≠ ∅)
    mimeType := e.mimeType.filter (· ≠ "")
    fileBytes := if e.fileName.isSome then e.fileBytes else none }

/-- An encodable event is carried as it is. -/
theorem carried_eq_delivered {e : StatusEvent} (h : Encodable e) : carried e = delivered e := by
  have hmime : e.mimeType.filter (· ≠ "") = e.mimeType := by
    cases hm : e.mimeType with
    | none => rfl
    | some s => simp [(h.mimeType s hm).2]
  have hfile : (if e.fileName.isSome then e.fileBytes else none) = e.fileBytes := by
    rw [h.file]
    cases e.fileBytes <;> rfl
  rw [carried, delivered, hmime, hfile]

/-- The tag set of a call, from the order it is iterated in. -/
theorem toFinset_tagOrder (call : StatusCall) :
    call.tagOrder.toFinset = call.event.testTags.getD ∅ := by
  have := congrArg Multiset.toFinset call.tagOrder_enumerates
  rwa [List.toFinset_coe, Finset.val_toFinset] at this

theorem reads_tagOrder (call : StatusCall)
    (hlen : (tagsBytes call.tagOrder).length < 1073741824) :
    Reads IsParseError (∀ tags ∈ call.event.testTags, ∀ tag ∈ tags, NulFree tag)
      (Reader.optionally (!call.tagOrder.isEmpty) readTags) (tagsBytes call.tagOrder)
      (call.event.testTags.filter (· ≠ ∅)) := by
  have hset := toFinset_tagOrder call
  cases hte : call.tagOrder with
  | nil =>
    rw [hte, List.toFinset_nil] at hset
    cases ht : call.event.testTags with
    | none => exact (Reads.optionally_none readTags).congr (by simp)
    | some tags =>
      rw [ht, Option.getD_some] at hset
      subst hset
      exact (Reads.optionally_none readTags).congr (by simp)
  | cons tag tags =>
    rw [hte] at hset hlen
    cases ht : call.event.testTags with
    | none =>
      rw [ht] at hset
      simp at hset
    | some tagSet =>
      rw [ht, Option.getD_some] at hset
      have hne : tagSet ≠ ∅ := by
        rw [← hset]
        simp
      have hsome : (some tagSet).filter (· ≠ ∅) = some tagSet := by simp [hne]
      have hread := reads_tags (List.cons_ne_nil tag tags) hlen
      rw [hset] at hread
      rw [hsome]
      refine (Reads.optionally_some hread).congr ?_
      simp [← hset]

theorem reads_fileField {e : StatusEvent} (h : e.fileName.isSome → e.fileBytes.isSome)
    (hlen : (fileFieldBytes e.fileName e.fileBytes).length < 1073741824) :
    ∃ file, Reads IsParseError (∀ s ∈ e.fileName, NulFree s)
        (Reader.optionally e.fileName.isSome readFile)
        (fileFieldBytes e.fileName e.fileBytes) file
      ∧ file.map (·.1) = e.fileName
      ∧ file.map (·.2) = if e.fileName.isSome then e.fileBytes else none := by
  cases hn : e.fileName with
  | none => exact ⟨none, (Reads.optionally_none readFile).congr (by simp), rfl, rfl⟩
  | some fileName =>
    rw [hn] at h hlen
    obtain ⟨content, hb⟩ := Option.isSome_iff_exists.mp (h rfl)
    rw [hb] at hlen ⊢
    exact ⟨some (fileName, content),
      (Reads.optionally_some (reads_file hlen)).congr (by simp), rfl, rfl⟩

/-- The texts of an event are readable one field after the other. -/
theorem readable_iff (e : StatusEvent) :
    ((∀ t ∈ e.timestamp, True) ∧ (∀ s ∈ e.testId, NulFree s)
      ∧ (∀ tags ∈ e.testTags, ∀ tag ∈ tags, NulFree tag)
      ∧ (∀ s ∈ e.mimeType.filter (· ≠ ""), NulFree s) ∧ (∀ s ∈ e.fileName, NulFree s)
      ∧ (∀ s ∈ e.routeCode, NulFree s) ∧ True) ↔ Readable e := by
  constructor
  · rintro ⟨-, htestId, htags, hmime, hfile, hroute, -⟩
    refine ⟨htestId, htags, fun s hs => ?_, hfile, hroute⟩
    rcases eq_or_ne s "" with rfl | hne
    · simp [NulFree]
    · exact hmime s (by simp [Option.mem_def.mp hs, hne])
  · intro h
    refine ⟨fun _ _ => trivial, h.testId, h.testTags, fun s hs => ?_, h.fileName, h.routeCode,
      trivial⟩
    exact h.mimeType s (Option.filter_eq_some_iff.mp hs).1

/-- **The body is read back**: under the flags of a call the readers make of
its fields what the packet carries of the event, or refuse a text in it. -/
theorem reads_fields {call : StatusCall} (h : Writable call.event)
    (hlen : (fieldsBytes call).length < 1073741824) :
    Reads IsParseError (Readable call.event) (readFields (packetFlags call)) (fieldsBytes call)
      (carried call.event) := by
  obtain ⟨f1, f2, f3, f4, f5, f6, f7, f8⟩ := hasFlag_packetFlags call
  have henc : fieldsBytes call = optionBytes timestampBytes call.event.timestamp
      ++ (optionBytes textBytes call.event.testId ++ (tagsBytes call.tagOrder
        ++ (optionBytes textBytes (call.event.mimeType.filter (· ≠ ""))
          ++ (fileFieldBytes call.event.fileName call.event.fileBytes
              ++ (optionBytes textBytes call.event.routeCode ++ []))))) := by
    simp only [fieldsBytes, List.append_assoc, List.append_nil]
  rw [henc] at hlen ⊢
  simp only [List.length_append, List.length_nil] at hlen
  unfold readFields
  rw [f1, f2, f3, f4, f5, f6, f7, f8, packetFlags_status, statusLookup_statusMask]
  have htext : ∀ {o : Option String}, (optionBytes textBytes o).length < 1073741824 →
      Reads IsParseError (∀ s ∈ o, NulFree s) (Reader.optionally o.isSome readUtf8)
        (optionBytes textBytes o) o := by
    intro o hlen
    refine reads_optionBytes fun s hs => reads_text ?_
    rw [Option.mem_def.mp hs] at hlen
    exact hlen
  obtain ⟨file, hfile, hname, hbytes⟩ := reads_fileField h.file (by omega)
  have htimestamp : Reads IsParseError (∀ t ∈ call.event.timestamp, True)
      (Reader.optionally call.event.timestamp.isSome readTimestamp)
      (optionBytes timestampBytes call.event.timestamp) call.event.timestamp :=
    reads_optionBytes fun t ht => reads_timestamp (h.timestamp t ht)
  refine Reads.congr ?_ (readable_iff call.event)
  refine Reads.bind htimestamp ?_
  refine Reads.bind (htext (by omega)) ?_
  refine Reads.bind (reads_tagOrder call (by omega)) ?_
  refine Reads.bind (htext (by omega)) ?_
  refine Reads.bind hfile ?_
  refine Reads.bind (htext (by omega)) ?_
  rw [hname, hbytes]
  exact Reads.pure _

/-! ## The header -/

/-- The length a header declares and the octets that takes, if those are at
most three. -/
def declaredLength (source : Bytes) : Option (Nat × Nat) :=
  match source.drop 2 with
  | b0 :: b1 :: b2 :: _ =>
    if b0.toNat < 64 then some (b0.toNat, 1)
    else if b0.toNat < 128 then some ((b0.toNat - 64) * 256 + b1.toNat, 2)
    else if b0.toNat < 192 then
      some ((b0.toNat - 128) * 65536 + (b1.toNat * 256 + b2.toNat), 3)
    else none
  | _ => none

/-- Five octets are a flag word and three that may belong to the length. -/
theorem drop_two_header {source : Bytes} (h : 5 ≤ source.length) :
    ∃ b0 b1 b2 rest, source.drop 2 = b0 :: b1 :: b2 :: rest
      ∧ (source.take 5).drop 2 = [b0, b1, b2] := by
  match source, h with
  | _ :: _ :: b0 :: b1 :: b2 :: rest, _ => exact ⟨b0, b1, b2, rest, rfl, rfl⟩

theorem parseVarint_header {source : Bytes} (h : 5 ≤ source.length) :
    parseVarint (source.take 5) 2 true
      = match declaredLength source with
        | some r => .ok r
        | none => .error (.parseError "3 byte maximum given but 4 byte value found.") := by
  obtain ⟨b0, b1, b2, rest, hd, hh⟩ := drop_two_header h
  rw [declaredLength, hd]
  dsimp only
  split
  · rename_i h1
    split at h1
    · cases h1
      exact parseVarint_one hh (by assumption)
    · split at h1
      · cases h1
        exact parseVarint_two hh (by omega)
      · split at h1
        · cases h1
          exact parseVarint_three hh (by omega)
        · cases h1
  · rename_i h1
    split at h1
    · cases h1
    · split at h1
      · cases h1
      · split at h1
        · cases h1
        · exact parseVarint_max3Bytes hh (by omega)

theorem parseHeader_eq {source : Bytes} (h : 5 ≤ source.length) :
    parseHeader (source.take 5)
      = match declaredLength source with
        | some (length, consumed) => .ok (beNat (source.take 2), length, consumed)
        | none => .error (.parseError "3 byte maximum given but 4 byte value found.") := by
  have hflags : structUnpack 2 ((source.take 5).take 2) = .ok (beNat (source.take 2)) := by
    rw [List.take_take]
    exact structUnpack_of_length (by rw [List.length_take]; omega)
  unfold parseHeader
  rw [hflags, ok_bind, parseVarint_header h]
  cases declaredLength source <;> rfl

/-- A declared length takes a whole header. -/
theorem length_of_declaredLength {source : Bytes} {r : Nat × Nat}
    (h : declaredLength source = some r) : 5 ≤ source.length := by
  match source with
  | [] | [_] | [_, _] | [_, _, _] | [_, _, _, _] => cases h
  | _ :: _ :: _ :: _ :: _ :: _ =>
    simp only [List.length_cons]
    omega

/-- Only the first five octets say how long a packet is. -/
theorem declaredLength_take {source : Bytes} {n : Nat} (h : 5 ≤ n) :
    declaredLength (source.take n) = declaredLength source := by
  obtain ⟨m, rfl⟩ : ∃ m, n = m + 5 := ⟨n - 5, by omega⟩
  match source with
  | [] | [_] | [_, _] | [_, _, _] | [_, _, _, _] => rfl
  | _ :: _ :: _ :: _ :: _ :: _ => rfl

/-! ## The ways a call of the parser ends -/

/-- What the parser leaves of a packet that is all there: `whole` is all of
it but the signature. A length of three octets fills the header. -/
def wholeResult (flags consumed : Nat) (whole unread : Bytes) : ParseResult :=
  if consumed ≠ 3 then
    { packet := [[signature], whole]
      unread
      result := parseBody flags [[signature]] whole (2 + consumed) }
  else
    { packet := [[signature], whole.take 5, whole.drop 5]
      unread
      result := parseBody flags [[signature], whole.take 5] (whole.drop 5) 0 }

/-- How a call of the parser ends on the bytes after a signature. -/
inductive ParseOutcome (source : Bytes) : ParseResult → Prop
  /-- The header is not all there. -/
  | shortHeader (message : String) (h : source.length < 5) :
    ParseOutcome source
      { packet := [[signature], source], unread := [], result := .error (.parseError message) }
  /-- The length has the form of four octets. -/
  | longLength (message : String) (h : 5 ≤ source.length) (hd : declaredLength source = none) :
    ParseOutcome source
      { packet := [[signature], source.take 5]
        unread := source.drop 5
        result := .error (.parseError message) }
  /-- The length is below that of the header, or runs past the end of input. -/
  | shortRemainder (message : String) (length consumed : Nat) (h : 5 ≤ source.length)
    (hd : declaredLength source = some (length, consumed))
    (hlen : length < 6 ∨ source.length + 1 < length) :
    ParseOutcome source
      { packet := [[signature], source.take 5]
        unread := []
        result := .error (.parseError message) }
  /-- The packet is all there. -/
  | whole (length consumed : Nat) (h : 5 ≤ source.length)
    (hd : declaredLength source = some (length, consumed))
    (hlow : 6 ≤ length) (hhigh : length ≤ source.length + 1) :
    ParseOutcome source
      (wholeResult (beNat (source.take 2)) consumed (source.take (length - 1))
        (source.drop (length - 1)))

/-- Every call of the parser ends in one of these ways. -/
theorem parse_cases (source : Bytes) : ParseOutcome source (parse source) := by
  unfold parse
  dsimp only
  by_cases h5 : source.length < 5
  · rw [if_pos (by rw [List.length_take]; omega), List.take_of_length_le (by omega),
      List.drop_eq_nil_of_le (by omega)]
    exact .shortHeader _ h5
  · have h : 5 ≤ source.length := by omega
    rw [if_neg (by rw [List.length_take]; omega), parseHeader_eq h]
    cases hd : declaredLength source with
    | none => exact .longLength _ h hd
    | some r =>
      obtain ⟨length, consumed⟩ := r
      dsimp only
      unfold sourceRead
      by_cases hlow : length < 6
      · rw [if_pos (by omega), if_pos (by omega)]
        exact .shortRemainder _ length consumed h hd (.inl hlow)
      · have hneg : ¬ (length : Int) - 6 < 0 := by omega
        have hwanted : ((length : Int) - 6).toNat = length - 6 := by omega
        simp only [if_neg hneg, hwanted, List.length_take, List.length_drop]
        by_cases hhigh : source.length + 1 < length
        · rw [if_pos (by omega), List.drop_eq_nil_of_le (by rw [List.length_drop]; omega)]
          exact .shortRemainder _ length consumed h hd (.inr hhigh)
        · rw [if_neg (by omega)]
          have hwhole : source.take 5 ++ (source.drop 5).take (length - 6)
              = source.take (length - 1) := by
            rw [show length - 1 = 5 + (length - 6) by omega, List.take_add]
          have hrest : (source.drop 5).drop (length - 6) = source.drop (length - 1) := by
            rw [List.drop_drop, show 5 + (length - 6) = length - 1 by omega]
          have htake : (source.take (length - 1)).take 5 = source.take 5 := by
            rw [List.take_take, show min 5 (length - 1) = 5 by omega]
          have hdrop : (source.take (length - 1)).drop 5 = (source.drop 5).take (length - 6) := by
            rw [List.drop_take, show length - 1 - 5 = length - 6 by omega]
          rw [hwhole, hrest, ← htake, ← hdrop, htake]
          have := ParseOutcome.whole length consumed h hd (by omega) (by omega)
          unfold wholeResult at this
          rwa [htake] at this

theorem parse_whole {source : Bytes} {length consumed : Nat} (h : 5 ≤ source.length)
    (hd : declaredLength source = some (length, consumed)) (hlow : 6 ≤ length)
    (hhigh : length ≤ source.length + 1) :
    parse source = wholeResult (beNat (source.take 2)) consumed (source.take (length - 1))
      (source.drop (length - 1)) := by
  have hp := parse_cases source
  generalize parse source = r at hp
  cases hp with
  | shortHeader _ h' => omega
  | longLength _ _ hd' => rw [hd] at hd'; cases hd'
  | shortRemainder _ length' consumed' _ hd' hlen =>
    rw [hd] at hd'
    cases hd'
    omega
  | whole length' consumed' _ hd' _ _ =>
    rw [hd] at hd'
    cases hd'
    rfl

/-! ## Whole packets -/

/-- The checksum does not depend on how the packet is cut into fragments. -/
theorem packetChecksum_eq (before : List Bytes) (last : Bytes) :
    packetChecksum before last
      = (Crc32.crc32 (join before ++ dropLastBytes last 4) 0).toNat := by
  have hfold : ∀ (fragments : List Bytes) (value : BitVec 32),
      fragments.foldl (fun crc fragment => Crc32.crc32 fragment crc) (Crc32.crc32 [] value)
        = Crc32.crc32 fragments.flatten value := by
    intro fragments
    induction fragments with
    | nil => intro value; rfl
    | cons fragment fragments ih =>
      intro value
      rw [List.foldl_cons, List.flatten_cons, Crc32.crc32_append, List.nil_append,
        ← Crc32.crc32_append, ← ih, Crc32.crc32_append, List.append_nil]
  have hnil : Crc32.crc32 [] 0 = 0 := by decide
  have := hfold before 0
  rw [hnil] at this
  rw [packetChecksum, this, Crc32.crc32_append, join]

section ParseBody

variable {flags pos : Nat} {before : List Bytes} {last : Bytes}

/-- A body that is too short to hold a checksum. -/
theorem parseBody_short (h : last.length < 4) :
    parseBody flags before last pos = .error .structError := by
  have : structUnpack 4 (lastBytes last 4) = .error .structError := by
    rw [structUnpack, if_neg (by rw [lastBytes, List.length_drop]; omega)]
  unfold parseBody
  rw [this]
  rfl

theorem parseBody_bad (h : 4 ≤ last.length)
    (hsum : packetChecksum before last ≠ beNat (lastBytes last 4)) :
    ∃ message, parseBody flags before last pos = .error (.parseError message) := by
  unfold parseBody
  rw [structUnpack_of_length (length_lastBytes h), ok_bind, if_pos hsum]
  exact ⟨_, rfl⟩

theorem parseBody_good (h : 4 ≤ last.length)
    (hsum : packetChecksum before last = beNat (lastBytes last 4)) :
    parseBody flags before last pos
      = (readFields flags (dropLastBytes last 4) pos).map (·.1) := by
  unfold parseBody
  rw [structUnpack_of_length (length_lastBytes h), ok_bind, if_neg (by simpa using hsum)]
  cases readFields flags (dropLastBytes last 4) pos <;> rfl

end ParseBody

/-! ## The body of a whole packet -/

/-- The octets of a packet between its length and its checksum; `whole` is the
packet without its signature. -/
def fieldsOf (whole : Bytes) (consumed : Nat) : Bytes := (dropLastBytes whole 4).drop (2 + consumed)

/-- The checksum at the end of a packet is that of the rest of it. -/
def SumMatches (whole : Bytes) : Prop :=
  (Crc32.crc32 (signature :: dropLastBytes whole 4) 0).toNat = beNat (lastBytes whole 4)

theorem sumMatches_append {front sum : Bytes} (hsum : sum.length = 4) :
    SumMatches (front ++ sum) ↔ (Crc32.crc32 (signature :: front) 0).toNat = beNat sum := by
  rw [SumMatches, ← hsum, dropLastBytes_append, lastBytes_append]

theorem fieldsOf_append {head fields sum : Bytes} {consumed : Nat}
    (hhead : head.length = 2 + consumed) (hsum : sum.length = 4) :
    fieldsOf (head ++ fields ++ sum) consumed = fields := by
  rw [fieldsOf, ← hsum, dropLastBytes_append, ← hhead, List.drop_left' rfl]

section Whole

variable {flags consumed : Nat} {whole unread : Bytes}

@[simp] theorem wholeResult_unread : (wholeResult flags consumed whole unread).unread = unread := by
  unfold wholeResult
  split <;> rfl

@[simp] theorem join_wholeResult_packet :
    join (wholeResult flags consumed whole unread).packet = signature :: whole := by
  unfold wholeResult
  split
  · simp [join]
  · simp [join, List.take_append_drop]

/-- The events of a packet do not depend on what follows it. -/
theorem wholeResult_events (unread' : Bytes) :
    (wholeResult flags consumed whole unread).events
      = (wholeResult flags consumed whole unread').events := by
  unfold wholeResult
  by_cases h3 : consumed ≠ 3
  · rw [if_pos h3, if_pos h3]
    rfl
  · rw [if_neg h3, if_neg h3]
    rfl

/-- The last four octets of a packet are those of its last fragment. -/
theorem lastFragment (h9 : 9 ≤ whole.length) :
    lastBytes whole 4 = lastBytes (whole.drop 5) 4
    ∧ dropLastBytes whole 4 = whole.take 5 ++ dropLastBytes (whole.drop 5) 4 := by
  have hdrop4 : 4 ≤ (whole.drop 5).length := by rw [List.length_drop]; omega
  have hlast := lastBytes_append_of_le (whole.take 5) hdrop4
  have hfront := dropLastBytes_append_of_le (whole.take 5) hdrop4
  rw [List.take_append_drop] at hlast hfront
  exact ⟨hlast, hfront⟩

theorem checksum_one :
    packetChecksum [[signature]] whole = beNat (lastBytes whole 4) ↔ SumMatches whole := by
  rw [packetChecksum_eq]
  rfl

theorem checksum_two (h9 : 9 ≤ whole.length) :
    packetChecksum [[signature], whole.take 5] (whole.drop 5)
        = beNat (lastBytes (whole.drop 5) 4) ↔ SumMatches whole := by
  obtain ⟨hlast, hfront⟩ := lastFragment h9
  rw [packetChecksum_eq, SumMatches, hlast, hfront]
  simp [join]

variable (flags unread)

/-- Behind a length of three octets the parser has fewer than four octets to
take the checksum from. -/
theorem wholeResult_short (h3 : consumed = 3) (hlen : whole.length < 9) :
    (wholeResult flags consumed whole unread).result = .error .structError := by
  unfold wholeResult
  rw [if_neg (by simpa using h3)]
  exact parseBody_short (by rw [List.length_drop]; omega)

/-- A packet whose checksum does not match is an error before any of its
fields is looked at. -/
theorem wholeResult_mismatch (h5 : 5 ≤ whole.length) (hlen : consumed = 3 → 9 ≤ whole.length)
    (hsum : ¬ SumMatches whole) :
    ∃ message, (wholeResult flags consumed whole unread).result = .error (.parseError message) := by
  unfold wholeResult
  by_cases h3 : consumed ≠ 3
  · rw [if_pos h3]
    exact parseBody_bad (by omega) (mt checksum_one.mp hsum)
  · have h9 := hlen (not_not.mp h3)
    rw [if_neg h3]
    exact parseBody_bad (by rw [List.length_drop]; omega) (mt (checksum_two h9).mp hsum)

/-- With the checksum right the parser reads the fields. -/
theorem wholeResult_reads (h5 : 5 ≤ whole.length) (hlen : consumed = 3 → 9 ≤ whole.length)
    (hsum : SumMatches whole) :
    ∃ body pos, body.drop pos = fieldsOf whole consumed
      ∧ (wholeResult flags consumed whole unread).result
        = (readFields flags body pos).map (·.1) := by
  unfold wholeResult
  by_cases h3 : consumed ≠ 3
  · rw [if_pos h3]
    exact ⟨dropLastBytes whole 4, 2 + consumed, rfl,
      parseBody_good (by omega) (checksum_one.mpr hsum)⟩
  · have h9 := hlen (not_not.mp h3)
    rw [if_neg h3]
    refine ⟨dropLastBytes (whole.drop 5) 4, 0, ?_,
      parseBody_good (by rw [List.length_drop]; omega) ((checksum_two h9).mpr hsum)⟩
    rw [fieldsOf, (lastFragment h9).2, not_not.mp h3,
      List.drop_left' (by rw [List.length_take]; omega), List.drop_zero]

/-- A packet whose checksum matches is decoded from its fields, or refused for
one of them. -/
theorem wholeResult_good {fine : Prop} {event : StatusEvent} (h5 : 5 ≤ whole.length)
    (hlen : consumed = 3 → 9 ≤ whole.length) (hsum : SumMatches whole)
    (hread : Reads IsParseError fine (readFields flags) (fieldsOf whole consumed) event) :
    (fine ∧ (wholeResult flags consumed whole unread).result = .ok event)
    ∨ (¬ fine ∧ ∃ message,
        (wholeResult flags consumed whole unread).result = .error (.parseError message)) := by
  obtain ⟨body, pos, hbody, hresult⟩ := wholeResult_reads flags unread h5 hlen hsum
  rw [hresult]
  rcases hread body pos [] (by rw [hbody, List.append_nil]) with
    ⟨hfine, hok⟩ | ⟨hfine, e, ⟨message, rfl⟩, he⟩
  · rw [hok]
    exact .inl ⟨hfine, rfl⟩
  · rw [he]
    exact .inr ⟨hfine, message, rfl⟩

end Whole

/-- A packet whose checksum does not match is reported whole, and nothing
after it is read. -/
theorem parse_bad {front sum rest : Bytes} {consumed : Nat}
    (hd : declaredLength (front ++ sum ++ rest) = some (front.length + 5, consumed))
    (hsum : sum.length = 4) (hfront : 5 ≤ front.length ∨ (1 ≤ front.length ∧ consumed ≠ 3))
    (hcrc : (Crc32.crc32 (signature :: front) 0).toNat ≠ beNat sum) :
    (∃ message, (parse (front ++ sum ++ rest)).result = .error (.parseError message))
    ∧ (parse (front ++ sum ++ rest)).unread = rest
    ∧ join (parse (front ++ sum ++ rest)).packet = signature :: (front ++ sum) := by
  have hsub : front.length + 5 - 1 = (front ++ sum).length := by rw [List.length_append]; omega
  rw [parse_whole (by simp only [List.length_append]; omega) hd (by omega)
      (by simp only [List.length_append]; omega), hsub, List.take_left' rfl, List.drop_left' rfl]
  refine ⟨wholeResult_mismatch _ _ ?_ ?_ (mt (sumMatches_append hsum).mp hcrc), wholeResult_unread,
    join_wholeResult_packet⟩
  · rw [List.length_append]
    omega
  · rw [List.length_append]
    omega

/-- A packet that the end of input cuts short is an error, and nothing is
left to read. -/
theorem parse_cut {whole : Bytes} {consumed n : Nat}
    (hd : declaredLength whole = some (whole.length + 1, consumed)) (hn : n < whole.length) :
    (∃ message, (parse (whole.take n)).result = .error (.parseError message))
    ∧ (parse (whole.take n)).unread = [] := by
  have hp := parse_cases (whole.take n)
  have hdn : 5 ≤ (whole.take n).length → declaredLength (whole.take n)
      = some (whole.length + 1, consumed) := by
    intro h5
    rw [List.length_take] at h5
    rw [declaredLength_take (by omega), hd]
  generalize parse (whole.take n) = r at hp
  cases hp with
  | shortHeader message _ => exact ⟨⟨message, rfl⟩, rfl⟩
  | longLength _ h5 hd' => rw [hdn h5] at hd'; cases hd'
  | shortRemainder message _ _ _ _ _ => exact ⟨⟨message, rfl⟩, rfl⟩
  | whole length consumed' h5 hd' _ hhigh =>
    rw [hdn h5] at hd'
    cases hd'
    rw [List.length_take] at hhigh
    omega

/-! ## Packets as they are written -/

/-- The flags and the length of a packet. -/
def headBytes (call : StatusCall) : Bytes :=
  beBytes 2 (packetFlags call) ++ numberBytes (packetLength call)

/-- The checksum of a packet. -/
def sumBytes (call : StatusCall) : Bytes :=
  beBytes 4 (Crc32.crc32 (packetContent call) 0).toNat

/-- A packet without its signature. -/
def unsigned (call : StatusCall) : Bytes := headBytes call ++ fieldsBytes call ++ sumBytes call

theorem packetBytes_eq (call : StatusCall) : packetBytes call = signature :: unsigned call := by
  simp only [packetBytes, packetContent, unsigned, headBytes, sumBytes, List.cons_append]

theorem length_unsigned (call : StatusCall) : (unsigned call).length + 1 = packetLength call := by
  rw [← length_packetBytes, packetBytes_eq, List.length_cons]

theorem length_headBytes (call : StatusCall) :
    (headBytes call).length = 2 + numberWidth (packetLength call) := by
  rw [headBytes, List.length_append, length_beBytes, length_numberBytes]

theorem length_sumBytes (call : StatusCall) : (sumBytes call).length = 4 := length_beBytes _ _

/-- The flags stand at the head, whatever comes after them. -/
theorem flags_of_head {call : StatusCall} {tail : Bytes} :
    beNat ((beBytes 2 (packetFlags call) ++ tail).take 2) = packetFlags call := by
  rw [List.take_left' (length_beBytes _ _),
    beNat_beBytes 2 _ (Nat.lt_of_lt_of_eq (packetFlags_lt call) (by decide))]

/-- A header says how long its packet is, whatever comes after the length. -/
theorem declaredLength_of_head {flagBytes tail : Bytes} {length : Nat}
    (hflags : flagBytes.length = 2) (hlen : length ≤ maxPacketLength)
    (h : 5 ≤ (flagBytes ++ (numberBytes length ++ tail)).length) :
    declaredLength (flagBytes ++ (numberBytes length ++ tail))
      = some (length, numberWidth length) := by
  have hwidth : numberWidth length ≤ 3 := by
    unfold maxPacketLength at hlen
    unfold numberWidth
    split
    · omega
    · split
      · omega
      · rw [if_pos (by omega)]
  have hd : ((flagBytes ++ (numberBytes length ++ tail)).take 5).drop 2
      = numberBytes length ++ tail.take (3 - numberWidth length) := by
    rw [List.drop_take, ← hflags, List.drop_left' rfl, hflags, List.take_append,
      List.take_of_length_le (by rw [length_numberBytes]; omega), length_numberBytes]
  have hn := parseVarint_numberBytes true
    (by unfold maxPacketLength at hlen; omega) (by unfold maxPacketLength at hlen; omega) hd
  rw [parseVarint_header h] at hn
  cases hdl : declaredLength (flagBytes ++ (numberBytes length ++ tail)) with
  | none => rw [hdl] at hn; cases hn
  | some r =>
    rw [hdl] at hn
    cases hn
    rfl

theorem declaredLength_unsigned_append {call : StatusCall}
    (hlen : packetLength call ≤ maxPacketLength) (rest : Bytes) :
    declaredLength (unsigned call ++ rest)
      = some (packetLength call, numberWidth (packetLength call)) := by
  have hge := packetLength_ge call
  have hul := length_unsigned call
  have h5 : 5 ≤ (unsigned call ++ rest).length := by rw [List.length_append]; omega
  have hshape : unsigned call ++ rest = beBytes 2 (packetFlags call)
      ++ (numberBytes (packetLength call) ++ (fieldsBytes call ++ sumBytes call ++ rest)) := by
    simp only [unsigned, headBytes, List.append_assoc]
  rw [hshape] at h5 ⊢
  exact declaredLength_of_head (length_beBytes _ _) hlen h5

/-- A packet declares its own length. -/
theorem declaredLength_unsigned {call : StatusCall} (hlen : packetLength call ≤ maxPacketLength) :
    declaredLength (unsigned call) = some (packetLength call, numberWidth (packetLength call)) := by
  have := declaredLength_unsigned_append hlen []
  rwa [List.append_nil] at this

/-- A written packet is a whole packet, whatever follows. -/
theorem parse_unsigned_eq {call : StatusCall} (hlen : packetLength call ≤ maxPacketLength)
    (rest : Bytes) :
    parse (unsigned call ++ rest)
      = wholeResult (packetFlags call) (numberWidth (packetLength call)) (unsigned call) rest := by
  have hge := packetLength_ge call
  have hul := length_unsigned call
  have h5 : 5 ≤ (unsigned call ++ rest).length := by rw [List.length_append]; omega
  have hd := declaredLength_unsigned_append hlen rest
  have hflags : beNat ((unsigned call ++ rest).take 2) = packetFlags call := by
    simp only [unsigned, headBytes, List.append_assoc]
    exact flags_of_head
  have hsub : packetLength call - 1 = (unsigned call).length := by omega
  rw [parse_whole h5 hd (by omega) (by rw [List.length_append]; omega), hflags, hsub,
    List.take_left' rfl, List.drop_left' rfl]

/-- **A written packet is decoded**, or refused for a zero byte in a text, and
nothing after it is read. -/
theorem parse_unsigned {call : StatusCall} (h : Written call) (rest : Bytes) :
    ((Readable call.event ∧ (parse (unsigned call ++ rest)).result = .ok (carried call.event))
      ∨ (¬ Readable call.event
        ∧ ∃ message, (parse (unsigned call ++ rest)).result = .error (.parseError message)))
    ∧ (parse (unsigned call ++ rest)).unread = rest
    ∧ join (parse (unsigned call ++ rest)).packet = packetBytes call := by
  obtain ⟨hwritable, hlen⟩ := written_iff.mp h
  rw [parse_unsigned_eq hlen]
  refine ⟨?_, wholeResult_unread, by rw [join_wholeResult_packet, packetBytes_eq]⟩
  have hul := length_unsigned call
  have hge := packetLength_ge call
  have hhead := length_headBytes call
  have hsum := length_sumBytes call
  have hfields : fieldsOf (unsigned call) (numberWidth (packetLength call)) = fieldsBytes call :=
    fieldsOf_append hhead hsum
  have hlength : (unsigned call).length
      = (headBytes call).length + (fieldsBytes call).length + (sumBytes call).length := by
    rw [unsigned, List.length_append, List.length_append]
  refine wholeResult_good _ _ (by omega) (fun h3 => by omega) ((sumMatches_append hsum).mpr ?_) ?_
  · rw [sumBytes, beNat_beBytes 4 _ (Nat.lt_of_lt_of_eq (BitVec.isLt _) (by decide))]
    rfl
  · rw [hfields]
    exact reads_fields hwritable (by unfold maxPacketLength at hlen; omega)

/-- The events of a written packet. -/
def packetEvents (call : StatusCall) : List StatusEvent := (parse (unsigned call)).events

/-- The events of a packet do not depend on what follows it. -/
theorem events_unsigned {call : StatusCall} (h : Written call) (rest : Bytes) :
    (parse (unsigned call ++ rest)).events = packetEvents call := by
  have hlen := (written_iff.mp h).2
  have hnil := parse_unsigned_eq hlen []
  rw [List.append_nil] at hnil
  rw [packetEvents, parse_unsigned_eq hlen, hnil]
  exact wholeResult_events []

/-- A written packet raises nothing that the parser does not report. -/
theorem raised_unsigned {call : StatusCall} (h : Written call) (rest : Bytes) :
    (parse (unsigned call ++ rest)).raised = none := by
  obtain ⟨⟨-, hok⟩ | ⟨-, message, he⟩, -⟩ := parse_unsigned h rest
  · rw [ParseResult.raised, hok]
  · rw [ParseResult.raised, he]

/-- A readable packet is one event. -/
theorem packetEvents_readable {call : StatusCall} (h : Written call) (hr : Readable call.event) :
    packetEvents call = [carried call.event] := by
  rw [← events_unsigned h []]
  obtain ⟨⟨-, hok⟩ | ⟨hnot, -⟩, -⟩ := parse_unsigned h []
  · rw [ParseResult.events, hok]
  · exact absurd hr hnot

/-- A packet with a zero byte in a text is reported, all of it. -/
theorem packetEvents_not_readable {call : StatusCall} (h : Written call)
    (hr : ¬ Readable call.event) :
    ∃ message, packetEvents call = parserErrors [packetBytes call] message := by
  rw [← events_unsigned h []]
  obtain ⟨⟨hfine, -⟩ | ⟨-, message, he⟩, -, hjoin⟩ := parse_unsigned h []
  · exact absurd hfine hr
  · refine ⟨message, ?_⟩
    rw [ParseResult.events, he]
    unfold parserErrors
    rw [hjoin, join, List.flatten_singleton]

/-- The event of an encodable packet is the one that was written. -/
theorem packetEvents_encodable {call : StatusCall} (h : Written call)
    (he : Encodable call.event) : packetEvents call = [delivered call.event] := by
  rw [packetEvents_readable h he.readable, carried_eq_delivered he]

end Pysubunit.V2
