/-
Pysubunit.V2.GrammarTheorems — the packet grammar of the README, and what the
parser takes for a packet.

`PacketFormat` and `Packet` state the grammar as the README does, as formats:
a packet is its signature, flags, length, fields and checksum, with nothing in
between. The scanners of the body decide its formats (`scans_fields`), and
`isPacket_iff` says of a packet what the header and the checksum have to be.
The parser asks for less. It does not look at the version and at the reserved
bit, it leaves bytes between the fields and the checksum unread, it takes the
checksum from the last four bytes even where these begin inside the length,
and it does not report an `Overrun`. `parse_packet_iff` says that this is all.
-/
import Pysubunit.ByteLib.Format
import Pysubunit.V2.Grammar

namespace Pysubunit.V2

open ByteLib

/-! ## The grammar -/

namespace PacketFormat

/-- A number: the top two bits of its first octet say how many follow. -/
def number : Format Nat := fun n b =>
  ∃ b0 more, b = b0 :: more ∧ more.length = b0.toNat / 64
    ∧ n = b0.toNat % 64 * 256 ^ more.length + beNat more

/-- A UTF-8 string of so many octets, without U+0000. -/
def utf8 (length : Nat) : Format String := fun s b =>
  b = utf8Bytes s ∧ NulFree s ∧ b.length = length

/-- A string behind its length. -/
def text : Format String := do
  let length ← number
  utf8 length

/-- A word of 32 bits. -/
def word : Format Nat := fun n b => n = beNat b ∧ b.length = 4

/-- Seconds and nanoseconds since the epoch. -/
def timestamp : Format DateTime := do
  let seconds ← word
  let nanoseconds ← number
  return ⟨seconds * 1000000 + roundedThousandth nanoseconds⟩

/-- A length-prefixed vector of strings, which have no order. -/
def tags : Format (Finset String) := do
  let tagCount ← number
  let tags ← Format.replicate text tagCount
  return tags.toFinset

/-- A name, a length and as many octets. -/
def file : Format (String × Bytes) := do
  let fileName ← text
  let contentLength ← number
  let fileBytes ← Format.take contentLength
  return (fileName, fileBytes)

/-- `TIMESTAMP? TESTID? TAGS? MIME? FILECONTENT? ROUTING_CODE?` -/
def fields (flags : Nat) : Format StatusEvent := do
  let timestamp ← Format.optionally (hasFlag flags flagTimestamp) timestamp
  let testId ← Format.optionally (hasFlag flags flagTestId) text
  let testTags ← Format.optionally (hasFlag flags flagTags) tags
  let mimeType ← Format.optionally (hasFlag flags flagMimeType) text
  let file ← Format.optionally (hasFlag flags flagFileContent) file
  let routeCode ← Format.optionally (hasFlag flags flagRouteCode) text
  return {
    testId, testTags, mimeType, routeCode, timestamp
    testStatus := statusLookup (flags &&& 0x0007)
    runnable := hasFlag flags flagRunnable
    eof := hasFlag flags flagEof
    fileName := file.map (·.1)
    fileBytes := file.map (·.2) }

end PacketFormat

/-- The flags of version 2: the version in the top nibble, and bit 3 zero. -/
def VersionTwo (flags : Nat) : Prop := flags / 4096 = 2 ∧ hasFlag flags 0x0008 = false

instance (flags : Nat) : Decidable (VersionTwo flags) := inferInstanceAs (Decidable (_ ∧ _))

/-- `SIGNATURE FLAGS PACKET_LENGTH` and the fields, `CRC32`: the parts of a
version 2 packet, and the event they spell. -/
structure Packet (p : Bytes) where
  flagBytes : Bytes
  lengthBytes : Bytes
  fields : Bytes
  sum : Bytes
  event : StatusEvent
  parts : p = signature :: (flagBytes ++ lengthBytes ++ fields ++ sum)
  flags_word : flagBytes.length = 2
  version : VersionTwo (beNat flagBytes)
  length_counts : PacketFormat.number p.length lengthBytes
  length_octets : lengthBytes.length ≤ 3
  fields_spell : PacketFormat.fields (beNat flagBytes) event fields
  sum_word : sum.length = 4
  sum_checks : beNat sum
    = (Crc32.crc32 (signature :: (flagBytes ++ lengthBytes ++ fields)) 0).toNat

/-- A version 2 packet of the grammar. -/
def IsPacket (p : Bytes) : Prop := Nonempty (Packet p)

/-! ## The scanners decide the formats -/

theorem scans_number : Scans Grammar.number PacketFormat.number := by
  intro rem n rest
  constructor
  · intro h
    cases rem with
    | nil => cases h
    | cons b0 rem =>
      simp only [Grammar.number] at h
      split at h
      · cases h
      · rename_i hmore
        have hlen : (rem.take (b0.toNat / 64)).length = b0.toNat / 64 := by
          rw [List.length_take]
          omega
        cases h
        refine ⟨b0 :: rem.take (b0.toNat / 64), ⟨b0, _, rfl, hlen, by rw [hlen]⟩, ?_⟩
        rw [List.cons_append, List.take_append_drop]
  · rintro ⟨b, ⟨b0, more, rfl, hlen, rfl⟩, rfl⟩
    have hfits : ¬ (more ++ rest).length < b0.toNat / 64 := by
      rw [List.length_append]
      omega
    simp only [List.cons_append, Grammar.number, if_neg hfits]
    rw [List.take_left' hlen, List.drop_left' hlen, hlen]

/-- The text of some bytes is the one they encode. -/
theorem textOf_iff {utf8 : Bytes} {s : String} :
    Grammar.textOf utf8 = some s ↔ utf8 = utf8Bytes s ∧ NulFree s := by
  unfold Grammar.textOf
  constructor
  · intro h
    split at h
    · cases h
    · rename_i hzero
      split at h
      · rename_i chars hdecode
        cases h
        have henc : utf8 = utf8Bytes (String.ofList chars) := by
          rw [utf8Bytes, String.toList_ofList]
          exact Utf8.encode_of_decode hdecode
        refine ⟨henc, zero_not_mem_utf8Bytes.mp ?_⟩
        rwa [← henc]
      · cases h
  · rintro ⟨rfl, hs⟩
    rw [if_neg (zero_not_mem_utf8Bytes.mpr hs), utf8Bytes, Utf8.decode_encode]
    exact congrArg some String.ofList_toList

theorem scans_utf8 (length : Nat) : Scans (Grammar.utf8 length) (PacketFormat.utf8 length) := by
  intro rem s rest
  unfold Grammar.utf8
  constructor
  · intro h
    split at h
    · rename_i hlen
      split at h
      · rename_i s' htext
        cases h
        obtain ⟨henc, hs⟩ := textOf_iff.mp htext
        refine ⟨rem.take length, ⟨henc, hs, List.length_take_of_le hlen⟩, ?_⟩
        rw [List.take_append_drop]
      · cases h
    · cases h
  · rintro ⟨b, ⟨hb, hs, hlen⟩, rfl⟩
    rw [if_pos (by rw [List.length_append]; omega), List.take_left' hlen, List.drop_left' hlen,
      textOf_iff.mpr ⟨hb, hs⟩]

theorem scans_text : Scans Grammar.text PacketFormat.text := scans_number.bind scans_utf8

theorem scans_word : Scans Grammar.word PacketFormat.word := by
  intro rem n rest
  unfold Grammar.word
  constructor
  · intro h
    split at h
    · rename_i hlen
      cases h
      exact ⟨rem.take 4, ⟨rfl, List.length_take_of_le hlen⟩, (List.take_append_drop 4 rem).symm⟩
    · cases h
  · rintro ⟨b, ⟨rfl, hlen⟩, rfl⟩
    rw [if_pos (by rw [List.length_append]; omega), List.take_left' hlen, List.drop_left' hlen]

theorem scans_timestamp : Scans Grammar.timestamp PacketFormat.timestamp :=
  scans_word.bind fun _ => scans_number.bind fun _ => Scans.pure _

theorem scans_tags : Scans Grammar.tags PacketFormat.tags :=
  scans_number.bind fun n => (scans_text.replicate n).bind fun _ => Scans.pure _

theorem scans_file : Scans Grammar.file PacketFormat.file :=
  scans_text.bind fun _ => scans_number.bind fun n => (Scans.take .refused n).bind fun _ =>
    Scans.pure _

/-- **The fields are scanned as the grammar has them.** -/
theorem scans_fields (flags : Nat) :
    Scans (Grammar.fields flags) (PacketFormat.fields flags) :=
  (scans_timestamp.optionally _).bind fun _ => (scans_text.optionally _).bind fun _ =>
    (scans_tags.optionally _).bind fun _ => (scans_text.optionally _).bind fun _ =>
      (scans_file.optionally _).bind fun _ => (scans_text.optionally _).bind fun _ =>
        Scans.pure _

/-! ## The header -/

/-- A number that begins behind the flags declares the length. -/
theorem declaredLength_of_number {flagBytes lengthBytes tail : Bytes} {n : Nat}
    (hflags : flagBytes.length = 2) (hn : PacketFormat.number n lengthBytes)
    (hoctets : lengthBytes.length ≤ 3)
    (h : 5 ≤ (flagBytes ++ (lengthBytes ++ tail)).length) :
    declaredLength (flagBytes ++ (lengthBytes ++ tail)) = some (n, lengthBytes.length) := by
  obtain ⟨b0, more, rfl, hmore, rfl⟩ := hn
  have hb0 := b0.toNat_lt
  rw [List.length_append, hflags] at h
  simp only [List.length_cons, List.length_append] at h hoctets
  rw [declaredLength, ← hflags, List.drop_left' rfl, List.cons_append]
  rcases more with _ | ⟨b1, _ | ⟨b2, _ | ⟨b3, more⟩⟩⟩
  · obtain ⟨b1, b2, rest, rfl⟩ : ∃ b1 b2 rest, tail = b1 :: b2 :: rest := by
      rcases tail with _ | ⟨b1, _ | ⟨b2, rest⟩⟩
      · simp at h
      · simp at h
      · exact ⟨b1, b2, rest, rfl⟩
    have hone : b0.toNat < 64 := by simp at hmore; omega
    simp [beNat, hone, Nat.mod_eq_of_lt hone]
  · obtain ⟨b2, rest, rfl⟩ : ∃ b2 rest, tail = b2 :: rest := by
      rcases tail with _ | ⟨b2, rest⟩
      · simp at h
      · exact ⟨b2, rest, rfl⟩
    have htwo : ¬ b0.toNat < 64 ∧ b0.toNat < 128 ∧ b0.toNat % 64 = b0.toNat - 64 := by
      simp only [List.length_singleton] at hmore
      omega
    simp [beNat, htwo.1, htwo.2.1, htwo.2.2, hflags]
  · have hthree : ¬ b0.toNat < 64 ∧ ¬ b0.toNat < 128 ∧ b0.toNat < 192
        ∧ b0.toNat % 64 = b0.toNat - 128 := by
      simp only [List.length_cons, List.length_nil] at hmore
      omega
    simp [beNat, hthree.1, hthree.2.1, hthree.2.2.1, hthree.2.2.2]
  · simp only [List.length_cons] at hoctets
    omega

/-- What declares the length is a number behind the flags. -/
theorem number_of_declaredLength {source : Bytes} {n consumed : Nat}
    (h : declaredLength source = some (n, consumed)) :
    PacketFormat.number n ((source.drop 2).take consumed) ∧ 1 ≤ consumed ∧ consumed ≤ 3 := by
  obtain ⟨b0, b1, b2, rest, hd, -⟩ := drop_two_header (length_of_declaredLength h)
  rw [declaredLength, hd] at h
  rw [hd]
  dsimp only at h
  split at h
  · cases h
    refine ⟨⟨b0, [], rfl, ?_, ?_⟩, by omega, by omega⟩
    · simp
      omega
    · simp [beNat]
      omega
  · split at h
    · cases h
      refine ⟨⟨b0, [b1], rfl, ?_, ?_⟩, by omega, by omega⟩
      · simp
        omega
      · simp [beNat]
        omega
    · split at h
      · cases h
        refine ⟨⟨b0, [b1, b2], rfl, ?_, ?_⟩, by omega, by omega⟩
        · simp
          omega
        · simp [beNat]
          omega
      · cases h

/-! ## Packets of the grammar -/

/-- **What a packet is**, in terms of the bytes after its signature. -/
theorem isPacket_iff {source : Bytes} :
    IsPacket (signature :: source) ↔
      ∃ consumed event, declaredLength source = some (source.length + 1, consumed)
        ∧ 6 + consumed ≤ source.length ∧ SumMatches source
        ∧ Grammar.fields (beNat (source.take 2)) (fieldsOf source consumed) = .ok (event, [])
        ∧ VersionTwo (beNat (source.take 2)) := by
  constructor
  · rintro ⟨⟨flagBytes, lengthBytes, fields, sum, event, hparts, hflags, hversion, hlength,
      hoctets, hfields, hsum, hcheck⟩⟩
    have hsource : source = flagBytes ++ lengthBytes ++ fields ++ sum := (List.cons.inj hparts).2
    have hsize : source.length = 2 + lengthBytes.length + fields.length + 4 := by
      rw [hsource]
      simp only [List.length_append]
      omega
    have htake : source.take 2 = flagBytes := by
      rw [hsource, List.append_assoc, List.append_assoc, ← hflags, List.take_left' rfl]
    have hshape : source = flagBytes ++ (lengthBytes ++ (fields ++ sum)) := by
      rw [hsource]
      simp only [List.append_assoc]
    rw [List.length_cons] at hlength
    refine ⟨lengthBytes.length, event, ?_, by omega, ?_, ?_, by rwa [htake]⟩
    · have h5 : 5 ≤ (flagBytes ++ (lengthBytes ++ (fields ++ sum))).length := by
        obtain ⟨b0, more, rfl, -⟩ := hlength
        rw [← hshape, hsize, List.length_cons]
        omega
      have hdeclared := declaredLength_of_number hflags hlength hoctets h5
      rwa [← hshape] at hdeclared
    · rw [hsource]
      exact (sumMatches_append hsum).mpr hcheck.symm
    · have hbody : fieldsOf source lengthBytes.length = fields := by
        rw [hsource]
        exact fieldsOf_append (by rw [List.length_append, hflags]) hsum
      have hscan := (scans_fields (beNat flagBytes)).scan hfields []
      rw [List.append_nil] at hscan
      rw [htake, hbody, hscan]
  · rintro ⟨consumed, event, hd, hsize, hsum, hfields, hversion⟩
    obtain ⟨hnumber, -, hoctets⟩ := number_of_declaredLength hd
    have hhead : (dropLastBytes source 4).take (2 + consumed) = source.take (2 + consumed) := by
      rw [dropLastBytes, List.take_take]
      congr 1
      omega
    have hfront : dropLastBytes source 4
        = source.take 2 ++ (source.drop 2).take consumed ++ fieldsOf source consumed := by
      rw [fieldsOf, ← List.take_add, ← hhead, List.take_append_drop]
    have hparts : source = source.take 2 ++ (source.drop 2).take consumed
        ++ fieldsOf source consumed ++ lastBytes source 4 := by
      rw [← hfront, dropLastBytes, lastBytes, List.take_append_drop]
    obtain ⟨enc, hspell, henc⟩ := (scans_fields _ _ _ _).mp hfields
    rw [List.append_nil] at henc
    have hlen : ((source.drop 2).take consumed).length = consumed := by
      rw [List.length_take, List.length_drop]
      omega
    refine ⟨⟨source.take 2, (source.drop 2).take consumed, fieldsOf source consumed,
      lastBytes source 4, event, congrArg (signature :: ·) hparts, ?_, hversion, hnumber, by omega,
      henc ▸ hspell, length_lastBytes (by omega), ?_⟩⟩
    · rw [List.length_take]
      omega
    · rw [← hfront]
      exact hsum.symm

/-! ## What the parser decodes -/

/-- What the parser asks of a packet that it decodes as `event`, with the bytes
`left` between the fields and the checksum. -/
structure Decodes (source : Bytes) (length consumed : Nat) (event : StatusEvent) (left : Bytes) :
    Prop where
  declared : declaredLength source = some (length, consumed)
  low : 6 ≤ length
  high : length ≤ source.length + 1
  room : consumed = 3 → 10 ≤ length
  sum : SumMatches (source.take (length - 1))
  fields : Grammar.fields (beNat (source.take 2)) (fieldsOf (source.take (length - 1)) consumed)
    = .ok (event, left)

theorem parse_ok_iff {source : Bytes} {event : StatusEvent} :
    (parse source).result = .ok event
      ↔ ∃ length consumed left, Decodes source length consumed event left := by
  have hp := parse_cases source
  generalize hr : parse source = r at hp
  cases hp with
  | shortHeader message h =>
    refine iff_of_false (by simp) ?_
    rintro ⟨length, consumed, left, hd, -⟩
    have := length_of_declaredLength hd
    omega
  | longLength message h hd =>
    refine iff_of_false (by simp) ?_
    rintro ⟨length, consumed, left, hd', -⟩
    rw [hd] at hd'
    cases hd'
  | shortRemainder message length consumed h hd hlen =>
    refine iff_of_false (by simp) ?_
    rintro ⟨length', consumed', left, hd', hlow, hhigh, -⟩
    rw [hd] at hd'
    cases hd'
    omega
  | whole length consumed h hd hlow hhigh =>
    have hlen : (source.take (length - 1)).length = length - 1 := by
      rw [List.length_take]
      omega
    constructor
    · intro hok
      by_cases hshort : consumed = 3 ∧ length < 10
      · rw [wholeResult_short _ _ hshort.1 (by omega)] at hok
        cases hok
      have h9 : consumed = 3 → 9 ≤ (source.take (length - 1)).length := by omega
      by_cases hsum : SumMatches (source.take (length - 1))
      · have hfields := wholeResult_fields (beNat (source.take 2))
          (source.drop (length - 1)) (by omega) h9 hsum
        cases hf : Grammar.fields (beNat (source.take 2))
            (fieldsOf (source.take (length - 1)) consumed) with
        | ok p =>
          rw [hf] at hfields
          rw [hfields] at hok
          cases hok
          exact ⟨length, consumed, p.2, hd, hlow, hhigh, by omega, hsum, hf⟩
        | error x =>
          rw [hf] at hfields
          obtain ⟨e, he, -⟩ := hfields
          rw [he] at hok
          cases hok
      · obtain ⟨message, he⟩ := wholeResult_mismatch (beNat (source.take 2))
          (source.drop (length - 1)) (by omega) h9 hsum
        rw [he] at hok
        cases hok
    · rintro ⟨length', consumed', left, hd', -, -, hroom, hsum, hf⟩
      rw [hd] at hd'
      cases hd'
      have h9 : consumed = 3 → 9 ≤ (source.take (length - 1)).length := by
        intro h3
        have := hroom h3
        omega
      have hfields := wholeResult_fields (beNat (source.take 2))
        (source.drop (length - 1)) (by omega) h9 hsum
      rw [hf] at hfields
      exact hfields

/-- A packet that is decoded is consumed, and nothing more. -/
theorem Decodes.unread {source : Bytes} {length consumed : Nat} {event : StatusEvent}
    {left : Bytes} (h : Decodes source length consumed event left) :
    (parse source).unread = source.drop (length - 1) := by
  rw [parse_whole (length_of_declaredLength h.declared) h.declared h.low h.high,
    wholeResult_unread]

/-- A source is decoded in one way at most. -/
theorem Decodes.unique {source : Bytes} {length length' consumed consumed' : Nat}
    {event event' : StatusEvent} {left left' : Bytes}
    (h : Decodes source length consumed event left)
    (h' : Decodes source length' consumed' event' left') :
    length' = length ∧ consumed' = consumed ∧ event' = event ∧ left' = left := by
  have hd := h.declared
  rw [h'.declared] at hd
  cases hd
  have hfields := h.fields
  rw [h'.fields] at hfields
  cases hfields
  exact ⟨rfl, rfl, rfl, rfl⟩

/-- Where the parser decodes what is no packet of the grammar: the version is
not 2 or bit 3 is set, bytes are left between the fields and the checksum, the
checksum begins inside the header, or more follows. -/
def Lax (source : Bytes) : Prop :=
  ∃ length consumed event left, Decodes source length consumed event left
    ∧ (¬ VersionTwo (beNat (source.take 2)) ∨ left ≠ [] ∨ length < 7 + consumed
      ∨ length < source.length + 1)

/-- A packet of the grammar is decoded, and it is all there is. -/
theorem isPacket_iff_decodes {source : Bytes} :
    IsPacket (signature :: source) ↔
      ∃ consumed event, Decodes source (source.length + 1) consumed event []
        ∧ VersionTwo (beNat (source.take 2)) ∧ 7 + consumed ≤ source.length + 1 := by
  have hall : source.take (source.length + 1 - 1) = source := List.take_length
  rw [isPacket_iff]
  constructor
  · rintro ⟨consumed, event, hd, hsize, hsum, hfields, hversion⟩
    have := (number_of_declaredLength hd).2
    refine ⟨consumed, event, ⟨hd, by omega, Nat.le_refl _, by omega, ?_, ?_⟩, hversion, by omega⟩
    · rwa [hall]
    · rwa [hall]
  · rintro ⟨consumed, event, ⟨hd, -, -, -, hsum, hfields⟩, hversion, hsize⟩
    rw [hall] at hsum hfields
    exact ⟨consumed, event, hd, by omega, hsum, hfields, hversion⟩

/-- What is decoded is a packet unless the parser was lax. -/
theorem Decodes.isPacket_iff {source : Bytes} {length consumed : Nat} {event : StatusEvent}
    {left : Bytes} (h : Decodes source length consumed event left) :
    IsPacket (signature :: source)
      ↔ ¬ (¬ VersionTwo (beNat (source.take 2)) ∨ left ≠ [] ∨ length < 7 + consumed
        ∨ length < source.length + 1) := by
  rw [isPacket_iff_decodes]
  constructor
  · intro hpacket hlax
    obtain ⟨consumed', event', hdec, hversion, hsize⟩ := hpacket
    obtain ⟨hlength, hconsumed, -, hleft⟩ := h.unique hdec
    rcases hlax with hlax | hlax | hlax | hlax
    · exact hlax hversion
    · exact hlax hleft.symm
    · omega
    · omega
  · intro hstrict
    simp only [not_or, not_not, Nat.not_lt] at hstrict
    obtain ⟨hversion, hleft, hsize, hwhole⟩ := hstrict
    have hlen : length = source.length + 1 := Nat.le_antisymm h.high hwhole
    subst hleft
    subst hlen
    exact ⟨consumed, event, h, hversion, hsize⟩

/-- `_parse_packet` decodes the packets of the grammar, each of them to its end,
and reports everything else. -/
structure ReadsGrammar (source : Bytes) : Prop where
  decoded : ((∃ event, (parse source).events = [event]) ∧ (parse source).unread = [])
    ↔ IsPacket (signature :: source)
  reported : ¬ IsPacket (signature :: source) → (parse source).raised = none
    ∧ ∃ message, (parse source).events = parserErrors (parse source).packet message

/-- A single event is one that was decoded. -/
theorem events_singleton_iff {r : ParseResult} :
    (∃ event, r.events = [event]) ↔ ∃ event, r.result = .ok event := by
  unfold ParseResult.events
  constructor
  · rintro ⟨event, h⟩
    split at h
    · rename_i event' hr
      exact ⟨event', hr⟩
    · simp [parserErrors] at h
    · cases h
  · rintro ⟨event, h⟩
    rw [h]
    exact ⟨event, rfl⟩

/-- **The grammar is read** exactly where the parser decodes nothing that it
should refuse, and is not overrun. -/
theorem parse_packet_iff (source : Bytes) :
    ReadsGrammar source ↔ ¬ Lax source ∧ ¬ Overrun source := by
  constructor
  · intro hreads
    constructor
    · intro hlax
      obtain ⟨length, consumed, event, left, hdec, hlax⟩ := hlax
      have hnot : ¬ IsPacket (signature :: source) := fun hpacket =>
        hdec.isPacket_iff.mp hpacket hlax
      obtain ⟨-, message, hevents⟩ := hreads.reported hnot
      have hok : (parse source).result = .ok event := parse_ok_iff.mpr ⟨_, _, _, hdec⟩
      rw [ParseResult.events, hok] at hevents
      simp [parserErrors] at hevents
    · intro hover
      have hraised := (parse_raised_iff source _).mpr ⟨hover, rfl⟩
      by_cases hpacket : IsPacket (signature :: source)
      · obtain ⟨⟨event, hevents⟩, -⟩ := hreads.decoded.mpr hpacket
        obtain ⟨event, hok⟩ := events_singleton_iff.mp ⟨event, hevents⟩
        rw [ParseResult.raised, hok] at hraised
        cases hraised
      · rw [(hreads.reported hpacket).1] at hraised
        cases hraised
  · intro hstrict
    obtain ⟨hlax, hover⟩ := hstrict
    have hpackets : ∀ {event}, (parse source).result = .ok event →
        IsPacket (signature :: source) := by
      intro event hok
      obtain ⟨length, consumed, left, hdec⟩ := parse_ok_iff.mp hok
      exact hdec.isPacket_iff.mpr fun h => hlax ⟨_, _, _, _, hdec, h⟩
    constructor
    · rw [events_singleton_iff]
      constructor
      · intro hdecoded
        obtain ⟨⟨event, hok⟩, -⟩ := hdecoded
        exact hpackets hok
      · intro hpacket
        obtain ⟨consumed, event, hdec, -⟩ := isPacket_iff_decodes.mp hpacket
        refine ⟨⟨event, parse_ok_iff.mpr ⟨_, _, _, hdec⟩⟩, ?_⟩
        rw [hdec.unread]
        exact List.drop_length
    · intro hpacket
      rcases parse_result_cases source with ⟨-, ⟨event, hok⟩ | ⟨message, he⟩⟩ | ⟨ho, -⟩
      · exact absurd (hpackets hok) hpacket
      · exact ⟨by rw [ParseResult.raised, he], message, by rw [ParseResult.events, he]⟩
      · exact absurd ho hover

/-- A packet of version 3 is decoded. -/
theorem parse_takes_version_three :
    ¬ ReadsGrammar [0x39, 0x01, 0x0C, 0x03, 0x66, 0x6F, 0x6F, 0x6F, 0x8B, 0xC3, 0xD5] := by
  intro h
  have hdecoded : (parse [0x39, 0x01, 0x0C, 0x03, 0x66, 0x6F, 0x6F, 0x6F, 0x8B, 0xC3, 0xD5]).events
      = [{ testId := some "foo", testStatus := some .exists }] := by decide +kernel
  have hunread : (parse [0x39, 0x01, 0x0C, 0x03, 0x66, 0x6F, 0x6F, 0x6F, 0x8B, 0xC3, 0xD5]).unread
      = [] := by decide +kernel
  obtain ⟨consumed, event, -, hversion, -⟩ :=
    isPacket_iff_decodes.mp (h.decoded.mp ⟨⟨_, hdecoded⟩, hunread⟩)
  exact absurd hversion (by decide)

end Pysubunit.V2
