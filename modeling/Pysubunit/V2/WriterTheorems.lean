/-
Pysubunit.V2.WriterTheorems — what `StreamResultToBytes` writes.

`packetBytes` is the packet of a call in closed form, and `packetLength` the
length it would have. For a `Writable` event the call writes exactly that
packet when its length is within the policy and raises `ValueError`
otherwise (`writePacket_spec`): a number too large to encode belongs to a
field that is itself too long, so the two checks of the writer agree. Any
other event is refused before that (`writable_of_writePacket`).
`writeLoop_written` is the write loop: whatever each write accepts, all of
the data arrives, once and in order.
-/
import Pysubunit.V2.NumberTheorems

namespace Pysubunit.V2

open ByteLib

/-! ## Encodable events -/

/-- A string without U+0000. -/
def NulFree (s : String) : Prop := '\x00' ∉ s.toList

instance (s : String) : Decidable (NulFree s) := inferInstanceAs (Decidable (_ ∉ _))

/-- The events that have a packet: a file with a name has content, and the
seconds of the time stamp fit their word. -/
structure Writable (e : StatusEvent) : Prop where
  file : e.fileName.isSome → e.fileBytes.isSome
  timestamp : ∀ t ∈ e.timestamp, 0 ≤ t.micros ∧ t.micros < 4294967296 * 1000000

/-- The events that the parser reads back: no text of them holds U+0000. -/
structure Readable (e : StatusEvent) : Prop where
  testId : ∀ s ∈ e.testId, NulFree s
  testTags : ∀ tags ∈ e.testTags, ∀ tag ∈ tags, NulFree tag
  mimeType : ∀ s ∈ e.mimeType, NulFree s
  fileName : ∀ s ∈ e.fileName, NulFree s
  routeCode : ∀ s ∈ e.routeCode, NulFree s

/-- The events that the format carries. -/
structure Encodable (e : StatusEvent) : Prop where
  testId : ∀ s ∈ e.testId, NulFree s
  testTags : ∀ tags ∈ e.testTags, ∀ tag ∈ tags, NulFree tag
  mimeType : ∀ s ∈ e.mimeType, NulFree s ∧ s ≠ ""
  fileName : ∀ s ∈ e.fileName, NulFree s
  file : e.fileName.isSome = e.fileBytes.isSome
  routeCode : ∀ s ∈ e.routeCode, NulFree s
  timestamp : ∀ t ∈ e.timestamp, 0 ≤ t.micros ∧ t.micros < 4294967296 * 1000000

theorem Encodable.writable {e : StatusEvent} (h : Encodable e) : Writable e where
  file := by rw [h.file]; exact id
  timestamp := h.timestamp

theorem Encodable.readable {e : StatusEvent} (h : Encodable e) : Readable e where
  testId := h.testId
  testTags := h.testTags
  mimeType s hs := (h.mimeType s hs).1
  fileName := h.fileName
  routeCode := h.routeCode

/-! ## The packet in closed form -/

/-- A length-prefixed string. -/
def textBytes (s : String) : Bytes := numberBytes (utf8Bytes s).length ++ utf8Bytes s

/-- A field that is there when its value is. -/
def optionBytes {α : Type} (enc : α → Bytes) : Option α → Bytes
  | none => []
  | some v => enc v

def timestampBytes (t : DateTime) : Bytes :=
  beBytes 4 (t.micros / 1000000).toNat ++ numberBytes ((t.micros % 1000000).toNat * 1000)

def tagsBytes (tags : List String) : Bytes :=
  if tags.isEmpty then [] else numberBytes tags.length ++ tags.flatMap textBytes

def fileContentBytes (content : Bytes) : Bytes := numberBytes content.length ++ content

/-- A file that has a name, and nothing otherwise. -/
def fileFieldBytes : Option String → Option Bytes → Bytes
  | none, _ => []
  | some fileName, content => textBytes fileName ++ optionBytes fileContentBytes content

/-- Everything between the length and the checksum. -/
def fieldsBytes (call : StatusCall) : Bytes :=
  optionBytes timestampBytes call.event.timestamp
    ++ optionBytes textBytes call.event.testId
    ++ tagsBytes call.tagOrder
    ++ optionBytes textBytes (call.event.mimeType.filter (· ≠ ""))
    ++ fileFieldBytes call.event.fileName call.event.fileBytes
    ++ optionBytes textBytes call.event.routeCode

/-- The length of a packet that counts its own length field. -/
def wholeLength (baseLength : Nat) : Nat :=
  if baseLength + 1 < 64 then baseLength + 1
  else if baseLength + 2 < 16384 then baseLength + 2
  else if baseLength + 3 < 4194304 then baseLength + 3
  else baseLength + 4

/-- The length the packet of a call would have: signature, flags, length,
fields and checksum. -/
def packetLength (call : StatusCall) : Nat := wholeLength (7 + (fieldsBytes call).length)

/-- The packet without its checksum. -/
def packetContent (call : StatusCall) : Bytes :=
  signature :: (beBytes 2 (packetFlags call) ++ numberBytes (packetLength call)
    ++ fieldsBytes call)

/-- The packet of a call. -/
def packetBytes (call : StatusCall) : Bytes :=
  packetContent call ++ beBytes 4 (Crc32.crc32 (packetContent call) 0).toNat

/-- The longest packet the policy admits. -/
def maxPacketLength : Nat := 4194303

/-- The length field takes exactly the octets that the length leaves for it. -/
theorem wholeLength_eq (base : Nat) : wholeLength base = base + numberWidth (wholeLength base) := by
  unfold wholeLength numberWidth
  split
  · rfl
  · split
    · rw [if_neg (by omega)]
    · split
      · rw [if_neg (by omega), if_neg (by omega)]
      · rw [if_neg (by omega), if_neg (by omega), if_neg (by omega)]

theorem length_packetContent (call : StatusCall) :
    (packetContent call).length + 4 = packetLength call := by
  have h := wholeLength_eq (7 + (fieldsBytes call).length)
  simp only [packetContent, List.length_cons, List.length_append, length_beBytes,
    length_numberBytes]
  unfold packetLength
  omega

/-- A packet is as long as its length field says. -/
theorem length_packetBytes (call : StatusCall) :
    (packetBytes call).length = packetLength call := by
  rw [packetBytes, List.length_append, length_beBytes, length_packetContent]

theorem packetLength_ge (call : StatusCall) : 8 ≤ packetLength call := by
  have h := wholeLength_eq (7 + (fieldsBytes call).length)
  have := numberWidth_pos (wholeLength (7 + (fieldsBytes call).length))
  unfold packetLength
  omega

/-! ## Flags -/

theorem hasFlag_or (a b mask : Nat) :
    hasFlag (a ||| b) mask = (hasFlag a mask || hasFlag b mask) := by
  unfold hasFlag
  rw [Nat.and_or_distrib_right]
  cases ha : (a &&& mask != 0) <;> cases hb : (b &&& mask != 0) <;>
    simp_all [Nat.or_eq_zero_iff]

theorem hasFlag_setFlag (present : Bool) (flag mask : Nat) :
    hasFlag (setFlag present flag) mask = (present && hasFlag flag mask) := by
  cases present with
  | true => rfl
  | false => simp [setFlag, hasFlag]

/-- The status bits set none of the flags above them. -/
theorem hasFlag_statusMask (s : Option TestStatus) {mask : Nat} (h : mask &&& 7 = 0) :
    hasFlag (statusMask s) mask = false := by
  have hlow : statusMask s &&& 7 = statusMask s := by
    cases s with
    | none => rfl
    | some s => cases s <;> rfl
  have : statusMask s &&& mask = 0 := by
    rw [← hlow, Nat.and_assoc, Nat.and_comm 7, h, Nat.and_zero]
  simp [hasFlag, this]

/-- Each flag says whether its field was written. -/
theorem hasFlag_packetFlags (call : StatusCall) :
    hasFlag (packetFlags call) flagTimestamp = call.event.timestamp.isSome
    ∧ hasFlag (packetFlags call) flagTestId = call.event.testId.isSome
    ∧ hasFlag (packetFlags call) flagTags = (!call.tagOrder.isEmpty)
    ∧ hasFlag (packetFlags call) flagRunnable = call.event.runnable
    ∧ hasFlag (packetFlags call) flagMimeType = (call.event.mimeType.filter (· ≠ "")).isSome
    ∧ hasFlag (packetFlags call) flagFileContent = call.event.fileName.isSome
    ∧ hasFlag (packetFlags call) flagEof = call.event.eof
    ∧ hasFlag (packetFlags call) flagRouteCode = call.event.routeCode.isSome := by
  have hs := fun mask (h : mask &&& 7 = 0) => hasFlag_statusMask call.event.testStatus h
  simp only [packetFlags, hasFlag_or, hasFlag_setFlag]
  rw [hs _ (by decide), hs _ (by decide), hs _ (by decide), hs _ (by decide), hs _ (by decide),
    hs _ (by decide), hs _ (by decide), hs _ (by decide)]
  simp [hasFlag, flagTimestamp, flagTestId, flagTags, flagRunnable, flagMimeType,
    flagFileContent, flagEof, flagRouteCode]

/-- The low bits are the status. -/
theorem packetFlags_status (call : StatusCall) :
    packetFlags call &&& 0x0007 = statusMask call.event.testStatus := by
  have hset : ∀ (present : Bool) (flag : Nat), flag &&& 7 = 0 → setFlag present flag &&& 7 = 0 := by
    intro present flag h
    cases present with
    | true => exact h
    | false => exact Nat.zero_and 7
  have hlow : statusMask call.event.testStatus &&& 7 = statusMask call.event.testStatus := by
    cases call.event.testStatus with
    | none => rfl
    | some s => cases s <;> rfl
  simp only [packetFlags, Nat.and_or_distrib_right]
  rw [hset _ flagTimestamp rfl, hset _ flagTestId rfl, hset _ flagTags rfl,
    hset _ flagRunnable rfl, hset _ flagMimeType rfl, hset _ flagFileContent rfl,
    hset _ flagEof rfl, hset _ flagRouteCode rfl, hlow]
  simp

theorem packetFlags_lt (call : StatusCall) : packetFlags call < 2 ^ 16 := by
  have hset : ∀ (present : Bool) (flag : Nat), flag < 2 ^ 16 → setFlag present flag < 2 ^ 16 := by
    intro present flag h
    cases present with
    | true => exact h
    | false => exact Nat.two_pow_pos 16
  have hs : statusMask call.event.testStatus < 2 ^ 16 := by
    cases call.event.testStatus with
    | none => decide
    | some s => cases s <;> decide
  unfold packetFlags
  repeat' apply Nat.or_lt_two_pow
  · decide
  · exact hset _ _ (by decide)
  · exact hset _ _ (by decide)
  · exact hset _ _ (by decide)
  · exact hset _ _ (by decide)
  · exact hset _ _ (by decide)
  · exact hset _ _ (by decide)
  · exact hset _ _ (by decide)
  · exact hset _ _ (by decide)
  · exact hs

/-! ## What the fields append -/

/-- A field appends `b`, or is refused for a number that does not fit, and
then `b` is itself too long for any packet. -/
def Appends (r : Except Error (List Bytes)) (b : Bytes) : Prop :=
  (∃ pieces, r = .ok pieces ∧ pieces.flatten = b)
    ∨ ((∃ m, r = .error (.valueError m)) ∧ 1073741824 ≤ b.length)

theorem Appends.ok (pieces : List Bytes) : Appends (.ok pieces) pieces.flatten :=
  .inl ⟨pieces, rfl, rfl⟩

/-- One field before others. -/
theorem Appends.bind {r : Except Error (List Bytes)} {f : List Bytes → Except Error (List Bytes)}
    {a b : Bytes} (hr : Appends r a) (hle : a.length ≤ b.length)
    (hf : ∀ pieces, pieces.flatten = a → Appends (f pieces) b) : Appends (r >>= f) b := by
  rcases hr with ⟨pieces, rfl, hp⟩ | ⟨⟨m, rfl⟩, hlen⟩
  · exact hf pieces hp
  · exact .inr ⟨⟨m, rfl⟩, Nat.le_trans hlen hle⟩

/-- The length of some bytes that follow it, and those bytes. -/
theorem appends_number {n : Nat} (b : Bytes) (hb : n ≤ b.length) {pieces : List Bytes}
    (hpieces : pieces.flatten = b) :
    Appends (do return (← encodeNumber (n : Int)) ++ pieces) (numberBytes n ++ b) := by
  rcases Nat.lt_or_ge n 1073741824 with h | h
  · obtain ⟨number, hok, hflat⟩ := encodeNumber_ok h
    rw [hok]
    refine .inl ⟨number ++ pieces, rfl, ?_⟩
    rw [List.flatten_append, hflat, hpieces]
  · obtain ⟨m, he⟩ := encodeNumber_error h
    rw [he]
    refine .inr ⟨⟨m, rfl⟩, ?_⟩
    rw [List.length_append]
    omega

theorem appends_writeUtf8 (s : String) : Appends (writeUtf8 s) (textBytes s) :=
  appends_number (utf8Bytes s) (Nat.le_refl _) (by simp)

theorem appends_utf8Field (s : Option String) :
    Appends (utf8Field s) (optionBytes textBytes s) := by
  cases s with
  | none => exact .ok []
  | some s => exact appends_writeUtf8 s

/-- The seconds are those of the epoch, whatever days they fall on. -/
theorem sinceEpoch_seconds (t : DateTime) :
    t.sinceEpoch.seconds + t.sinceEpoch.days * 24 * 3600 = t.micros / 1000000 := by
  simp only [DateTime.sinceEpoch]
  omega

theorem appends_timestampField {t : Option DateTime}
    (h : ∀ t' ∈ t, 0 ≤ t'.micros ∧ t'.micros < 4294967296 * 1000000) :
    Appends (timestampField t) (optionBytes timestampBytes t) := by
  cases t with
  | none => exact .ok []
  | some t =>
    obtain ⟨h0, h1⟩ := h t rfl
    obtain ⟨secs, hsecs⟩ : ∃ secs : Nat, t.micros / 1000000 = secs :=
      ⟨(t.micros / 1000000).toNat, by omega⟩
    obtain ⟨micros, hmicros⟩ : ∃ micros : Nat, t.micros % 1000000 = micros :=
      ⟨(t.micros % 1000000).toNat, by omega⟩
    have hns : t.sinceEpoch.microseconds * 1000 = ((micros * 1000 : Nat) : Int) := by
      simp only [DateTime.sinceEpoch]
      omega
    obtain ⟨number, hok, hflat⟩ := encodeNumber_ok (show micros * 1000 < 1073741824 by omega)
    refine .inl ⟨[beBytes 4 secs] ++ number, ?_, ?_⟩
    · simp only [timestampField]
      rw [sinceEpoch_seconds, hsecs, hns, structPack_ofNat (by omega), hok]
      rfl
    · simp [optionBytes, timestampBytes, hsecs, hmicros, hflat]

theorem appends_writeTags (tags : List String) :
    Appends (writeTags tags) (tags.flatMap textBytes) := by
  induction tags with
  | nil => exact .ok []
  | cons tag tags ih =>
    rw [List.flatMap_cons]
    refine Appends.bind (appends_writeUtf8 tag) (by simp) fun first hfirst => ?_
    refine Appends.bind ih (by simp) fun rest hrest => ?_
    rw [← hfirst, ← hrest, ← List.flatten_append]
    exact .ok _

theorem length_le_flatMap_textBytes (tags : List String) :
    tags.length ≤ (tags.flatMap textBytes).length := by
  induction tags with
  | nil => simp
  | cons tag tags ih =>
    have := numberWidth_pos (utf8Bytes tag).length
    simp only [List.flatMap_cons, List.length_append, List.length_cons, textBytes,
      length_numberBytes]
    omega

theorem appends_tagsField (tags : List String) : Appends (tagsField tags) (tagsBytes tags) := by
  unfold tagsField tagsBytes
  split
  · exact .ok []
  · rcases appends_writeTags tags with ⟨pieces, hok, hflat⟩ | ⟨⟨m, he⟩, hlen⟩
    · rw [hok]
      exact appends_number _ (length_le_flatMap_textBytes tags) hflat
    · rw [he]
      refine .inr ⟨?_, by rw [List.length_append]; omega⟩
      rcases Nat.lt_or_ge tags.length 1073741824 with h | h
      · obtain ⟨number, hn, -⟩ := encodeNumber_ok h
        rw [hn]
        exact ⟨m, rfl⟩
      · obtain ⟨m', hn⟩ := encodeNumber_error h
        rw [hn]
        exact ⟨m', rfl⟩

theorem appends_fileField {fileName : Option String} {content : Option Bytes}
    (h : fileName.isSome → content.isSome) :
    Appends (fileField fileName content) (fileFieldBytes fileName content) := by
  cases fileName with
  | none => exact .ok []
  | some fileName =>
    obtain ⟨content, rfl⟩ := Option.isSome_iff_exists.mp (h rfl)
    refine Appends.bind (appends_writeUtf8 fileName) (by simp [fileFieldBytes])
      fun name hname => ?_
    rcases Nat.lt_or_ge content.length 1073741824 with hlt | hge
    · obtain ⟨number, hok, hflat⟩ := encodeNumber_ok hlt
      refine .inl ⟨name ++ number ++ [content], ?_, ?_⟩
      · simp only []
        rw [hok]
        rfl
      · simp [fileFieldBytes, optionBytes, fileContentBytes, hname, hflat]
    · obtain ⟨m, he⟩ := encodeNumber_error hge
      refine .inr ⟨⟨m, ?_⟩, ?_⟩
      · simp only []
        rw [he]
        rfl
      · simp only [fileFieldBytes, optionBytes, fileContentBytes, List.length_append]
        omega

theorem appends_packetFields {call : StatusCall} (h : Writable call.event) :
    Appends (packetFields call) (fieldsBytes call) := by
  unfold packetFields fieldsBytes
  refine Appends.bind (appends_timestampField h.timestamp)
    (by simp only [List.length_append]; omega) fun p1 h1 => ?_
  refine Appends.bind (appends_utf8Field _)
    (by simp only [List.length_append]; omega) fun p2 h2 => ?_
  refine Appends.bind (appends_tagsField _)
    (by simp only [List.length_append]; omega) fun p3 h3 => ?_
  refine Appends.bind (appends_utf8Field _)
    (by simp only [List.length_append]; omega) fun p4 h4 => ?_
  refine Appends.bind (appends_fileField h.file)
    (by simp only [List.length_append]; omega) fun p5 h5 => ?_
  refine Appends.bind (appends_utf8Field _)
    (by simp only [List.length_append]; omega) fun p6 h6 => ?_
  refine .inl ⟨_, rfl, ?_⟩
  simp only [List.flatten_append, h1, h2, h3, h4, h5, h6]

/-! ## The whole packet -/

theorem lengthLength_ok {base : Nat} (h : wholeLength base ≤ maxPacketLength) :
    lengthLength base = .ok (numberWidth (wholeLength base)) := by
  unfold wholeLength maxPacketLength at h
  unfold lengthLength
  split at h
  · rename_i h1
    rw [if_pos (by omega), wholeLength, if_pos h1, numberWidth, if_pos h1]
  · rename_i h1
    split at h
    · rename_i h2
      rw [if_neg (by omega), if_pos (by omega), wholeLength, if_neg h1, if_pos h2, numberWidth,
        if_neg (by omega), if_pos h2]
    · rename_i h2
      split at h
      · rename_i h3
        rw [if_neg (by omega), if_neg (by omega), if_pos (by omega), wholeLength, if_neg h1,
          if_neg h2, if_pos h3, numberWidth, if_neg (by omega), if_neg (by omega), if_pos h3]
      · omega

theorem lengthLength_error {base : Nat} (h : maxPacketLength < wholeLength base) :
    ∃ m, lengthLength base = .error (.valueError m) := by
  unfold wholeLength maxPacketLength at h
  unfold lengthLength
  split at h
  · omega
  · split at h
    · omega
    · split at h
      · omega
      · rw [if_neg (by omega), if_neg (by omega), if_neg (by omega)]
        exact ⟨_, rfl⟩

theorem le_wholeLength (base : Nat) : base ≤ wholeLength base := by
  rw [wholeLength_eq]
  omega

theorem structPack_packetFlags (call : StatusCall) :
    structPack 2 (packetFlags call : Int) = .ok (beBytes 2 (packetFlags call)) :=
  structPack_ofNat (Nat.lt_of_lt_of_eq (packetFlags_lt call) (by decide))

theorem structPack_crc32 (crc : BitVec 32) :
    structPack 4 (crc.toNat : Int) = .ok (beBytes 4 crc.toNat) :=
  structPack_ofNat (Nat.lt_of_lt_of_eq crc.isLt (by decide))

/-- The length before the length field is known. -/
theorem length_join_fields (call : StatusCall) {fields : List Bytes}
    (hflat : fields.flatten = fieldsBytes call) :
    (join ([signature] :: beBytes 2 (packetFlags call) :: [] :: fields)).length + 4
      = 7 + (fieldsBytes call).length := by
  simp only [join, List.flatten_cons, List.length_append, hflat, length_beBytes,
    List.length_singleton, List.length_nil]
  omega

/-- The packet is refused when its length would not fit. -/
theorem writePacket_too_long {call : StatusCall} {fields : List Bytes}
    (hok : packetFields call = .ok fields) (hflat : fields.flatten = fieldsBytes call)
    (hlong : maxPacketLength < packetLength call) :
    ∃ m, writePacket call = .error (.valueError m) := by
  obtain ⟨m, hm⟩ := lengthLength_error hlong
  refine ⟨m, ?_⟩
  unfold writePacket
  rw [hok]
  simp only [ok_bind, error_bind, structPack_packetFlags, length_join_fields call hflat, hm]

/-- The packet is written when its length fits. -/
theorem writePacket_fits {call : StatusCall} {fields : List Bytes}
    (hok : packetFields call = .ok fields) (hflat : fields.flatten = fieldsBytes call)
    (hshort : packetLength call ≤ maxPacketLength) :
    writePacket call = .ok (packetBytes call) := by
  obtain ⟨number, hn, hnflat⟩ := encodeNumber_ok (n := packetLength call)
    (by unfold maxPacketLength at hshort; omega)
  have hwhole : 7 + (fieldsBytes call).length
      + numberWidth (wholeLength (7 + (fieldsBytes call).length)) = packetLength call := by
    rw [packetLength, ← wholeLength_eq]
  have hcontent : join ([signature] :: beBytes 2 (packetFlags call) :: number ++ fields)
      = packetContent call := by
    simp [join, packetContent, hnflat, hflat]
  unfold writePacket
  rw [hok]
  simp only [ok_bind, structPack_packetFlags, length_join_fields call hflat,
    lengthLength_ok hshort, hwhole, hn, hcontent, structPack_crc32]
  rfl

/-- **What a call writes**: the packet, when the policy admits its length,
and a `ValueError` otherwise. -/
theorem writePacket_spec {call : StatusCall} (h : Writable call.event) :
    (packetLength call ≤ maxPacketLength ∧ writePacket call = .ok (packetBytes call))
    ∨ (maxPacketLength < packetLength call
        ∧ ∃ m, writePacket call = .error (.valueError m)) := by
  rcases appends_packetFields h with ⟨fields, hok, hflat⟩ | ⟨⟨m, he⟩, hlen⟩
  · rcases Nat.lt_or_ge maxPacketLength (packetLength call) with hlong | hshort
    · exact .inr ⟨hlong, writePacket_too_long hok hflat hlong⟩
    · exact .inl ⟨hshort, writePacket_fits hok hflat hshort⟩
  · refine .inr ⟨?_, m, ?_⟩
    · have := le_wholeLength (7 + (fieldsBytes call).length)
      unfold packetLength maxPacketLength
      omega
    · unfold writePacket
      rw [he]
      rfl

theorem sinceEpoch_of_timestampField {t : DateTime} {fields : List Bytes}
    (h : timestampField (some t) = .ok fields) :
    0 ≤ t.micros ∧ t.micros < 4294967296 * 1000000 := by
  unfold timestampField at h
  obtain ⟨word, hword, -⟩ := ok_of_bind h
  have hrange := structPack_range hword
  rw [sinceEpoch_seconds] at hrange
  omega

theorem isSome_of_fileField {fileName : Option String} {content : Option Bytes}
    {fields : List Bytes} (h : fileField fileName content = .ok fields)
    (hname : fileName.isSome) : content.isSome := by
  obtain ⟨name, rfl⟩ := Option.isSome_iff_exists.mp hname
  cases content with
  | some content => rfl
  | none =>
    obtain ⟨pieces, -, h⟩ := ok_of_bind h
    cases h

/-- A call that writes a packet has fields to write. -/
theorem writable_of_writePacket {call : StatusCall} {data : Bytes}
    (h : writePacket call = .ok data) : Writable call.event := by
  obtain ⟨fields, hfields, -⟩ := ok_of_bind h
  obtain ⟨timestamp, htimestamp, h⟩ := ok_of_bind hfields
  obtain ⟨testId, -, h⟩ := ok_of_bind h
  obtain ⟨tags, -, h⟩ := ok_of_bind h
  obtain ⟨mime, -, h⟩ := ok_of_bind h
  obtain ⟨file, hfile, -⟩ := ok_of_bind h
  refine ⟨isSome_of_fileField hfile, fun t ht => ?_⟩
  rw [ht] at htimestamp
  exact sinceEpoch_of_timestampField htimestamp

/-- A call whose packet is written. -/
def Written (call : StatusCall) : Prop := writePacket call = .ok (packetBytes call)

/-- Whatever is written is the packet. -/
theorem written_iff {call : StatusCall} :
    Written call ↔ Writable call.event ∧ packetLength call ≤ maxPacketLength := by
  constructor
  · intro h
    have hw := writable_of_writePacket h
    rcases writePacket_spec hw with ⟨hlen, -⟩ | ⟨-, m, he⟩
    · exact ⟨hw, hlen⟩
    · rw [Written, he] at h
      cases h
  · rintro ⟨hw, hlen⟩
    rcases writePacket_spec hw with ⟨-, hok⟩ | ⟨hlt, -⟩
    · exact hok
    · omega

theorem written_of_ok {call : StatusCall} {data : Bytes} (h : writePacket call = .ok data) :
    Written call := by
  have hw := writable_of_writePacket h
  rcases writePacket_spec hw with ⟨-, hok⟩ | ⟨-, m, he⟩
  · exact hok
  · rw [he] at h
    cases h

/-! ## The write loop -/

/-- However much each write accepts, all of the data arrives. -/
theorem writeLoop_written (w : PartialWrites) (data : Bytes) (out : OutputStream) (offset : Nat) :
    (writeLoop w data out offset).written = out.written ++ data.drop offset := by
  induction hn : data.length - offset using Nat.strongRecOn generalizing out offset with
  | ind n ih =>
    rw [writeLoop]
    split
    · rename_i h
      have hone := w.accepts_one out.calls (data.drop offset).length
        (by rw [List.length_drop]; omega)
      rw [ih _ ?_ _ _ rfl]
      · simp only [OutputStream.write, List.append_assoc, ← List.drop_drop]
        rw [List.take_append_drop]
      · simp only [OutputStream.write]
        omega
    · rw [List.drop_eq_nil_of_le (by omega), List.append_nil]

/-- A call appends its packet, or raises and leaves the stream as it was. -/
theorem status_written (w : PartialWrites) (out : OutputStream) {call : StatusCall}
    (h : Writable call.event) :
    (packetLength call ≤ maxPacketLength ∧ (status w out call).1 = .ok ()
        ∧ (status w out call).2.written = out.written ++ packetBytes call)
    ∨ (maxPacketLength < packetLength call
        ∧ (∃ m, (status w out call).1 = .error (.valueError m))
        ∧ (status w out call).2 = out) := by
  unfold status
  rcases writePacket_spec h with ⟨hlen, hok⟩ | ⟨hlen, m, he⟩
  · rw [hok]
    exact .inl ⟨hlen, rfl, writeLoop_written w _ out 0⟩
  · rw [he]
    exact .inr ⟨hlen, ⟨m, rfl⟩, rfl⟩

/-- The calls of a sequence that the policy admits. -/
def admitted (calls : List StatusCall) : List StatusCall :=
  calls.filter fun call => packetLength call ≤ maxPacketLength

/-- A sequence of calls writes the packets of those admitted, in order. -/
theorem statusAll_written (w : PartialWrites) (out : OutputStream) (calls : List StatusCall)
    (h : ∀ call ∈ calls, Writable call.event) :
    (statusAll w out calls).written = out.written ++ (admitted calls).flatMap packetBytes := by
  induction calls generalizing out with
  | nil => simp [statusAll, admitted]
  | cons call calls ih =>
    have ih' := ih (status w out call).2 fun c hc => h c (by simp [hc])
    rw [statusAll, ih']
    rcases status_written w out (h call (by simp)) with ⟨hlen, -, hw⟩ | ⟨hlen, -, hw⟩
    · have hcons : admitted (call :: calls) = call :: admitted calls :=
        List.filter_cons_of_pos (by simpa using hlen)
      rw [hw, hcons, List.flatMap_cons, List.append_assoc]
    · have hcons : admitted (call :: calls) = admitted calls :=
        List.filter_cons_of_neg (by simpa using hlen)
      rw [hw, hcons]

end Pysubunit.V2
