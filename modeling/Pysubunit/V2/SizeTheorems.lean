/-
Pysubunit.V2.SizeTheorems — how much room events and messages take.

`fieldsSize` is how many bytes the fields of an event take when they are
written; the order of the tags does not matter. `covers_fields` compares it with
the bytes that the event was read from: written again, a field takes no more
than it took before. `parse_message_size` does the same for the messages of the
parser, which hold a few numbers each.
-/
import Mathlib.Algebra.BigOperators.Group.Multiset.Basic
import Mathlib.Data.Finset.Card
import Mathlib.Tactic.SplitIfs
import Pysubunit.V2.GrammarTheorems
import Pysubunit.V2.RunTheorems

namespace Pysubunit.V2

open ByteLib

/-! ## Sizes -/

def textSize (s : String) : Nat := numberWidth (utf8Bytes s).length + (utf8Bytes s).length

def timestampSize (t : DateTime) : Nat := 4 + numberWidth ((t.micros % 1000000).toNat * 1000)

def tagsSize (tags : Finset String) : Nat :=
  if tags = ∅ then 0 else numberWidth tags.card + (tags.val.map textSize).sum

def contentSize (content : Bytes) : Nat := numberWidth content.length + content.length

/-- A file that has a name, and nothing otherwise. -/
def fileSize : Option String → Option Bytes → Nat
  | none, _ => 0
  | some fileName, content => textSize fileName + content.elim 0 contentSize

/-- The size of the fields of an event. -/
def fieldsSize (e : StatusEvent) : Nat :=
  e.timestamp.elim 0 timestampSize + e.testId.elim 0 textSize + tagsSize (e.testTags.getD ∅)
    + (e.mimeType.filter (· ≠ "")).elim 0 textSize + fileSize e.fileName e.fileBytes
    + e.routeCode.elim 0 textSize

theorem length_textBytes (s : String) : (textBytes s).length = textSize s := by
  rw [textBytes, List.length_append, length_numberBytes, textSize]

theorem length_optionBytes {α : Type} {enc : α → Bytes} {size : α → Nat}
    (h : ∀ v, (enc v).length = size v) (o : Option α) :
    (optionBytes enc o).length = o.elim 0 size := by
  cases o with
  | none => rfl
  | some v => exact h v

theorem length_timestampBytes (t : DateTime) : (timestampBytes t).length = timestampSize t := by
  rw [timestampBytes, List.length_append, length_beBytes, length_numberBytes, timestampSize]

theorem length_tagsBytes (call : StatusCall) :
    (tagsBytes call.tagOrder).length = tagsSize (call.event.testTags.getD ∅) := by
  have hcard := congrArg Multiset.card call.tagOrder_enumerates
  have hsum := congrArg (fun tags => (tags.map textSize).sum) call.tagOrder_enumerates
  simp only [Multiset.coe_card, Finset.card_val, Multiset.map_coe, Multiset.sum_coe] at hcard hsum
  unfold tagsBytes tagsSize
  by_cases hempty : call.event.testTags.getD ∅ = ∅
  · rw [hempty, Finset.card_empty, List.length_eq_zero_iff] at hcard
    rw [if_pos hempty, hcard]
    rfl
  · have hne : call.tagOrder ≠ [] := by
      intro hnil
      rw [hnil, List.length_nil] at hcard
      exact hempty (Finset.card_eq_zero.mp hcard.symm)
    rw [if_neg hempty, if_neg (by simpa using hne), List.length_append, length_numberBytes, hcard,
      ← hsum, List.length_flatMap]
    congr 2
    exact List.map_congr_left fun tag _ => length_textBytes tag

theorem length_fileFieldBytes (fileName : Option String) (content : Option Bytes) :
    (fileFieldBytes fileName content).length = fileSize fileName content := by
  have hcontent : ∀ content : Bytes, (fileContentBytes content).length = contentSize content := by
    intro content
    rw [fileContentBytes, List.length_append, length_numberBytes, contentSize]
  cases fileName with
  | none => rfl
  | some fileName =>
    rw [fileFieldBytes, List.length_append, length_textBytes, length_optionBytes hcontent, fileSize]

/-- The size of what is written. -/
theorem length_fieldsBytes (call : StatusCall) :
    (fieldsBytes call).length = fieldsSize call.event := by
  unfold fieldsBytes fieldsSize
  simp only [List.length_append, length_tagsBytes, length_fileFieldBytes,
    length_optionBytes length_textBytes, length_optionBytes length_timestampBytes]

/-- The length of a packet does not depend on the order of its tags. -/
theorem packetLength_eq (call : StatusCall) :
    packetLength call = wholeLength (7 + fieldsSize call.event) := by
  rw [packetLength, length_fieldsBytes]

/-! ## Decoded fields -/

theorem numberWidth_mono {m n : Nat} (h : m ≤ n) : numberWidth m ≤ numberWidth n := by
  unfold numberWidth
  split_ifs <;> omega

/-- A number fits the octets that it was read from. -/
theorem covers_number :
    Covers PacketFormat.number numberWidth (fun n => n < 1073741824) := by
  rintro n b ⟨b0, more, rfl, hmore, rfl⟩
  have hb0 := b0.toNat_lt
  have hlow := beNat_lt more
  have hcases : more.length = 0 ∨ more.length = 1 ∨ more.length = 2 ∨ more.length = 3 := by omega
  rw [List.length_cons]
  unfold numberWidth
  rcases hcases with h | h | h | h <;> rw [h] at hlow ⊢ <;>
    simp only [Nat.reducePow] at hlow ⊢ <;> refine ⟨by omega, ?_⟩ <;> split_ifs <;> omega

theorem covers_text : Covers PacketFormat.text textSize NulFree := by
  refine Covers.bind covers_number fun length _ => ?_
  rintro s b ⟨rfl, hs, rfl⟩
  refine ⟨hs, ?_⟩
  dsimp only [textSize]
  omega

theorem roundedThousandth_le (n : Nat) : roundedThousandth n * 1000 ≤ n + 500 := by
  unfold roundedThousandth
  split <;> omega

/-- Rounded to microseconds, nanoseconds need no more octets. -/
theorem numberWidth_rounded {n : Nat} (hn : n < 1073741824) (seconds : Nat) :
    numberWidth ((((seconds : Int) * 1000000 + roundedThousandth n) % 1000000).toNat * 1000)
      ≤ numberWidth n := by
  have hround := roundedThousandth_le n
  generalize roundedThousandth n = r at hround
  have hmicros : (((seconds : Int) * 1000000 + r) % 1000000).toNat = r % 1000000 := by omega
  rw [hmicros]
  unfold numberWidth
  split_ifs <;> omega

theorem covers_timestamp :
    Covers PacketFormat.timestamp timestampSize (fun t => 0 ≤ t.micros) := by
  have hword : Covers PacketFormat.word (fun _ => 4) (fun _ => True) := by
    rintro n b ⟨-, hlen⟩
    exact ⟨trivial, Nat.le_of_eq hlen.symm⟩
  refine Covers.bind hword fun seconds _ => Covers.bind covers_number fun nanoseconds hn => ?_
  refine Covers.pure ?_ ?_
  · dsimp only
    omega
  · have := numberWidth_rounded hn seconds
    dsimp only [timestampSize]
    omega

/-- As a set, strings take no more room than one by one. -/
theorem tagsSize_toFinset (tags : List String) :
    tagsSize tags.toFinset ≤ numberWidth tags.length + (tags.map textSize).sum := by
  have hwidth := numberWidth_mono (List.toFinset_card_le tags)
  have hsum : (tags.toFinset.val.map textSize).sum ≤ (tags.map textSize).sum := by
    obtain ⟨more, hmore⟩ := Multiset.le_iff_exists_add.mp (Multiset.dedup_le (tags : Multiset String))
    have := congrArg (fun tags => (tags.map textSize).sum) hmore
    simp only [Multiset.map_coe, Multiset.sum_coe, Multiset.map_add, Multiset.sum_add] at this
    rw [this]
    exact Nat.le_add_right _ _
  unfold tagsSize
  split_ifs <;> omega

theorem covers_tags : Covers PacketFormat.tags tagsSize (fun tags => ∀ tag ∈ tags, NulFree tag) := by
  refine Covers.bind covers_number fun tagCount _ =>
    Covers.bind (covers_text.replicate tagCount) fun tags htags => ?_
  refine Covers.pure ?_ ?_
  · intro tag htag
    exact htags.2 tag (List.mem_toFinset.mp htag)
  · have := tagsSize_toFinset tags
    rw [htags.1] at this
    omega

theorem covers_file :
    Covers PacketFormat.file (fun file => textSize file.1 + contentSize file.2)
      (fun file => NulFree file.1) := by
  refine Covers.bind covers_text fun fileName hname =>
    Covers.bind covers_number fun contentLength _ =>
      Covers.bind (Covers.take contentLength) fun fileBytes hlen => ?_
  refine Covers.pure hname ?_
  subst hlen
  dsimp only [contentSize]
  omega

/-- What can be said of every event that was decoded. -/
structure Decoded (e : StatusEvent) : Prop where
  readable : Readable e
  file : e.fileName.isSome ↔ e.fileBytes.isSome
  timestamp : ∀ t ∈ e.timestamp, 0 ≤ t.micros

/-- An event takes no more room than the fields it was read from. -/
theorem covers_fields (flags : Nat) : Covers (PacketFormat.fields flags) fieldsSize Decoded := by
  refine Covers.bind (covers_timestamp.optionally _) fun timestamp htimestamp =>
    Covers.bind (covers_text.optionally _) fun testId htestId =>
    Covers.bind (covers_tags.optionally _) fun testTags htestTags =>
    Covers.bind (covers_text.optionally _) fun mimeType hmimeType =>
    Covers.bind (covers_file.optionally _) fun file hfile =>
    Covers.bind (covers_text.optionally _) fun routeCode hrouteCode => Covers.pure ?_ ?_
  · refine ⟨⟨htestId, htestTags, hmimeType, ?_, hrouteCode⟩, ?_, htimestamp⟩
    · intro s hs
      obtain ⟨p, hp, rfl⟩ := Option.mem_map.mp hs
      exact hfile p hp
    · cases file <;> simp
  · have htags : tagsSize (testTags.getD ∅) ≤ testTags.elim 0 tagsSize := by
      cases testTags with
      | none => simp [tagsSize]
      | some tags => exact Nat.le_refl _
    have hmime : (mimeType.filter (· ≠ "")).elim 0 textSize ≤ mimeType.elim 0 textSize := by
      cases mimeType with
      | none => exact Nat.le_refl _
      | some s =>
        rw [Option.filter_some]
        split
        · exact Nat.le_refl _
        · exact Nat.zero_le _
    have hfileSize : fileSize (file.map (·.1)) (file.map (·.2))
        = file.elim 0 fun file => textSize file.1 + contentSize file.2 := by
      cases file <;> rfl
    simp only [fieldsSize, hfileSize]
    omega

/-! ## Messages -/

/-- How many bytes a message takes. -/
def messageSize (message : String) : Nat := (utf8Bytes message).length

theorem messageSize_append (s t : String) :
    messageSize (s ++ t) = messageSize s + messageSize t := by
  unfold messageSize utf8Bytes
  rw [String.toList_append, Utf8.encode_append, List.length_append]

theorem messageSize_le (s : String) : messageSize s ≤ 4 * s.toList.length := by
  unfold messageSize utf8Bytes Utf8.encode
  rw [List.length_flatMap]
  generalize s.toList = cs
  induction cs with
  | nil => exact Nat.le_refl _
  | cons c cs ih =>
    have hc : (String.utf8EncodeChar c).length ≤ 4 := by
      rw [String.length_utf8EncodeChar]
      exact Char.utf8Size_le_four c
    rw [List.map_cons, List.sum_cons, List.length_cons]
    omega

/-- A numeral is made of ASCII digits. -/
theorem messageSize_nat (n : Nat) : messageSize (toString n) = (Nat.toDigits 10 n).length := by
  have hdigits : (toString n).toList = Nat.toDigits 10 n := by
    rw [Nat.toString_eq_ofList_toDigits, String.toList_ofList]
  unfold messageSize utf8Bytes
  rw [Utf8.encode_ascii, ascii, List.length_map, hdigits]
  rw [hdigits]
  intro c hc
  have hdigit := Nat.isDigit_of_mem_toDigits (by omega) (by omega) hc
  simp only [Char.isDigit, Bool.and_eq_true, decide_eq_true_eq] at hdigit
  have h57 : c.val.toNat ≤ 57 := UInt32.le_iff_toNat_le.mp hdigit.2
  exact Nat.lt_of_le_of_lt h57 (by omega)

/-- The numbers in messages have at most ten digits. -/
theorem messageSize_nat_le {n : Nat} (h : n < 10000000000) : messageSize (toString n) ≤ 10 := by
  rw [messageSize_nat]
  exact (Nat.length_toDigits_le_iff (by omega) (by omega)).mpr (by omega)

theorem messageSize_int_le {z : Int} (h : z.natAbs < 10000000000) :
    messageSize (toString z) ≤ 11 := by
  cases z with
  | ofNat n => exact Nat.le_succ_of_le (messageSize_nat_le h)
  | negSucc n =>
    have hneg : toString (Int.negSucc n) = "-" ++ toString (n + 1) := rfl
    have hsign : messageSize "-" = 1 := by decide
    have := messageSize_nat_le (n := n + 1) (by omega)
    rw [hneg, messageSize_append]
    omega

theorem messageSize_hex_le {n : Nat} (h : n < 4294967296) : messageSize (hex n) ≤ 32 := by
  have hdigits : (Nat.toDigits 16 n).length ≤ 8 :=
    (Nat.length_toDigits_le_iff (by omega) (by omega)).mpr (by omega)
  have := messageSize_le (hex n)
  rw [hex, String.toList_ofList] at this
  rw [hex]
  omega

/-- An error without a long message. -/
def Short (e : Error) : Prop := ∀ message, e = .parseError message → messageSize message ≤ 200

theorem short_structError : Short .structError := by
  intro message h
  cases h

theorem short_parseError {message : String} (h : messageSize message ≤ 200) :
    Short (.parseError message) := by
  intro message' he
  cases he
  exact h

/-- A word that is read lies in the data. -/
theorem slice_of_structUnpack {data : Bytes} {pos width n : Nat} (hwidth : 0 < width)
    (h : structUnpack width (slice data pos width) = .ok n) : pos + width ≤ data.length := by
  unfold structUnpack at h
  split at h
  · rename_i hlen
    rw [slice, List.length_take, List.length_drop] at hlen
    omega
  · cases h

/-- A number that is read lies in the data. -/
theorem parseVarint_stays {data : Bytes} {pos value consumed : Nat}
    (h : parseVarint data pos false = .ok (value, consumed)) : pos + consumed ≤ data.length := by
  unfold parseVarint at h
  obtain ⟨data0, h0, h⟩ := ok_of_bind h
  have := slice_of_structUnpack (by omega) h0
  dsimp only at h
  split at h
  · cases h
    omega
  · split at h
    · obtain ⟨data1, h1, h⟩ := ok_of_bind h
      have := slice_of_structUnpack (by omega) h1
      cases h
      omega
    · split at h
      · obtain ⟨data1, h1, h⟩ := ok_of_bind h
        have := slice_of_structUnpack (by omega) h1
        cases h
        omega
      · obtain ⟨⟨data1, data2⟩, h1, h⟩ := ok_of_bind h
        unfold structUnpackHB at h1
        split at h1
        · rename_i hlen
          rw [slice, List.length_take, List.length_drop] at hlen
          cases h
          omega
        · cases h1

theorem stays_number :
    Stays 4294967296 Short readNumber (fun n => n < 1073741824) := by
  intro body pos hbody hpos
  have hnumber := parseVarint_number body pos
  cases hn : Grammar.number (body.drop pos) with
  | error x =>
    rw [hn] at hnumber
    unfold readNumber
    rw [hnumber.2]
    exact short_structError
  | ok p =>
    obtain ⟨n, rem⟩ := p
    obtain ⟨b, hb, -⟩ := (scans_number _ _ _).mp hn
    rw [hn] at hnumber
    obtain ⟨consumed, hp, -⟩ := hnumber
    unfold readNumber
    rw [hp]
    exact ⟨(covers_number n b hb).1, Nat.le_trans (parseVarint_stays hp) hbody⟩

theorem stays_utf8 {length : Nat} (hlength : length < 1073741824) :
    Stays 4294967296 Short (readUtf8Bytes length) (fun _ => True) := by
  intro body pos hbody hpos
  have hslice : (slice body pos length).length = min length (body.length - pos) := by
    rw [slice, List.length_take, List.length_drop]
  have hoffset : messageSize (toString ((pos : Int) - 2)) ≤ 11 := messageSize_int_le (by omega)
  have hstart : messageSize "UTF8 string at offset " = 22 := by decide
  unfold readUtf8Bytes
  dsimp only
  by_cases hlen : length = (slice body pos length).length
  · rw [if_neg (by rw [ne_eq, not_not]; exact hlen)]
    by_cases hnul : 0 ∈ slice body pos length
    · rw [if_pos hnul]
      refine short_parseError ?_
      have hend : messageSize " contains NUL byte" = 18 := by decide
      simp only [messageSize_append]
      omega
    · rw [if_neg hnul]
      cases hd : Utf8.decode (slice body pos length) with
      | none =>
        refine short_parseError ?_
        have hend : messageSize " is not UTF8" = 12 := by decide
        simp only [messageSize_append]
        omega
      | some r =>
        obtain ⟨chars, kept⟩ := r
        dsimp only
        split
        · rename_i hkept
          split at hkept
          · cases hkept
          · cases hkept
            exact ⟨trivial, by omega⟩
        · rename_i hkept
          split at hkept
          · cases hkept
            refine short_parseError ?_
            have hkept : kept.length ≤ (slice body pos length).length := by
              have := congrArg List.length (Utf8.encode_of_decodeFrom hd)
              rw [List.nil_append, List.length_append] at this
              omega
            have hundecoded := messageSize_nat_le (n := kept.length) (by omega)
            have hstart : messageSize "Invalid (partially decodable) string at offset " = 47 := by
              decide
            have hbetween : messageSize ", " = 2 := by decide
            have hend : messageSize " undecoded bytes" = 16 := by decide
            simp only [messageSize_append]
            omega
          · cases hkept
  · rw [if_pos hlen]
    refine short_parseError ?_
    have hclaimed := messageSize_nat_le (n := length) (by omega)
    have havailable := messageSize_nat_le (n := (slice body pos length).length) (by omega)
    have hmiddle : messageSize " extends past end of packet: " = 29 := by decide
    have hbefore : messageSize "claimed " = 8 := by decide
    have hbetween : messageSize " bytes, " = 8 := by decide
    have hend : messageSize " available" = 10 := by decide
    simp only [messageSize_append]
    omega

theorem stays_text : Stays 4294967296 Short readUtf8 (fun _ => True) := by
  rw [readUtf8_eq]
  exact stays_number.bind fun _ hlength => stays_utf8 hlength

theorem stays_content {length : Nat} (hlength : length < 1073741824) :
    Stays 4294967296 Short (readContent length) (fun _ => True) := by
  intro body pos hbody hpos
  have hslice : (slice body pos length).length = min length (body.length - pos) := by
    rw [slice, List.length_take, List.length_drop]
  unfold readContent
  dsimp only
  by_cases hlen : (slice body pos length).length = length
  · rw [if_neg (by rw [ne_eq, not_not]; exact hlen)]
    exact ⟨trivial, by omega⟩
  · rw [if_pos hlen]
    refine short_parseError ?_
    have hclaimed := messageSize_nat_le (n := length) (by omega)
    have havailable := messageSize_nat_le (n := (slice body pos length).length) (by omega)
    have hstart : messageSize "File content extends past end of packet: claimed " = 49 := by decide
    have hbetween : messageSize " bytes, " = 8 := by decide
    have hend : messageSize " available" = 10 := by decide
    simp only [messageSize_append]
    omega

theorem stays_word : Stays 4294967296 Short readWord (fun _ => True) := by
  intro body pos hbody hpos
  unfold readWord
  cases hword : structUnpack 4 (slice body pos 4) with
  | ok seconds => exact ⟨trivial, Nat.le_trans (slice_of_structUnpack (by omega) hword) hbody⟩
  | error e =>
    unfold structUnpack at hword
    split at hword
    · cases hword
    · cases hword
      exact short_structError

theorem stays_timestamp : Stays 4294967296 Short readTimestamp (fun _ => True) := by
  rw [readTimestamp_eq]
  exact stays_word.bind fun _ _ => stays_number.bind fun _ _ => Stays.pure trivial

theorem stays_tags : Stays 4294967296 Short readTags (fun _ => True) :=
  stays_number.bind fun n _ => (stays_text.replicate n).bind fun _ _ => Stays.pure trivial

theorem stays_file : Stays 4294967296 Short readFile (fun _ => True) :=
  stays_text.bind fun _ _ => stays_number.bind fun _ hlength =>
    (stays_content hlength).bind fun _ _ => Stays.pure trivial

/-- The readers of the fields have no long messages. -/
theorem stays_fields (flags : Nat) : Stays 4294967296 Short (readFields flags) (fun _ => True) :=
  (stays_timestamp.optionally _).bind fun _ _ => (stays_text.optionally _).bind fun _ _ =>
    (stays_tags.optionally _).bind fun _ _ => (stays_text.optionally _).bind fun _ _ =>
      (stays_file.optionally _).bind fun _ _ => (stays_text.optionally _).bind fun _ _ =>
        Stays.pure trivial

/-- Nor has the check of the checksum. -/
theorem parseBody_short_message {flags pos : Nat} {before : List Bytes} {last : Bytes} {e : Error}
    (hlast : last.length < 4294967296) (hpos : pos ≤ 4)
    (h : parseBody flags before last pos = .error e) : Short e := by
  by_cases h4 : 4 ≤ last.length
  · by_cases hsum : packetChecksum before last = beNat (lastBytes last 4)
    · have hstays := stays_fields flags (dropLastBytes last 4) pos
        (by rw [dropLastBytes, List.length_take]; omega) (by omega)
      rw [parseBody_good h4 hsum] at h
      cases hread : readFields flags (dropLastBytes last 4) pos with
      | ok p =>
        rw [hread] at h
        cases h
      | error e' =>
        rw [hread] at h hstays
        cases h
        exact hstays
    · have hcalculated := messageSize_hex_le (n := packetChecksum before last)
        (Nat.lt_of_lt_of_eq (BitVec.isLt _) (by decide))
      have hstored := messageSize_hex_le (n := beNat (lastBytes last 4))
        (Nat.lt_of_lt_of_eq (beNat_lt _) (by rw [length_lastBytes h4]; decide))
      have hstart : messageSize "Bad checksum - calculated (0x" = 29 := by decide
      have hbetween : messageSize "), stored (0x" = 13 := by decide
      have hend : messageSize ")" = 1 := by decide
      unfold parseBody at h
      rw [structUnpack_of_length (length_lastBytes h4), ok_bind, if_pos hsum] at h
      cases h
      refine short_parseError ?_
      simp only [messageSize_append]
      omega
  · rw [parseBody_short (by omega)] at h
    cases h
    exact short_structError

theorem wholeResult_short_message {flags consumed : Nat} {whole unread : Bytes} {e : Error}
    (hwhole : whole.length < 4294967296) (hconsumed : consumed ≤ 3)
    (h : (wholeResult flags consumed whole unread).result = .error e) : Short e := by
  unfold wholeResult at h
  by_cases h3 : consumed ≠ 3
  · rw [if_pos h3] at h
    exact parseBody_short_message hwhole (by omega) h
  · rw [if_neg h3] at h
    exact parseBody_short_message (by rw [List.length_drop]; omega) (by omega) h

/-- The message about a remainder that is not what the length declares. -/
theorem messageSize_shortRead (got : Nat) (wanted : Int) :
    messageSize ("Short read - got " ++ toString got ++ " bytes, wanted " ++ toString wanted
        ++ " bytes")
      = 38 + (Nat.toDigits 10 got).length + messageSize (toString wanted) := by
  have hstart : messageSize "Short read - got " = 17 := by decide
  have hbetween : messageSize " bytes, wanted " = 15 := by decide
  have hend : messageSize " bytes" = 6 := by decide
  simp only [messageSize_append, messageSize_nat]
  omega

/-- A length that is too small or too large is reported with its remainder. -/
theorem parse_shortRead {source : Bytes} {length consumed : Nat} (h : 5 ≤ source.length)
    (hd : declaredLength source = some (length, consumed))
    (hout : ¬ (6 ≤ length ∧ length ≤ source.length + 1)) :
    (parse source).result = .error (.parseError ("Short read - got "
      ++ toString (source.length - 5) ++ " bytes, wanted " ++ toString ((length : Int) - 6)
      ++ " bytes")) := by
  have hgot : (sourceRead (source.drop 5) ((length : Int) - 6)).1.length = source.length - 5 := by
    unfold sourceRead
    split
    · rw [List.length_drop]
    · rw [List.length_take, List.length_drop]
      omega
  simp only [parse]
  rw [if_neg (by rw [List.length_take]; omega), parseHeader_eq h, hd]
  dsimp only
  rw [hgot, if_pos (by omega)]

/-- **The messages of the parser are short**, except that a length that is too
small makes it count what it has thrown away. -/
theorem parse_message_size (source : Bytes) :
    (¬ DeclaresTooLittle source ∧ ∀ e, (parse source).result = .error e → Short e)
    ∨ (DeclaresTooLittle source ∧ ∃ message, (parse source).result = .error (.parseError message)
        ∧ messageSize message = 40 + (Nat.toDigits 10 (source.length - 5)).length) := by
  by_cases h5 : source.length < 5
  · refine .inl ⟨fun h => absurd h.1 (by omega), ?_⟩
    intro e he
    simp only [parse] at he
    rw [if_pos (by rw [List.length_take]; omega)] at he
    cases he
    refine short_parseError ?_
    have hcount := messageSize_nat_le (n := (source.take 5).length)
      (by rw [List.length_take]; omega)
    have hstart : messageSize "Short read - got " = 17 := by decide
    have hend : messageSize " bytes, wanted 5" = 16 := by decide
    simp only [messageSize_append]
    omega
  have h : 5 ≤ source.length := by omega
  cases hd : declaredLength source with
  | none =>
    refine .inl ⟨?_, ?_⟩
    · rintro ⟨-, length, consumed, hd', -⟩
      rw [hd] at hd'
      cases hd'
    · intro e he
      simp only [parse] at he
      rw [if_neg (by rw [List.length_take]; omega), parseHeader_eq h, hd] at he
      cases he
      exact short_parseError (by decide)
  | some r =>
    obtain ⟨length, consumed⟩ := r
    obtain ⟨hnumber, -, hconsumed⟩ := number_of_declaredLength hd
    have hbound := (covers_number _ _ hnumber).1
    by_cases hwhole : 6 ≤ length ∧ length ≤ source.length + 1
    · refine .inl ⟨?_, ?_⟩
      · rintro ⟨-, length', consumed', hd', hlt⟩
        rw [hd] at hd'
        cases hd'
        omega
      · intro e he
        rw [parse_whole h hd hwhole.1 hwhole.2] at he
        exact wholeResult_short_message (by rw [List.length_take]; omega) hconsumed he
    · rw [parse_shortRead h hd hwhole]
      have hwanted := messageSize_int_le (z := (length : Int) - 6) (by omega)
      by_cases hlittle : 5 < source.length ∧ length < 6
      · refine .inr ⟨⟨hlittle.1, length, consumed, hd, hlittle.2⟩, _, rfl, ?_⟩
        have hall : ∀ n : Nat, n < 6 → messageSize (toString ((n : Int) - 6)) = 2 := by decide
        have htwo := hall length hlittle.2
        rw [messageSize_shortRead]
        omega
      · refine .inl ⟨?_, ?_⟩
        · rintro ⟨hlt, length', consumed', hd', hlt'⟩
          rw [hd] at hd'
          cases hd'
          exact hlittle ⟨hlt, hlt'⟩
        · intro e he
          cases he
          refine short_parseError ?_
          have hcount : (Nat.toDigits 10 (source.length - 5)).length ≤ 10 :=
            (Nat.length_toDigits_le_iff (by omega) (by omega)).mpr (by omega)
          rw [messageSize_shortRead]
          omega

end Pysubunit.V2
