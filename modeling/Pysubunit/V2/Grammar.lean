/-
Pysubunit.V2.Grammar — the body of a packet as a grammar.

The scanners here say what the fields of a packet are without offsets or
messages: a number of one to four octets, a NUL-free UTF-8 text behind its
length, and the fields that the flags announce in their order. The parser's
readers follow them (`follows_fields`): they read the same values and raise
`ParseError` where the grammar refuses. Where the body ends before or inside
a number they raise `struct.error`, which is what `Overrun` says of a whole
packet and `parse_raised_iff` of the parser.
-/
import Pysubunit.ByteLib.Scanner
import Pysubunit.V2.ParserTheorems

namespace Pysubunit.V2

open ByteLib

namespace Grammar

/-- A number: the top two bits of its first octet say how many follow. -/
def number : Scanner Nat
  | [] => .error .ranOut
  | b0 :: rem =>
    let more := b0.toNat / 64
    if rem.length < more then .error .ranOut
    else .ok (b0.toNat % 64 * 256 ^ more + beNat (rem.take more), rem.drop more)

/-- The text of NUL-free UTF-8 bytes. -/
def textOf (utf8 : Bytes) : Option String :=
  if 0 ∈ utf8 then none
  else
    match Utf8.decode utf8 with
    | some (chars, []) => some (String.ofList chars)
    | _ => none

/-- The text of the next `length` bytes. -/
def utf8 (length : Nat) : Scanner String := fun rem =>
  if length ≤ rem.length then
    match textOf (rem.take length) with
    | some s => .ok (s, rem.drop length)
    | none => .error .refused
  else .error .refused

/-- A text behind its length. -/
def text : Scanner String := do
  let length ← number
  utf8 length

/-- A word of four octets. -/
def word : Scanner Nat := fun rem =>
  if 4 ≤ rem.length then .ok (beNat (rem.take 4), rem.drop 4) else .error .ranOut

/-- Seconds and nanoseconds since the epoch. -/
def timestamp : Scanner DateTime := do
  let seconds ← word
  let nanoseconds ← number
  return ⟨seconds * 1000000 + roundedThousandth nanoseconds⟩

def tags : Scanner (Finset String) := do
  let tagCount ← number
  let tags ← Scanner.replicate text tagCount
  return tags.toFinset

def file : Scanner (String × Bytes) := do
  let fileName ← text
  let contentLength ← number
  let fileBytes ← Scanner.take .refused contentLength
  return (fileName, fileBytes)

/-- The fields that the flags announce. -/
def fields (flags : Nat) : Scanner StatusEvent := do
  let timestamp ← Scanner.optionally (hasFlag flags flagTimestamp) timestamp
  let testId ← Scanner.optionally (hasFlag flags flagTestId) text
  let testTags ← Scanner.optionally (hasFlag flags flagTags) tags
  let mimeType ← Scanner.optionally (hasFlag flags flagMimeType) text
  let file ← Scanner.optionally (hasFlag flags flagFileContent) file
  let routeCode ← Scanner.optionally (hasFlag flags flagRouteCode) text
  return {
    testId, testTags, mimeType, routeCode, timestamp
    testStatus := statusLookup (flags &&& 0x0007)
    runnable := hasFlag flags flagRunnable
    eof := hasFlag flags flagEof
    fileName := file.map (·.1)
    fileBytes := file.map (·.2) }

end Grammar

/-! ## The readers follow the grammar -/

/-- What the parser's exceptions mean. -/
inductive Means : Error → Refusal → Prop
  | structError : Means .structError .ranOut
  | parseError (message : String) : Means (.parseError message) .refused

/-- A number that is all there is read, and one that is not is a
`struct.error`. -/
theorem parseVarint_number (body : Bytes) (pos : Nat) :
    match Grammar.number (body.drop pos) with
    | .ok (n, rem) => ∃ consumed, parseVarint body pos false = .ok (n, consumed)
        ∧ body.drop (pos + consumed) = rem
    | .error x => x = .ranOut ∧ parseVarint body pos false = .error .structError := by
  cases hd : body.drop pos with
  | nil => exact ⟨rfl, parseVarint_empty hd⟩
  | cons b0 rem =>
    have hlt := b0.toNat_lt
    simp only [Grammar.number]
    by_cases hshort : rem.length < b0.toNat / 64
    · rw [if_pos hshort]
      exact ⟨rfl, parseVarint_short hd hshort⟩
    · rw [if_neg hshort]
      have hmore : b0.toNat / 64 = 0 ∨ b0.toNat / 64 = 1 ∨ b0.toNat / 64 = 2
          ∨ b0.toNat / 64 = 3 := by omega
      rcases hmore with h | h | h | h
      · rw [h]
        refine ⟨1, ?_, @drop_add_of_drop _ [b0] _ _ hd⟩
        rw [parseVarint_one hd (by omega)]
        simp [beNat]
        omega
      · rw [h] at hshort ⊢
        obtain ⟨b1, rem, rfl⟩ := List.exists_cons_of_length_pos (by omega : 0 < rem.length)
        refine ⟨2, ?_, @drop_add_of_drop _ [b0, b1] _ _ hd⟩
        rw [parseVarint_two hd (by omega)]
        simp [beNat]
        omega
      · rw [h] at hshort ⊢
        obtain ⟨b1, rem, rfl⟩ := List.exists_cons_of_length_pos (by omega : 0 < rem.length)
        simp only [List.length_cons] at hshort
        obtain ⟨b2, rem, rfl⟩ := List.exists_cons_of_length_pos (by omega : 0 < rem.length)
        refine ⟨3, ?_, @drop_add_of_drop _ [b0, b1, b2] _ _ hd⟩
        rw [parseVarint_three hd (by omega)]
        simp [beNat]
        omega
      · rw [h] at hshort ⊢
        obtain ⟨b1, rem, rfl⟩ := List.exists_cons_of_length_pos (by omega : 0 < rem.length)
        simp only [List.length_cons] at hshort
        obtain ⟨b2, rem, rfl⟩ := List.exists_cons_of_length_pos (by omega : 0 < rem.length)
        simp only [List.length_cons] at hshort
        obtain ⟨b3, rem, rfl⟩ := List.exists_cons_of_length_pos (by omega : 0 < rem.length)
        refine ⟨4, ?_, @drop_add_of_drop _ [b0, b1, b2, b3] _ _ hd⟩
        rw [parseVarint_four hd (by omega)]
        simp [beNat]
        omega

theorem follows_number : Follows Means readNumber Grammar.number := by
  intro body pos
  have h := parseVarint_number body pos
  cases hn : Grammar.number (body.drop pos) with
  | error x =>
    rw [hn] at h
    obtain ⟨rfl, hp⟩ := h
    refine ⟨.structError, ?_, .structError⟩
    unfold readNumber
    rw [hp]
    rfl
  | ok p =>
    obtain ⟨n, rem⟩ := p
    rw [hn] at h
    obtain ⟨consumed, hp, hrem⟩ := h
    refine ⟨pos + consumed, ?_, hrem⟩
    unfold readNumber
    rw [hp]
    rfl

/-- A claimed length past the end shortens the slice. -/
theorem length_slice {body : Bytes} {pos n : Nat} :
    n = (slice body pos n).length ↔ n ≤ (body.drop pos).length := by
  rw [slice, List.length_take]
  omega

/-- What `_read_utf8` does once it has the length. -/
def readUtf8Bytes (length : Nat) : Reader Error String := fun buf pos => do
  let offset := toString ((pos : Int) - 2)
  let utf8 := slice buf pos length
  if length ≠ utf8.length then
    throw (.parseError ("UTF8 string at offset " ++ offset ++ " extends past end of packet: "
      ++ "claimed " ++ toString length ++ " bytes, " ++ toString utf8.length ++ " available"))
  else if 0 ∈ utf8 then
    throw (.parseError ("UTF8 string at offset " ++ offset ++ " contains NUL byte"))
  else
    match Utf8.decode utf8 with
    | none => throw (.parseError ("UTF8 string at offset " ++ offset ++ " is not UTF8"))
    | some (chars, kept) =>
      if length - kept.length ≠ length then
        throw (.parseError ("Invalid (partially decodable) string at offset " ++ offset ++ ", "
          ++ toString kept.length ++ " undecoded bytes"))
      else return (String.ofList chars, length + pos)

theorem readUtf8_eq : readUtf8 = Reader.bind readNumber readUtf8Bytes := by
  funext buf pos
  unfold readUtf8 Reader.bind readNumber
  cases parseVarint buf pos false <;> rfl

theorem follows_utf8 (length : Nat) :
    Follows Means (readUtf8Bytes length) (Grammar.utf8 length) := by
  intro body pos
  unfold Grammar.utf8 readUtf8Bytes
  by_cases hlen : length ≤ (body.drop pos).length
  · rw [if_pos hlen]
    dsimp only
    rw [if_neg (by rw [ne_eq, not_not]; exact length_slice.mpr hlen), ← slice,
      Grammar.textOf]
    by_cases hnul : 0 ∈ slice body pos length
    · rw [if_pos hnul, if_pos hnul]
      exact ⟨_, rfl, .parseError _⟩
    · rw [if_neg hnul, if_neg hnul]
      cases hd : Utf8.decode (slice body pos length) with
      | none => exact ⟨_, rfl, .parseError _⟩
      | some r =>
        obtain ⟨chars, kept⟩ := r
        cases kept with
        | nil =>
          dsimp only
          rw [if_neg (by simp)]
          exact ⟨length + pos, rfl, by rw [Nat.add_comm, List.drop_drop]⟩
        | cons b kept =>
          dsimp only
          rw [if_pos]
          · exact ⟨_, rfl, .parseError _⟩
          · cases length with
            | zero => simp [slice, Utf8.decode, Utf8.decodeFrom] at hd
            | succ n => rw [List.length_cons]; omega
  · rw [if_neg hlen]
    dsimp only
    rw [if_pos (fun h => hlen (length_slice.mp h))]
    exact ⟨_, rfl, .parseError _⟩

theorem follows_text : Follows Means readUtf8 Grammar.text := by
  rw [readUtf8_eq]
  exact follows_number.bind follows_utf8

theorem follows_content (length : Nat) :
    Follows Means (readContent length) (Scanner.take .refused length) := by
  intro body pos
  unfold Scanner.take readContent
  by_cases hlen : length ≤ (body.drop pos).length
  · rw [if_pos hlen]
    dsimp only
    rw [if_neg (by rw [ne_eq, not_not]; exact (length_slice.mpr hlen).symm), ← slice]
    exact ⟨pos + length, rfl, (List.drop_drop).symm⟩
  · rw [if_neg hlen]
    dsimp only
    rw [if_pos (fun h => hlen (length_slice.mp h.symm))]
    exact ⟨_, rfl, .parseError _⟩

/-- The first step of `readTimestamp`. -/
def readWord : Reader Error Nat := fun body pos => do
  let seconds ← structUnpack 4 (slice body pos 4)
  return (seconds, pos + 4)

theorem follows_word : Follows Means readWord Grammar.word := by
  intro body pos
  unfold Grammar.word readWord
  by_cases hlen : 4 ≤ (body.drop pos).length
  · rw [if_pos hlen, structUnpack_of_length (length_slice.mpr hlen).symm]
    exact ⟨pos + 4, rfl, (List.drop_drop).symm⟩
  · rw [if_neg hlen, structUnpack_slice_short rfl (by omega)]
    exact ⟨_, rfl, .structError⟩

theorem readTimestamp_eq :
    readTimestamp = Reader.bind readWord fun seconds => Reader.bind readNumber fun nanoseconds =>
      Reader.pure ⟨seconds * 1000000 + roundedThousandth nanoseconds⟩ := by
  funext body pos
  unfold readTimestamp Reader.bind readWord readNumber
  cases structUnpack 4 (slice body pos 4) with
  | error e => rfl
  | ok seconds =>
    simp only [ok_bind, pure, Except.pure]
    cases parseVarint body (pos + 4) false <;> rfl

theorem follows_timestamp : Follows Means readTimestamp Grammar.timestamp := by
  rw [readTimestamp_eq]
  exact follows_word.bind fun seconds => follows_number.bind fun _ => Follows.pure _

theorem follows_tags : Follows Means readTags Grammar.tags :=
  follows_number.bind fun n => (follows_text.replicate n).bind fun _ => Follows.pure _

theorem follows_file : Follows Means readFile Grammar.file :=
  follows_text.bind fun _ => follows_number.bind fun n =>
    (follows_content n).bind fun _ => Follows.pure _

/-- **The parser reads the grammar.** -/
theorem follows_fields (flags : Nat) : Follows Means (readFields flags) (Grammar.fields flags) :=
  (follows_timestamp.optionally _).bind fun _ => (follows_text.optionally _).bind fun _ =>
    (follows_tags.optionally _).bind fun _ => (follows_text.optionally _).bind fun _ =>
      (follows_file.optionally _).bind fun _ => (follows_text.optionally _).bind fun _ =>
        Follows.pure _

/-! ## What `_parse_packet` lets through -/

/-- The fields decide the outcome. -/
theorem wholeResult_fields (flags : Nat) {consumed : Nat} {whole : Bytes} (unread : Bytes)
    (h5 : 5 ≤ whole.length) (hlen : consumed = 3 → 9 ≤ whole.length) (hsum : SumMatches whole) :
    match Grammar.fields flags (fieldsOf whole consumed) with
    | .ok (event, _) => (wholeResult flags consumed whole unread).result = .ok event
    | .error x => ∃ e, (wholeResult flags consumed whole unread).result = .error e ∧ Means e x := by
  obtain ⟨body, pos, hbody, hresult⟩ := wholeResult_reads flags unread h5 hlen hsum
  have hfollows := follows_fields flags body pos
  rw [hbody] at hfollows
  rw [hresult]
  cases hf : Grammar.fields flags (fieldsOf whole consumed) with
  | ok p =>
    rw [hf] at hfollows
    obtain ⟨pos', hr, -⟩ := hfollows
    rw [hr]
    rfl
  | error x =>
    rw [hf] at hfollows
    obtain ⟨e, hr, hm⟩ := hfollows
    rw [hr]
    exact ⟨e, rfl, hm⟩

/-- The bytes after a signature make a whole packet that the parser runs out
of: a length of three octets that leaves no room for the checksum, or a body,
checksum and all, that ends before or inside a number it announces. -/
def Overrun (source : Bytes) : Prop :=
  ∃ length consumed, declaredLength source = some (length, consumed)
    ∧ 6 ≤ length ∧ length ≤ source.length + 1
    ∧ ((consumed = 3 ∧ length < 10)
      ∨ (SumMatches (source.take (length - 1))
        ∧ Grammar.fields (beNat (source.take 2)) (fieldsOf (source.take (length - 1)) consumed)
          = .error .ranOut))

theorem overrun_iff {source : Bytes} {length consumed : Nat}
    (hd : declaredLength source = some (length, consumed)) :
    Overrun source ↔ 6 ≤ length ∧ length ≤ source.length + 1
      ∧ ((consumed = 3 ∧ length < 10)
        ∨ (SumMatches (source.take (length - 1))
          ∧ Grammar.fields (beNat (source.take 2)) (fieldsOf (source.take (length - 1)) consumed)
            = .error .ranOut)) := by
  constructor
  · rintro ⟨length', consumed', hd', h⟩
    rw [hd] at hd'
    cases hd'
    exact h
  · intro h
    exact ⟨length, consumed, hd, h⟩

/-- The parser decodes one event, or reports a `ParseError`, or lets a
`struct.error` through; the last exactly where it is overrun. -/
theorem parse_result_cases (source : Bytes) :
    (¬ Overrun source ∧ ((∃ event, (parse source).result = .ok event)
      ∨ ∃ message, (parse source).result = .error (.parseError message)))
    ∨ (Overrun source ∧ (parse source).result = .error .structError) := by
  have hp := parse_cases source
  generalize parse source = r at hp
  cases hp with
  | shortHeader message h =>
    refine .inl ⟨?_, .inr ⟨message, rfl⟩⟩
    rintro ⟨length, consumed, hd, -⟩
    have := length_of_declaredLength hd
    omega
  | longLength message h hd =>
    refine .inl ⟨?_, .inr ⟨message, rfl⟩⟩
    rintro ⟨length, consumed, hd', -⟩
    rw [hd] at hd'
    cases hd'
  | shortRemainder message length consumed h hd hlen =>
    refine .inl ⟨?_, .inr ⟨message, rfl⟩⟩
    rw [overrun_iff hd]
    omega
  | whole length consumed h hd hlow hhigh =>
    have hlen : (source.take (length - 1)).length = length - 1 := by
      rw [List.length_take]
      omega
    rw [overrun_iff hd]
    by_cases hshort : consumed = 3 ∧ length < 10
    · exact .inr ⟨⟨hlow, hhigh, .inl hshort⟩, wholeResult_short _ _ hshort.1 (by omega)⟩
    · have h9 : consumed = 3 → 9 ≤ (source.take (length - 1)).length := by omega
      by_cases hsum : SumMatches (source.take (length - 1))
      · have hfields := wholeResult_fields (beNat (source.take 2))
          (source.drop (length - 1)) (by omega) h9 hsum
        cases hf : Grammar.fields (beNat (source.take 2))
            (fieldsOf (source.take (length - 1)) consumed) with
        | ok p =>
          rw [hf] at hfields
          exact .inl ⟨by simp [hshort], .inl ⟨p.1, hfields⟩⟩
        | error x =>
          rw [hf] at hfields
          obtain ⟨e, he, hm⟩ := hfields
          cases hm with
          | structError => exact .inr ⟨⟨hlow, hhigh, .inr ⟨hsum, rfl⟩⟩, he⟩
          | parseError message => exact .inl ⟨by simp [hshort], .inr ⟨message, he⟩⟩
      · obtain ⟨message, he⟩ := wholeResult_mismatch (beNat (source.take 2))
          (source.drop (length - 1)) (by omega) h9 hsum
        exact .inl ⟨by simp [hshort, hsum], .inr ⟨message, he⟩⟩

/-- What the parser lets through is a `struct.error` on an overrun. -/
theorem parse_raised_iff (source : Bytes) (e : Error) :
    (parse source).raised = some e ↔ Overrun source ∧ e = .structError := by
  rcases parse_result_cases source with ⟨hn, ⟨event, h⟩ | ⟨message, h⟩⟩ | ⟨ho, h⟩
  · simp [ParseResult.raised, h, hn]
  · simp [ParseResult.raised, h, hn]
  · simp [ParseResult.raised, h, ho, eq_comm]

end Pysubunit.V2
