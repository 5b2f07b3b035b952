/-
ByteLib.Utf8 — an incremental UTF-8 decoder.

`classify` says what a byte sequence is to UTF-8: one whole character, the
beginning of one, or neither. It refuses a sequence at the first byte no
character continues with, so a surrogate or an overlong form is refused at
its second byte. `decode` reads a byte string character by character and
returns the characters with the bytes of an unfinished last one; it fails
where `classify` refuses. A decoder fed piecewise keeps the unfinished bytes
and decodes them in front of the next piece. That is the incremental decoder
of CPython 3.3 to 3.7.3. The one of 2.7, and those from 3.7.4 on, take ED
followed by A0 to BF to be unfinished, and refuse it at the third byte.

`decode_encode` is the round trip; `decode_prefix` says what a decoder fed
part of a character does, and `decode_concat_newline` that a newline always
ends a character or an error.
-/
import Pysubunit.ByteLib.Bytes

namespace ByteLib.Utf8

/-- What a byte sequence is to UTF-8. -/
inductive Sequence where
  | char (c : Char)
  | incomplete
  | invalid
  deriving DecidableEq, Repr

/-- A continuation octet. -/
abbrev Tail (b : Nat) : Prop := 0x80 ≤ b ∧ b ≤ 0xBF

/-- A second octet that the lead octet of a three- or four-octet form
admits: not an overlong form, not a surrogate, not past U+10FFFF. -/
abbrev Second (a b : Nat) : Prop :=
  Tail b ∧ (a = 0xE0 → 0xA0 ≤ b) ∧ (a = 0xED → b ≤ 0x9F) ∧ (a = 0xF0 → 0x90 ≤ b)
    ∧ (a = 0xF4 → b ≤ 0x8F)

/-- What a sequence of octets is to UTF-8. -/
def classifyOctets : List Nat → Sequence
  | [] => .incomplete
  | [a] =>
    if a < 0x80 then .char (Char.ofNat a)
    else if 0xC2 ≤ a ∧ a ≤ 0xF4 then .incomplete
    else .invalid
  | [a, b] =>
    if 0xC2 ≤ a ∧ a ≤ 0xDF ∧ Tail b then
      .char (Char.ofNat ((a - 0xC0) * 64 + (b - 0x80)))
    else if 0xE0 ≤ a ∧ a ≤ 0xF4 ∧ Second a b then .incomplete
    else .invalid
  | [a, b, c] =>
    if 0xE0 ≤ a ∧ a ≤ 0xEF ∧ Second a b ∧ Tail c then
      .char (Char.ofNat ((a - 0xE0) * 4096 + (b - 0x80) * 64 + (c - 0x80)))
    else if 0xF0 ≤ a ∧ a ≤ 0xF4 ∧ Second a b ∧ Tail c then .incomplete
    else .invalid
  | [a, b, c, d] =>
    if 0xF0 ≤ a ∧ a ≤ 0xF4 ∧ Second a b ∧ Tail c ∧ Tail d then
      .char (Char.ofNat ((a - 0xF0) * 262144 + (b - 0x80) * 4096 + (c - 0x80) * 64
        + (d - 0x80)))
    else .invalid
  | _ => .invalid

/-- What a byte sequence is to UTF-8. -/
def classify (bs : Bytes) : Sequence := classifyOctets (bs.map UInt8.toNat)

/-- Decode from where `pending` are the bytes of an unfinished character. -/
def decodeFrom : Bytes → Bytes → Option (List Char × Bytes)
  | pending, [] => some ([], pending)
  | pending, b :: bs =>
    match classify (pending ++ [b]) with
    | .char c => (decodeFrom [] bs).map fun r => (c :: r.1, r.2)
    | .incomplete => decodeFrom (pending ++ [b]) bs
    | .invalid => none

/-- The characters of a byte string and the bytes of an unfinished last one. -/
def decode (bs : Bytes) : Option (List Char × Bytes) := decodeFrom [] bs

/-- The bytes of a text. -/
def encode (cs : List Char) : Bytes := cs.flatMap String.utf8EncodeChar

@[simp] theorem encode_nil : encode [] = [] := rfl

@[simp] theorem encode_cons (c : Char) (cs : List Char) :
    encode (c :: cs) = String.utf8EncodeChar c ++ encode cs := rfl

theorem encode_append (cs ds : List Char) : encode (cs ++ ds) = encode cs ++ encode ds :=
  List.flatMap_append

/-! ## One character -/

/-- The octets of a code point. -/
def octets (v : Nat) : List Nat :=
  if v ≤ 0x7F then [v]
  else if v ≤ 0x7FF then [v / 64 + 0xC0, v % 64 + 0x80]
  else if v ≤ 0xFFFF then [v / 4096 + 0xE0, v / 64 % 64 + 0x80, v % 64 + 0x80]
  else [v / 262144 + 0xF0, v / 4096 % 64 + 0x80, v / 64 % 64 + 0x80, v % 64 + 0x80]

theorem map_toNat_encodeChar (c : Char) :
    (String.utf8EncodeChar c).map UInt8.toNat = octets c.val.toNat := by
  have hvalid : c.val.toNat < 0xD800 ∨ (0xDFFF < c.val.toNat ∧ c.val.toNat < 0x110000) := c.valid
  simp only [String.utf8EncodeChar, octets]
  split
  · simp only [List.map_cons, List.map_nil]
    rw [toNat_ofNat_lt (by omega)]
  · split
    · simp only [List.map_cons, List.map_nil]
      rw [toNat_ofNat_lt (by omega), toNat_ofNat_lt (by omega), Nat.mod_eq_of_lt (by omega)]
    · split
      · simp only [List.map_cons, List.map_nil]
        rw [toNat_ofNat_lt (by omega), toNat_ofNat_lt (by omega), toNat_ofNat_lt (by omega),
          Nat.mod_eq_of_lt (show c.val.toNat / 4096 < 0x10 by omega)]
      · simp only [List.map_cons, List.map_nil]
        rw [toNat_ofNat_lt (by omega), toNat_ofNat_lt (by omega), toNat_ofNat_lt (by omega),
          toNat_ofNat_lt (by omega), Nat.mod_eq_of_lt (show c.val.toNat / 262144 < 0x08 by omega)]

/-- The octets of a scalar value are that character. -/
theorem classifyOctets_octets {v : Nat} (h : v < 0xD800 ∨ (0xDFFF < v ∧ v < 0x110000)) :
    classifyOctets (octets v) = .char (Char.ofNat v) := by
  unfold octets
  split
  · rw [classifyOctets, if_pos (by omega)]
  · split
    · rw [classifyOctets, if_pos (by omega),
        show (v / 64 + 0xC0 - 0xC0) * 64 + (v % 64 + 0x80 - 0x80) = v by omega]
    · split
      · rw [classifyOctets, if_pos (by omega),
          show (v / 4096 + 0xE0 - 0xE0) * 4096 + (v / 64 % 64 + 0x80 - 0x80) * 64
            + (v % 64 + 0x80 - 0x80) = v by omega]
      · rw [classifyOctets, if_pos (by omega),
          show (v / 262144 + 0xF0 - 0xF0) * 262144 + (v / 4096 % 64 + 0x80 - 0x80) * 4096
            + (v / 64 % 64 + 0x80 - 0x80) * 64 + (v % 64 + 0x80 - 0x80) = v by omega]

/-- A proper part of the octets of a scalar value is the beginning of a
character. -/
theorem classifyOctets_prefix {v : Nat} (h : v < 0xD800 ∨ (0xDFFF < v ∧ v < 0x110000))
    {p q : List Nat} (hpq : octets v = p ++ q) (hq : q ≠ []) :
    classifyOctets p = .incomplete := by
  unfold octets at hpq
  split at hpq
  · simp only [List.cons_eq_append_iff, List.nil_eq_append_iff] at hpq
    rcases hpq with ⟨rfl, -⟩ | ⟨_, -, -, rfl⟩
    · rfl
    · exact absurd rfl hq
  · split at hpq
    · simp only [List.cons_eq_append_iff, List.nil_eq_append_iff] at hpq
      rcases hpq with ⟨rfl, -⟩ | ⟨_, rfl, ⟨rfl, -⟩ | ⟨_, -, -, rfl⟩⟩
      · rfl
      · rw [classifyOctets, if_neg (by omega), if_pos (by omega)]
      · exact absurd rfl hq
    · split at hpq
      · simp only [List.cons_eq_append_iff, List.nil_eq_append_iff] at hpq
        rcases hpq with ⟨rfl, -⟩ | ⟨_, rfl, ⟨rfl, -⟩ | ⟨_, rfl, ⟨rfl, -⟩ | ⟨_, -, -, rfl⟩⟩⟩
        · rfl
        · rw [classifyOctets, if_neg (by omega), if_pos (by omega)]
        · rw [classifyOctets, if_neg (by omega), if_pos (by omega)]
        · exact absurd rfl hq
      · simp only [List.cons_eq_append_iff, List.nil_eq_append_iff] at hpq
        rcases hpq with ⟨rfl, -⟩ | ⟨_, rfl, ⟨rfl, -⟩ | ⟨_, rfl, ⟨rfl, -⟩ |
          ⟨_, rfl, ⟨rfl, -⟩ | ⟨_, -, -, rfl⟩⟩⟩⟩
        · rfl
        · rw [classifyOctets, if_neg (by omega), if_pos (by omega)]
        · rw [classifyOctets, if_neg (by omega), if_pos (by omega)]
        · rw [classifyOctets, if_neg (by omega), if_pos (by omega)]
        · exact absurd rfl hq

theorem classify_encodeChar (c : Char) : classify (String.utf8EncodeChar c) = .char c := by
  rw [classify, map_toNat_encodeChar, classifyOctets_octets c.valid]
  exact congrArg Sequence.char (Char.ofNat_toNat c)

theorem classify_prefix {c : Char} {p q : Bytes} (h : String.utf8EncodeChar c = p ++ q)
    (hq : q ≠ []) : classify p = .incomplete := by
  have h' : octets c.val.toNat = p.map UInt8.toNat ++ q.map UInt8.toNat := by
    rw [← map_toNat_encodeChar, h, List.map_append]
  exact classifyOctets_prefix c.valid h' (by simpa using hq)

/-- A newline continues no character. -/
theorem classify_concat_newline (p : Bytes) : classify (p ++ [10]) ≠ .incomplete := by
  match p with
  | [] => decide
  | [a] =>
    simp only [classify, List.cons_append, List.nil_append, List.map_cons, List.map_nil,
      classifyOctets]
    rw [if_neg (by simp), if_neg (by simp)]
    simp
  | [a, b] =>
    simp only [classify, List.cons_append, List.nil_append, List.map_cons, List.map_nil,
      classifyOctets]
    rw [if_neg (by simp), if_neg (by simp)]
    simp
  | [a, b, c] =>
    simp only [classify, List.cons_append, List.nil_append, List.map_cons, List.map_nil,
      classifyOctets]
    rw [if_neg (by simp)]
    simp
  | a :: b :: c :: d :: p => simp [classify, classifyOctets]

/-- The first byte of a character is no continuation byte. -/
theorem head_encodeChar_not_tail {c : Char} {b : UInt8} {q : Bytes}
    (h : String.utf8EncodeChar c = b :: q) : ¬ Tail b.toNat := by
  have h' : octets c.val.toNat = b.toNat :: q.map UInt8.toNat := by
    rw [← map_toNat_encodeChar, h, List.map_cons]
  unfold octets at h'
  split at h'
  · simp only [List.cons.injEq] at h'
    omega
  · split at h'
    · simp only [List.cons.injEq] at h'
      omega
    · split at h' <;> simp only [List.cons.injEq] at h' <;> omega

theorem encodeChar_ne_nil (c : Char) : String.utf8EncodeChar c ≠ [] := by
  have : 0 < (String.utf8EncodeChar c).length := by
    rw [String.length_utf8EncodeChar]
    exact c.utf8Size_pos
  exact List.length_pos_iff.mp this

/-- An octet below 0x80 is a character of its own. -/
theorem toNat_of_mem_encodeChar {c : Char} {b : UInt8} (hb : b.toNat < 0x80)
    (h : b ∈ String.utf8EncodeChar c) : c.toNat = b.toNat := by
  have h' : b.toNat ∈ octets c.val.toNat := by
    rw [← map_toNat_encodeChar]
    exact List.mem_map.mpr ⟨b, h, rfl⟩
  show c.val.toNat = b.toNat
  unfold octets at h'
  split at h'
  · simp only [List.mem_singleton] at h'
    exact h'.symm
  · split at h'
    · simp only [List.mem_cons, List.not_mem_nil, or_false] at h'
      omega
    · split at h' <;> simp only [List.mem_cons, List.not_mem_nil, or_false] at h' <;> omega

theorem ascii_mem_encode {cs : List Char} {b : UInt8} (hb : b.toNat < 0x80) (h : b ∈ encode cs) :
    ∃ c ∈ cs, c.toNat = b.toNat := by
  obtain ⟨c, hc, hmem⟩ := List.mem_flatMap.mp h
  exact ⟨c, hc, toNat_of_mem_encodeChar hb hmem⟩

theorem encodeChar_ascii {c : Char} (h : c.toNat < 0x80) :
    String.utf8EncodeChar c = [UInt8.ofNat c.toNat] := by
  have hoctets : (String.utf8EncodeChar c).map UInt8.toNat = [c.toNat] := by
    rw [map_toNat_encodeChar, octets, if_pos (show c.val.toNat ≤ 0x7F by
      have : c.val.toNat = c.toNat := rfl
      omega)]
    rfl
  obtain ⟨b, hb, hbc⟩ := List.map_eq_singleton_iff.mp hoctets
  rw [hb, ← hbc, UInt8.ofNat_toNat]

/-- An octet below 0x80 cuts an encoding between characters. -/
theorem encode_split {cs : List Char} {a rest : Bytes} {b : UInt8} (hb : b.toNat < 0x80)
    (h : encode cs = a ++ b :: rest) :
    ∃ cs₁ c cs₂, cs = cs₁ ++ c :: cs₂ ∧ c.toNat = b.toNat ∧ encode cs₁ = a ∧ encode cs₂ = rest := by
  induction cs generalizing a with
  | nil => simp at h
  | cons c cs ih =>
    rw [encode_cons, List.append_eq_append_iff] at h
    rcases h with ⟨a', rfl, hrest⟩ | ⟨c', hc, hrest⟩
    · obtain ⟨cs₁, d, cs₂, rfl, hd, rfl, rfl⟩ := ih hrest
      exact ⟨c :: cs₁, d, cs₂, rfl, hd, encode_cons c cs₁, rfl⟩
    · cases c' with
      | nil =>
        rw [List.append_nil] at hc
        obtain ⟨cs₁, d, cs₂, rfl, hd, ha, rfl⟩ := ih (a := []) hrest.symm
        refine ⟨c :: cs₁, d, cs₂, rfl, hd, ?_, rfl⟩
        rw [encode_cons, ha, List.append_nil, hc]
      | cons b' c' =>
        obtain ⟨rfl, hrest'⟩ := List.cons.inj hrest
        have hmem : b ∈ String.utf8EncodeChar c := by simp [hc]
        have hnat := toNat_of_mem_encodeChar hb hmem
        rw [encodeChar_ascii (by omega)] at hc
        cases a with
        | nil =>
          have hnil : c' = [] := (List.cons.inj hc).2.symm
          rw [hnil] at hrest'
          exact ⟨[], c, cs, rfl, hnat, rfl, hrest'.symm⟩
        | cons x a => simp at hc

/-- A zero byte is U+0000. -/
theorem zero_mem_encode {cs : List Char} : 0 ∈ encode cs ↔ '\x00' ∈ cs := by
  constructor
  · intro h
    obtain ⟨c, hc, h0⟩ := ascii_mem_encode (by decide) h
    have hzero : c = '\x00' := Char.ext (UInt32.toNat_inj.mp h0)
    rwa [hzero] at hc
  · intro h
    exact List.mem_flatMap.mpr ⟨'\x00', h, by rw [encodeChar_ascii (by decide)]; decide⟩

/-- ASCII is UTF-8. -/
theorem encode_ascii {s : String} (h : ∀ c ∈ s.toList, c.toNat < 0x80) :
    encode s.toList = ascii s := by
  unfold ascii
  generalize s.toList = cs at h
  induction cs with
  | nil => rfl
  | cons c cs ih =>
    rw [encode_cons, encodeChar_ascii (h c (by simp)), ih fun d hd => h d (by simp [hd])]
    rfl

/-! ## How many octets -/

/-- A character beyond ASCII has two octets beyond ASCII. -/
theorem two_le_countP_encodeChar {c : Char} (h : 0x80 ≤ c.toNat) :
    2 ≤ (String.utf8EncodeChar c).countP fun b => 0x80 ≤ b.toNat := by
  have hval : 0x80 ≤ c.val.toNat := h
  have hoctets : 2 ≤ (octets c.val.toNat).countP fun o => 0x80 ≤ o := by
    unfold octets
    rw [if_neg (by omega)]
    split
    · simp
    · split <;> simp
  rw [← map_toNat_encodeChar, List.countP_map] at hoctets
  exact hoctets

/-- An encoding has twice as many octets beyond ASCII as the text has such
characters, or more. -/
theorem two_mul_countP_le (cs : List Char) :
    2 * cs.countP (fun c => 0x80 ≤ c.toNat) ≤ (encode cs).countP fun b => 0x80 ≤ b.toNat := by
  induction cs with
  | nil => simp
  | cons c cs ih =>
    rw [encode_cons, List.countP_append, List.countP_cons]
    split
    · rename_i hc
      have := two_le_countP_encodeChar (of_decide_eq_true hc)
      omega
    · omega

/-- An encoding is no shorter than the text, and as long only if the text is
ASCII. -/
theorem length_encode (cs : List Char) :
    cs.length + cs.countP (fun c => 0x80 ≤ c.toNat) ≤ (encode cs).length := by
  induction cs with
  | nil => simp
  | cons c cs ih =>
    rw [encode_cons, List.length_append, List.countP_cons, List.length_cons]
    split
    · rename_i hc
      have htwo := two_le_countP_encodeChar (of_decide_eq_true hc)
      have hlen := List.countP_le_length (p := fun b : UInt8 => decide (0x80 ≤ b.toNat))
        (l := String.utf8EncodeChar c)
      omega
    · have hpos := List.length_pos_iff.mpr (encodeChar_ne_nil c)
      omega

theorem countP_eq_zero_iff {cs : List Char} :
    cs.countP (fun c => 0x80 ≤ c.toNat) = 0 ↔ ∀ c ∈ cs, c.toNat < 0x80 := by
  rw [List.countP_eq_zero]
  simp

/-- The octets of a character are all that make it. -/
theorem octets_of_classifyOctets {os : List Nat} (hos : ∀ o ∈ os, o < 256) {c : Char}
    (h : classifyOctets os = .char c) : os = octets c.val.toNat := by
  have hval : ∀ {v : Nat}, (v < 0xD800 ∨ (0xDFFF < v ∧ v < 0x110000)) →
      (Char.ofNat v).val.toNat = v := by
    intro v hv
    have hvalid : v.isValidChar := hv
    rw [Char.ofNat, dif_pos hvalid]
    rfl
  match os with
  | [] => cases h
  | [a] =>
    rw [classifyOctets] at h
    split at h
    · rw [← Sequence.char.inj h, hval (by omega), octets, if_pos (by omega)]
    · split at h <;> cases h
  | [a, b] =>
    rw [classifyOctets] at h
    split at h
    · rw [← Sequence.char.inj h, hval (by omega), octets, if_neg (by omega), if_pos (by omega)]
      simp only [List.cons.injEq, and_true]
      omega
    · split at h <;> cases h
  | [a, b, c] =>
    rw [classifyOctets] at h
    split at h
    · rw [← Sequence.char.inj h, hval (by omega), octets, if_neg (by omega), if_neg (by omega), if_pos (by omega)]
      simp only [List.cons.injEq, and_true]
      omega
    · split at h <;> cases h
  | [a, b, c, d] =>
    rw [classifyOctets] at h
    split at h
    · rw [← Sequence.char.inj h, hval (by omega), octets, if_neg (by omega), if_neg (by omega), if_neg (by omega)]
      simp only [List.cons.injEq, and_true]
      omega
    · cases h
  | _ :: _ :: _ :: _ :: _ :: _ => cases h

/-- Bytes that are a character are its encoding. -/
theorem eq_encodeChar_of_classify {bs : Bytes} {c : Char} (h : classify bs = .char c) :
    bs = String.utf8EncodeChar c := by
  have hos : ∀ o ∈ bs.map UInt8.toNat, o < 256 := by
    intro o ho
    obtain ⟨b, -, rfl⟩ := List.mem_map.mp ho
    exact b.toNat_lt
  have hoctets := octets_of_classifyOctets hos h
  rw [← map_toNat_encodeChar] at hoctets
  exact List.map_inj_right (fun _ _ => UInt8.toNat_inj.mp) |>.mp hoctets

/-! ## Texts -/

/-- Bytes that begin a character are kept as unfinished. -/
theorem decodeFrom_prefix {c : Char} {p s q : Bytes}
    (h : String.utf8EncodeChar c = p ++ s ++ q) (hq : q ≠ []) (rest : Bytes) :
    decodeFrom p (s ++ rest) = decodeFrom (p ++ s) rest := by
  induction s generalizing p with
  | nil => simp
  | cons b s ih =>
    have hb : classify (p ++ [b]) = .incomplete :=
      classify_prefix (q := s ++ q) (by rw [h]; simp) (by simp [hq])
    rw [List.cons_append, decodeFrom, hb]
    simp only []
    rw [ih (p := p ++ [b]) (by rw [h]; simp)]
    simp

/-- A whole character is decoded. -/
theorem decodeFrom_char {c : Char} {p s : Bytes} (h : String.utf8EncodeChar c = p ++ s)
    (hs : s ≠ []) (rest : Bytes) :
    decodeFrom p (s ++ rest) = (decodeFrom [] rest).map fun r => (c :: r.1, r.2) := by
  obtain ⟨init, b, rfl⟩ : ∃ init b, s = init ++ [b] :=
    ⟨s.dropLast, s.getLast hs, (List.dropLast_concat_getLast hs).symm⟩
  have hb : classify (p ++ init ++ [b]) = .char c := by
    rw [List.append_assoc, ← h, classify_encodeChar]
  rw [List.append_assoc, decodeFrom_prefix (c := c) (q := [b]) (by rw [h]; simp) (by simp),
    List.singleton_append, decodeFrom, hb]

theorem decodeFrom_encode (cs : List Char) (rest : Bytes) :
    decodeFrom [] (encode cs ++ rest)
      = (decodeFrom [] rest).map fun r => (cs ++ r.1, r.2) := by
  induction cs with
  | nil => simp
  | cons c cs ih =>
    rw [encode_cons, List.append_assoc,
      decodeFrom_char (List.nil_append _).symm (encodeChar_ne_nil c), ih, Option.map_map]
    rfl

/-- **The round trip.** -/
theorem decode_encode (cs : List Char) : decode (encode cs) = some (cs, []) := by
  have := decodeFrom_encode cs []
  simpa [decode, decodeFrom] using this

theorem encode_of_decodeFrom {p bs : Bytes} {cs : List Char} {kept : Bytes}
    (h : decodeFrom p bs = some (cs, kept)) : p ++ bs = encode cs ++ kept := by
  induction bs generalizing p cs with
  | nil =>
    cases h
    simp
  | cons b bs ih =>
    rw [decodeFrom] at h
    cases hc : classify (p ++ [b]) with
    | char c =>
      rw [hc] at h
      simp only [Option.map_eq_some_iff, Prod.mk.injEq] at h
      obtain ⟨r, hr, rfl, rfl⟩ := h
      have hrest := @ih _ r.1 hr
      rw [List.nil_append] at hrest
      rw [encode_cons, List.append_assoc, ← hrest, ← eq_encodeChar_of_classify hc]
      simp
    | incomplete =>
      rw [hc] at h
      rw [← ih h]
      simp
    | invalid =>
      rw [hc] at h
      cases h

/-- What decodes is an encoding. -/
theorem encode_of_decode {bs : Bytes} {cs : List Char} (h : decode bs = some (cs, [])) :
    bs = encode cs := by
  have := encode_of_decodeFrom h
  rwa [List.nil_append, List.append_nil] at this

/-- The text of a byte string, all or nothing. -/
def decodeString (bs : Bytes) : Option String :=
  match decode bs with
  | some (cs, []) => some (String.ofList cs)
  | _ => none

theorem decodeString_encode (s : String) : decodeString (encode s.toList) = some s := by
  rw [decodeString, decode_encode]
  exact congrArg some String.ofList_toList

theorem encode_of_decodeString {bs : Bytes} {s : String} (h : decodeString bs = some s) :
    encode s.toList = bs := by
  unfold decodeString at h
  split at h
  · rename_i cs hdecode
    cases h
    rw [String.toList_ofList, encode_of_decode hdecode]
  · cases h

theorem encode_injective {cs ds : List Char} (h : encode cs = encode ds) : cs = ds := by
  have hcs := decode_encode cs
  rw [h, decode_encode] at hcs
  simpa using hcs.symm

theorem encode_intercalate (ws : List (List Char)) :
    encode ([' '].intercalate ws) = [32].intercalate (ws.map encode) := by
  induction ws with
  | nil => rfl
  | cons w ws ih =>
    cases ws with
    | nil => simp
    | cons v ws =>
      rw [List.intercalate_cons_cons, encode_append, encode_append, ih, List.map_cons,
        List.map_cons, List.map_cons, List.intercalate_cons_cons]
      rfl

/-- The beginning of a character decodes to nothing and is kept. -/
theorem decode_prefix {c : Char} {p q : Bytes} (h : String.utf8EncodeChar c = p ++ q)
    (hq : q ≠ []) : decode p = some ([], p) := by
  have := decodeFrom_prefix (p := []) (s := p) (by simpa using h) hq []
  simpa [decode, decodeFrom] using this

/-- A newline ends a character or an error: it is never kept as unfinished. -/
theorem decodeFrom_concat_newline (p bs : Bytes) {cs : List Char} {kept : Bytes}
    (h : decodeFrom p (bs ++ [10]) = some (cs, kept)) : cs ≠ [] := by
  induction bs generalizing p cs with
  | nil =>
    rw [List.nil_append, decodeFrom] at h
    cases hc : classify (p ++ [10]) with
    | char c => rw [hc] at h; simp [decodeFrom] at h; simp [← h.1]
    | incomplete => exact absurd hc (classify_concat_newline p)
    | invalid => rw [hc] at h; simp at h
  | cons b bs ih =>
    rw [List.cons_append, decodeFrom] at h
    cases hc : classify (p ++ [b]) with
    | char c =>
      rw [hc] at h
      simp only [Option.map_eq_some_iff, Prod.mk.injEq] at h
      obtain ⟨r, -, hr, -⟩ := h
      simp [← hr]
    | incomplete => rw [hc] at h; exact ih _ h
    | invalid => rw [hc] at h; simp at h

theorem decode_concat_newline (bs : Bytes) {cs : List Char} {kept : Bytes}
    (h : decode (bs ++ [10]) = some (cs, kept)) : cs ≠ [] :=
  decodeFrom_concat_newline [] bs h

/-! ## What a decoder may keep -/

/-- A decoder that has kept `p` goes on from `p`. -/
theorem decodeFrom_kept {q p r : Bytes} (h : decodeFrom q p = some ([], r)) (t : Bytes) :
    decodeFrom q (p ++ t) = decodeFrom r t := by
  induction p generalizing q with
  | nil =>
    cases h
    rfl
  | cons b p ih =>
    rw [decodeFrom] at h
    rw [List.cons_append, decodeFrom]
    cases hc : classify (q ++ [b]) with
    | char c => simp [hc] at h
    | incomplete =>
      rw [hc] at h
      exact ih h
    | invalid => simp [hc] at h

theorem decode_decodeFrom_kept {p bs kept : Bytes} {cs : List Char}
    (hp : decode p = some ([], p)) (h : decodeFrom p bs = some (cs, kept)) :
    decode kept = some ([], kept) := by
  induction bs generalizing p cs with
  | nil =>
    cases h
    exact hp
  | cons b bs ih =>
    rw [decodeFrom] at h
    cases hc : classify (p ++ [b]) with
    | char c =>
      rw [hc] at h
      simp only [Option.map_eq_some_iff, Prod.mk.injEq] at h
      obtain ⟨r, hr, -, rfl⟩ := h
      exact ih rfl hr
    | incomplete =>
      rw [hc] at h
      refine ih ?_ h
      rw [decode, decodeFrom_kept hp, decodeFrom, hc]
      rfl
    | invalid => simp [hc] at h

/-- What is kept decodes to nothing and is kept again. -/
theorem decode_kept {bs kept : Bytes} {cs : List Char} (h : decode bs = some (cs, kept)) :
    decode kept = some ([], kept) := decode_decodeFrom_kept rfl h

/-- Only a continuation octet goes on with a character. -/
theorem classify_concat_not_tail {p : Bytes} (hp : p ≠ []) {b : UInt8} (hb : ¬ Tail b.toNat) :
    classify (p ++ [b]) = .invalid := by
  match p with
  | [] => exact absurd rfl hp
  | [a] | [a, _] | [a, _, _] => simp [classify, classifyOctets, Second, hb]
  | _ :: _ :: _ :: _ :: _ => simp [classify, classifyOctets]

/-- An octet that begins a character is an error inside another. -/
theorem decode_concat_not_tail {p : Bytes} (hp : p ≠ []) (hkept : decode p = some ([], p))
    {b : UInt8} (hb : ¬ Tail b.toNat) : decode (p ++ [b]) = none := by
  rw [decode, decodeFrom_kept hkept, decodeFrom, classify_concat_not_tail hp hb]

end ByteLib.Utf8
