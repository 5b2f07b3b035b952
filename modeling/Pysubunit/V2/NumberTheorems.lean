/-
Pysubunit.V2.NumberTheorems — the variable-length numbers of the packet
format, written by `encodeNumber` and read by `parseVarint`.

A number is one to four octets. The top two bits of the first say how many,
the other bits are the value, most significant octet first. The writer merges
the tag by OR into words cut at 16+8 bits and the reader cuts the same octets
at 8+16 and 16+8 bits; `numberBytes` is the form both are compared with.
`number_codec` says what writer and reader do with all numbers and all octets.
-/
import Pysubunit.V2.Parser

namespace Pysubunit.V2

open ByteLib

/-- The octets of a number below 2^30. -/
def numberBytes (n : Nat) : Bytes :=
  if n < 64 then beBytes 1 n
  else if n < 16384 then beBytes 2 (n + 0x4000)
  else if n < 4194304 then beBytes 3 (n + 0x800000)
  else beBytes 4 (n + 0xC0000000)

/-- How many octets a number takes. -/
def numberWidth (n : Nat) : Nat :=
  if n < 64 then 1 else if n < 16384 then 2 else if n < 4194304 then 3 else 4

theorem length_numberBytes (n : Nat) : (numberBytes n).length = numberWidth n := by
  unfold numberBytes numberWidth
  split
  · exact length_beBytes _ _
  · split
    · exact length_beBytes _ _
    · split <;> exact length_beBytes _ _

theorem numberWidth_pos (n : Nat) : 1 ≤ numberWidth n := by
  unfold numberWidth
  split
  · omega
  · split
    · omega
    · split <;> omega

/-! ## Writing -/

theorem or_tag {n : Nat} (i a : Nat) (h : n < 2 ^ i) : n ||| (2 ^ i * a) = n + 2 ^ i * a := by
  rw [Nat.or_comm, ← Nat.two_pow_add_eq_or_of_lt h, Nat.add_comm]

/-- The pieces that the writer appends spell `numberBytes`. -/
theorem encodeNumber_ok {n : Nat} (h : n < 1073741824) :
    ∃ pieces, encodeNumber (n : Int) = .ok pieces ∧ pieces.flatten = numberBytes n := by
  have hneg : ¬ (n : Int) < 0 := by omega
  simp only [encodeNumber, if_neg hneg, Int.toNat_natCast]
  unfold numberBytes
  split
  · rename_i h1
    refine ⟨[beBytes 1 n], ?_, by simp⟩
    rw [structPack_ofNat (by omega)]
    rfl
  · split
    · rename_i h2
      rw [show n ||| 0x4000 = n + 0x4000 from or_tag 14 1 h2]
      refine ⟨[beBytes 2 (n + 0x4000)], ?_, by simp⟩
      rw [structPack_ofNat (by omega)]
      rfl
    · split
      · rename_i h3
        rw [show n ||| 0x800000 = n + 0x800000 from or_tag 23 1 (by omega)]
        have hhigh : (n + 0x800000) >>> 8 = (n + 0x800000) / 256 := Nat.shiftRight_eq_div_pow _ 8
        have hlow : (n + 0x800000) &&& 0xFF = (n + 0x800000) % 256 :=
          Nat.and_two_pow_sub_one_eq_mod _ 8
        rw [hhigh, hlow]
        refine ⟨[beBytes 2 ((n + 0x800000) / 256), beBytes 1 ((n + 0x800000) % 256)], ?_, ?_⟩
        · rw [structPack_ofNat (by omega), structPack_ofNat (by omega)]
          rfl
        · simp [beBytes]
      · rename_i h3
        rw [show n ||| 0xC0000000 = n + 0xC0000000 from or_tag 30 3 (by omega)]
        refine ⟨[beBytes 4 (n + 0xC0000000)], ?_, by simp⟩
        rw [structPack_ofNat (by omega)]
        rfl

/-- A number too large is refused. -/
theorem encodeNumber_error {n : Nat} (h : 1073741824 ≤ n) :
    ∃ m, encodeNumber (n : Int) = .error (.valueError m) := by
  have hneg : ¬ (n : Int) < 0 := by omega
  simp only [encodeNumber, if_neg hneg, Int.toNat_natCast]
  rw [if_neg (by omega), if_neg (by omega), if_neg (by omega), if_neg (by omega)]
  exact ⟨_, rfl⟩

/-! ## Reading -/

theorem and_C0 {x : Nat} (h : x < 256) : x &&& 0xC0 = x / 64 * 64 := by
  have := (by decide +kernel : ∀ i : Fin 256, i.val &&& 0xC0 = i.val / 64 * 64)
  exact this ⟨x, h⟩

theorem and_3F (x : Nat) : x &&& 0x3F = x % 64 := Nat.and_two_pow_sub_one_eq_mod _ 6

section Forms

variable {data rest : Bytes} {pos : Nat} {b0 b1 b2 b3 : UInt8} {max3Bytes : Bool}

theorem structUnpack_slice_one (hd : data.drop pos = b0 :: rest) :
    structUnpack 1 (slice data pos 1) = .ok b0.toNat := by
  have hs : slice data pos 1 = [b0] := @slice_of_drop _ [b0] _ _ hd
  rw [hs, @structUnpack_of_length 1 _ rfl, beNat_singleton]

/-- One octet. -/
theorem parseVarint_one (hd : data.drop pos = b0 :: rest) (h : b0.toNat < 64) :
    parseVarint data pos max3Bytes = .ok (b0.toNat, 1) := by
  unfold parseVarint
  rw [structUnpack_slice_one hd]
  show (if b0.toNat &&& 0xC0 = 0x00 then _ else _) = _
  rw [and_C0 b0.toNat_lt, if_pos (by omega), and_3F, Nat.mod_eq_of_lt h]
  rfl

/-- Two octets. -/
theorem parseVarint_two (hd : data.drop pos = b0 :: b1 :: rest)
    (h : 64 ≤ b0.toNat ∧ b0.toNat < 128) :
    parseVarint data pos max3Bytes = .ok ((b0.toNat - 64) * 256 + b1.toNat, 2) := by
  have hd1 : data.drop (pos + 1) = b1 :: rest := @drop_add_of_drop _ [b0] _ _ hd
  unfold parseVarint
  rw [structUnpack_slice_one hd]
  show (if b0.toNat &&& 0xC0 = 0x00 then _ else if b0.toNat &&& 0xC0 = 0x40 then _ else _) = _
  rw [and_C0 b0.toNat_lt, if_neg (by omega), if_pos (by omega), structUnpack_slice_one hd1, and_3F]
  show Except.ok (((b0.toNat % 64) <<< 8) ||| b1.toNat, 2) = _
  rw [← Nat.shiftLeft_add_eq_or_of_lt b1.toNat_lt, Nat.shiftLeft_eq,
    show b0.toNat % 64 = b0.toNat - 64 by omega]

theorem beNat_pair : beNat [b0, b1] = b0.toNat * 256 + b1.toNat := by simp [beNat]

theorem beNat_pair_lt (b0 b1 : UInt8) : beNat [b0, b1] < 2 ^ 16 := by
  have h0 := b0.toNat_lt
  have h1 := b1.toNat_lt
  rw [beNat_pair]
  omega

/-- Three octets. -/
theorem parseVarint_three (hd : data.drop pos = b0 :: b1 :: b2 :: rest)
    (h : 128 ≤ b0.toNat ∧ b0.toNat < 192) :
    parseVarint data pos max3Bytes
      = .ok ((b0.toNat - 128) * 65536 + (b1.toNat * 256 + b2.toNat), 3) := by
  have hd1 : data.drop (pos + 1) = [b1, b2] ++ rest := @drop_add_of_drop _ [b0] _ _ hd
  have hs : slice data (pos + 1) 2 = [b1, b2] := slice_of_drop hd1
  unfold parseVarint
  rw [structUnpack_slice_one hd, hs]
  show (if b0.toNat &&& 0xC0 = 0x00 then _ else if b0.toNat &&& 0xC0 = 0x40 then _
    else if b0.toNat &&& 0xC0 = 0x80 then _ else _) = _
  rw [and_C0 b0.toNat_lt, if_neg (by omega), if_neg (by omega), if_pos (by omega),
    @structUnpack_of_length 2 _ rfl, and_3F]
  show Except.ok (((b0.toNat % 64) <<< 16) ||| beNat [b1, b2], 3) = _
  rw [← Nat.shiftLeft_add_eq_or_of_lt (beNat_pair_lt b1 b2), Nat.shiftLeft_eq, beNat_pair,
    show b0.toNat % 64 = b0.toNat - 128 by omega]

/-- Four octets, where they are admitted. -/
theorem parseVarint_four (hd : data.drop pos = b0 :: b1 :: b2 :: b3 :: rest)
    (h : 192 ≤ b0.toNat) :
    parseVarint data pos false
      = .ok ((b0.toNat - 192) * 16777216 + ((b1.toNat * 256 + b2.toNat) * 256 + b3.toNat), 4) := by
  have hd1 : data.drop (pos + 1) = [b1, b2, b3] ++ rest := @drop_add_of_drop _ [b0] _ _ hd
  have hs : slice data (pos + 1) 3 = [b1, b2, b3] := slice_of_drop hd1
  have hlt := b0.toNat_lt
  unfold parseVarint
  rw [structUnpack_slice_one hd, hs]
  show (if b0.toNat &&& 0xC0 = 0x00 then _ else if b0.toNat &&& 0xC0 = 0x40 then _
    else if b0.toNat &&& 0xC0 = 0x80 then _ else _) = _
  rw [and_C0 hlt, if_neg (by omega), if_neg (by omega), if_neg (by omega), and_3F]
  show Except.ok ((((b0.toNat % 64) <<< 24) ||| (beNat [b1, b2] <<< 8)) ||| beNat [b3], 4) = _
  have h16 : beNat [b1, b2] <<< 8 < 2 ^ 24 := by
    have := beNat_pair_lt b1 b2
    rw [Nat.shiftLeft_eq]
    omega
  have hor : (b0.toNat % 64) <<< 24 ||| beNat [b1, b2] <<< 8 ||| beNat [b3]
      = (b0.toNat % 64) <<< 24 + (beNat [b1, b2] <<< 8 + beNat [b3]) := by
    rw [Nat.or_assoc, ← Nat.shiftLeft_add_eq_or_of_lt (beNat_lt [b3]) (beNat [b1, b2]),
      ← Nat.shiftLeft_add_eq_or_of_lt]
    have hb3 := beNat_lt [b3]
    have hb := beNat_pair_lt b1 b2
    rw [Nat.shiftLeft_eq]
    simp only [List.length_singleton] at hb3
    omega
  rw [hor, Nat.shiftLeft_eq, Nat.shiftLeft_eq, beNat_pair, beNat_singleton,
    show b0.toNat % 64 = b0.toNat - 192 by omega]

/-- A first octet of 0xC0 or more is refused where only three are admitted. -/
theorem parseVarint_max3Bytes (hd : data.drop pos = b0 :: rest) (h : 192 ≤ b0.toNat) :
    parseVarint data pos true
      = .error (.parseError "3 byte maximum given but 4 byte value found.") := by
  have hlt := b0.toNat_lt
  unfold parseVarint
  rw [structUnpack_slice_one hd]
  show (if b0.toNat &&& 0xC0 = 0x00 then _ else if b0.toNat &&& 0xC0 = 0x40 then _
    else if b0.toNat &&& 0xC0 = 0x80 then _ else _) = _
  rw [and_C0 hlt, if_neg (by omega), if_neg (by omega), if_neg (by omega)]
  rfl

/-- Octets that are not there. -/
theorem structUnpack_slice_short {width : Nat} (hd : data.drop pos = rest)
    (h : rest.length < width) :
    structUnpack width (slice data pos width) = .error .structError := by
  rw [structUnpack, if_neg]
  rw [slice, hd, List.length_take]
  omega

theorem parseVarint_empty (hd : data.drop pos = []) :
    parseVarint data pos max3Bytes = .error .structError := by
  unfold parseVarint
  rw [structUnpack_slice_short hd (by simp)]
  rfl

/-- A number that the data ends inside. -/
theorem parseVarint_short (hd : data.drop pos = b0 :: rest) (h : rest.length < b0.toNat / 64) :
    parseVarint data pos false = .error .structError := by
  have hlt := b0.toNat_lt
  have hd1 : data.drop (pos + 1) = rest := @drop_add_of_drop _ [b0] _ _ hd
  unfold parseVarint
  rw [structUnpack_slice_one hd]
  show (if b0.toNat &&& 0xC0 = 0x00 then _ else if b0.toNat &&& 0xC0 = 0x40 then _
    else if b0.toNat &&& 0xC0 = 0x80 then _ else _) = _
  rw [and_C0 hlt, if_neg (by omega)]
  split
  · rw [structUnpack_slice_short hd1 (by omega)]
    rfl
  · split
    · rw [structUnpack_slice_short hd1 (by omega)]
      rfl
    · have hlen : (slice data (pos + 1) 3).length ≠ 3 := by
        rw [slice, hd1, List.length_take]
        omega
      rw [structUnpackHB, if_neg hlen]
      rfl

end Forms

/-! ## The round trip -/

/-- The octets of a number are read back as that number, wherever they
stand; where at most three are admitted, if it takes no more. -/
theorem parseVarint_numberBytes {data rest : Bytes} {pos n : Nat} (max3Bytes : Bool)
    (hn : n < 1073741824) (hmax : max3Bytes = true → n < 4194304)
    (hd : data.drop pos = numberBytes n ++ rest) :
    parseVarint data pos max3Bytes = .ok (n, numberWidth n) := by
  unfold numberBytes at hd
  unfold numberWidth
  split at hd
  · rename_i h1
    rw [if_pos h1]
    have hd' : data.drop pos = UInt8.ofNat (n % 256) :: rest := hd
    rw [parseVarint_one hd' (by rw [toNat_ofNat_mod]; omega), toNat_ofNat_mod]
    congr 2
    omega
  · rename_i h1
    rw [if_neg h1]
    split at hd
    · rename_i h2
      rw [if_pos h2]
      have hd' : data.drop pos = UInt8.ofNat ((n + 0x4000) / 256 % 256)
          :: UInt8.ofNat ((n + 0x4000) % 256) :: rest := hd
      rw [parseVarint_two hd' (by rw [toNat_ofNat_mod]; omega), toNat_ofNat_mod, toNat_ofNat_mod]
      congr 2
      omega
    · rename_i h2
      rw [if_neg h2]
      split at hd
      · rename_i h3
        rw [if_pos h3]
        have hd' : data.drop pos = UInt8.ofNat ((n + 0x800000) / 256 / 256 % 256)
            :: UInt8.ofNat ((n + 0x800000) / 256 % 256)
            :: UInt8.ofNat ((n + 0x800000) % 256) :: rest := hd
        rw [parseVarint_three hd' (by rw [toNat_ofNat_mod]; omega), toNat_ofNat_mod,
          toNat_ofNat_mod, toNat_ofNat_mod]
        congr 2
        omega
      · rename_i h3
        rw [if_neg h3]
        have hm : max3Bytes = false := by
          cases max3Bytes with
          | false => rfl
          | true => exact absurd (hmax rfl) h3
        have hd' : data.drop pos = UInt8.ofNat ((n + 0xC0000000) / 256 / 256 / 256 % 256)
            :: UInt8.ofNat ((n + 0xC0000000) / 256 / 256 % 256)
            :: UInt8.ofNat ((n + 0xC0000000) / 256 % 256)
            :: UInt8.ofNat ((n + 0xC0000000) % 256) :: rest := hd
        rw [hm, parseVarint_four hd' (by rw [toNat_ofNat_mod]; omega), toNat_ofNat_mod,
          toNat_ofNat_mod, toNat_ofNat_mod, toNat_ofNat_mod]
        congr 2
        omega

/-- Four octets are refused where three are admitted. -/
theorem parseVarint_numberBytes_max3Bytes {data rest : Bytes} {pos n : Nat} (hn : n < 1073741824)
    (h22 : 4194304 ≤ n) (hd : data.drop pos = numberBytes n ++ rest) :
    parseVarint data pos true
      = .error (.parseError "3 byte maximum given but 4 byte value found.") := by
  rw [numberBytes, if_neg (by omega), if_neg (by omega), if_neg (by omega)] at hd
  have hd' : data.drop pos = UInt8.ofNat ((n + 0xC0000000) / 256 / 256 / 256 % 256)
      :: UInt8.ofNat ((n + 0xC0000000) / 256 / 256 % 256)
      :: UInt8.ofNat ((n + 0xC0000000) / 256 % 256)
      :: UInt8.ofNat ((n + 0xC0000000) % 256) :: rest := hd
  refine parseVarint_max3Bytes hd' ?_
  rw [toNat_ofNat_mod]
  omega

/-- `readNumber` reads the octets of a number. -/
theorem reads_number {Refused : Error → Prop} {n : Nat} (hn : n < 1073741824) :
    Reads Refused True readNumber (numberBytes n) n := by
  refine Reads.of_ok fun body pos rest hd => ?_
  unfold readNumber
  rw [parseVarint_numberBytes false hn (by simp) hd, length_numberBytes]
  rfl

/-! ## All numbers, all octets -/

/-- The least of the widths whose payload holds `n`: two bits are the tag. -/
def LeastWidth (n width : Nat) : Prop :=
  1 ≤ width ∧ width ≤ 4 ∧ n < 2 ^ (8 * width - 2)
    ∧ ∀ narrower, 1 ≤ narrower → narrower < width → 2 ^ (8 * narrower - 2) ≤ n

theorem leastWidth_numberWidth {n : Nat} (h : n < 1073741824) : LeastWidth n (numberWidth n) := by
  unfold LeastWidth numberWidth
  have hnarrower : ∀ width narrower : Nat, 1 ≤ narrower → narrower < width → width ≤ 4 →
      narrower = 1 ∨ (narrower = 2 ∧ 2 < width) ∨ (narrower = 3 ∧ 3 < width) := by omega
  split
  · exact ⟨by omega, by omega, by omega, by omega⟩
  · split
    · refine ⟨by omega, by omega, by omega, ?_⟩
      intro narrower hpos hlt
      have hone : narrower = 1 := by omega
      subst hone
      omega
    · split
      · refine ⟨by omega, by omega, by omega, ?_⟩
        intro narrower hpos hlt
        rcases hnarrower _ _ hpos hlt (by omega) with rfl | ⟨rfl, -⟩ | ⟨rfl, h3⟩ <;> omega
      · refine ⟨by omega, by omega, by omega, ?_⟩
        intro narrower hpos hlt
        rcases hnarrower _ _ hpos hlt (by omega) with rfl | ⟨rfl, -⟩ | ⟨rfl, -⟩ <;> omega

/-- A number fits in every width that is not less than its own. -/
theorem numberWidth_le {n width : Nat} (hpos : 1 ≤ width) (hwidth : width ≤ 4)
    (h : n < 2 ^ (8 * width - 2)) : numberWidth n ≤ width := by
  have hcases : width = 1 ∨ width = 2 ∨ width = 3 ∨ width = 4 := by omega
  unfold numberWidth
  rcases hcases with rfl | rfl | rfl | rfl <;> split_ifs <;> omega

theorem structUnpack_lt {width n : Nat} {b : Bytes} (h : structUnpack width b = .ok n) :
    n < 256 ^ width := by
  unfold structUnpack at h
  split at h
  · rename_i hlen
    cases h
    rw [← hlen]
    exact beNat_lt b
  · cases h

theorem shiftLeft_lt {n : Nat} (shift : Nat) (h : n < 2 ^ 6) : n <<< shift < 2 ^ (6 + shift) := by
  rw [Nat.shiftLeft_eq, Nat.pow_add]
  exact Nat.mul_lt_mul_of_pos_right h (Nat.two_pow_pos shift)

/-- What is read is below what its octets can hold. -/
theorem parseVarint_lt {data : Bytes} {pos n consumed : Nat} {max3Bytes : Bool}
    (h : parseVarint data pos max3Bytes = .ok (n, consumed)) :
    1 ≤ consumed ∧ consumed ≤ 4 ∧ n < 2 ^ (8 * consumed - 2) := by
  unfold parseVarint at h
  obtain ⟨data0, -, h⟩ := ok_of_bind h
  have hvalue0 : data0 &&& 0x3F < 2 ^ 6 := by
    rw [and_3F]
    omega
  dsimp only at h
  split at h
  · cases h
    exact ⟨by omega, by omega, hvalue0⟩
  · split at h
    · obtain ⟨data1, h1, h⟩ := ok_of_bind h
      cases h
      have hlow := structUnpack_lt h1
      exact ⟨by omega, by omega, Nat.or_lt_two_pow (shiftLeft_lt 8 hvalue0) (by omega)⟩
    · split at h
      · obtain ⟨data1, h1, h⟩ := ok_of_bind h
        cases h
        have hlow := structUnpack_lt h1
        exact ⟨by omega, by omega, Nat.or_lt_two_pow (shiftLeft_lt 16 hvalue0) (by omega)⟩
      · split at h
        · cases h
        · obtain ⟨⟨data1, data2⟩, h1, h⟩ := ok_of_bind h
          unfold structUnpackHB at h1
          split at h1
          · rename_i hlen
            cases h1
            cases h
            have hmiddle : beNat ((slice data (pos + 1) 3).take 2) < 2 ^ 16 := by
              have hlt := beNat_lt ((slice data (pos + 1) 3).take 2)
              rw [List.length_take, hlen] at hlt
              exact hlt
            have hlow : beNat ((slice data (pos + 1) 3).drop 2) < 2 ^ 8 := by
              have hlt := beNat_lt ((slice data (pos + 1) 3).drop 2)
              rw [List.length_drop, hlen] at hlt
              exact hlt
            have hshift : beNat ((slice data (pos + 1) 3).take 2) <<< 8 < 2 ^ 30 := by
              rw [Nat.shiftLeft_eq]
              omega
            refine ⟨by omega, by omega, ?_⟩
            exact Nat.or_lt_two_pow (Nat.or_lt_two_pow (shiftLeft_lt 24 hvalue0) hshift) (by omega)
          · cases h1

/-- The octets of a number are as few as can hold it, and are read back wherever they stand,
unless only three are admitted and it takes four. -/
theorem encodeNumber_codec {n : Nat} (hn : n < 2 ^ 30) :
    ∃ pieces, encodeNumber (n : Nat) = .ok pieces
      ∧ LeastWidth n pieces.flatten.length
      ∧ ∀ front behind : Bytes,
        parseVarint (front ++ pieces.flatten ++ behind) front.length false
          = .ok (n, pieces.flatten.length)
        ∧ (n < 2 ^ 22 → parseVarint (front ++ pieces.flatten ++ behind) front.length true
          = .ok (n, pieces.flatten.length))
        ∧ ((∃ message, parseVarint (front ++ pieces.flatten ++ behind) front.length true
          = .error (.parseError message)) ↔ 2 ^ 22 ≤ n) := by
  obtain ⟨pieces, hpieces, hflat⟩ := encodeNumber_ok hn
  have hlength : pieces.flatten.length = numberWidth n := by rw [hflat, length_numberBytes]
  refine ⟨pieces, hpieces, ?_⟩
  rw [hlength, hflat]
  refine ⟨leastWidth_numberWidth hn, ?_⟩
  intro front behind
  have hd : (front ++ numberBytes n ++ behind).drop front.length = numberBytes n ++ behind := by
    rw [List.append_assoc, List.drop_left]
  refine ⟨parseVarint_numberBytes false hn (by simp) hd,
    fun h22 => parseVarint_numberBytes true hn (fun _ => h22) hd, ?_, ?_⟩
  · intro h
    obtain ⟨message, herror⟩ := h
    by_contra h22
    rw [parseVarint_numberBytes true hn (fun _ => Nat.lt_of_not_le h22) hd] at herror
    cases herror
  · intro h22
    exact ⟨_, parseVarint_numberBytes_max3Bytes hn h22 hd⟩

/-- Any other integer is refused. -/
theorem encodeNumber_refuses {value : Int} (hvalue : ¬ (0 ≤ value ∧ value < 2 ^ 30)) :
    ∃ e, encodeNumber value = .error e := by
  by_cases hneg : value < 0
  · exact ⟨.assertionError, by rw [encodeNumber, if_pos hneg]⟩
  · obtain ⟨n, rfl⟩ := Int.eq_ofNat_of_zero_le (Int.not_lt.mp hneg)
    obtain ⟨message, hmessage⟩ := @encodeNumber_error n (by omega)
    exact ⟨_, hmessage⟩

/-- A number that is read is written in no more octets than it was read from. -/
theorem parseVarint_codec {data : Bytes} {pos n consumed : Nat} {max3Bytes : Bool}
    (h : parseVarint data pos max3Bytes = .ok (n, consumed)) :
    consumed ≤ 4 ∧ n < 2 ^ 30
      ∧ ∃ pieces, encodeNumber (n : Nat) = .ok pieces ∧ pieces.flatten.length ≤ consumed := by
  obtain ⟨hpos, hfour, hlt⟩ := parseVarint_lt h
  have hn : n < 2 ^ 30 := Nat.lt_of_lt_of_le hlt (Nat.pow_le_pow_right (by omega) (by omega))
  obtain ⟨pieces, hpieces, hflat⟩ := encodeNumber_ok hn
  refine ⟨hfour, hn, pieces, hpieces, ?_⟩
  rw [hflat, length_numberBytes]
  exact numberWidth_le hpos hfour hlt

/-- **Variable-length numbers.** The octets of a number below 2^30 are as few as can hold
it and are read back wherever they stand, unless only three are admitted and it takes
four; every other integer is refused. What is read is such a number, and is written in no
more octets than it was read from. -/
theorem number_codec :
    (∀ n < 2 ^ 30, ∃ pieces, encodeNumber (n : Nat) = .ok pieces
      ∧ LeastWidth n pieces.flatten.length
      ∧ ∀ front behind : Bytes,
        parseVarint (front ++ pieces.flatten ++ behind) front.length false
          = .ok (n, pieces.flatten.length)
        ∧ (n < 2 ^ 22 → parseVarint (front ++ pieces.flatten ++ behind) front.length true
          = .ok (n, pieces.flatten.length))
        ∧ ((∃ message, parseVarint (front ++ pieces.flatten ++ behind) front.length true
          = .error (.parseError message)) ↔ 2 ^ 22 ≤ n))
    ∧ (∀ value : Int, ¬ (0 ≤ value ∧ value < 2 ^ 30) →
      ∃ e, encodeNumber value = .error e ∧ ∀ packet, writeNumber value packet = (.error e, packet))
    ∧ ∀ (data : Bytes) (pos : Nat) (max3Bytes : Bool) (n consumed : Nat),
      parseVarint data pos max3Bytes = .ok (n, consumed) →
      consumed ≤ 4 ∧ n < 2 ^ 30
        ∧ ∃ pieces, encodeNumber (n : Nat) = .ok pieces ∧ pieces.flatten.length ≤ consumed := by
  refine ⟨fun n hn => encodeNumber_codec hn, ?_, ?_⟩
  · intro value hvalue
    obtain ⟨e, he⟩ := encodeNumber_refuses hvalue
    refine ⟨e, he, ?_⟩
    intro packet
    rw [writeNumber, he]
  · intro data pos max3Bytes n consumed h
    exact parseVarint_codec h

end Pysubunit.V2
