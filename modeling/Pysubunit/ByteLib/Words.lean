/-
ByteLib.Words — lines and words of byte strings and of texts.

Bytes know only ASCII whitespace, texts all of Unicode's. `lines` cuts a byte
string after every newline and keeps the newline, so the lines put together
are the byte string again (`lines_flatten`) and a whole line at the front is
the first line (`lines_append`). `splitFirst` takes the first word off a line
and the whitespace behind it; `splitFirst_word` says what it does to a word
that stands in column 0 (`FirstWord`), and `splitFirst_firstWord` is its converse.
`words` are the words of a text, found again when they are written one blank
apart (`words_intercalate`).
-/
import Mathlib.Data.List.DropRight
import Pysubunit.ByteLib.Utf8

namespace ByteLib

/-! ## Whitespace of bytes -/

/-- ASCII whitespace. -/
def isSpace (b : UInt8) : Bool := b == 32 || (9 ≤ b && b ≤ 13)

/-- No byte is whitespace. -/
def NoSpace (b : Bytes) : Prop := ∀ x ∈ b, isSpace x = false

instance (b : Bytes) : Decidable (NoSpace b) := List.decidableBAll _ _

/-- Some byte is not. -/
def NotBlank (b : Bytes) : Prop := ∃ x ∈ b, isSpace x = false

/-- `b.strip()` -/
def strip (b : Bytes) : Bytes := (b.dropWhile isSpace).rdropWhile isSpace

/-- `line.split(None, 1)` -/
def splitFirst (line : Bytes) : List Bytes :=
  let body := line.dropWhile isSpace
  let word := body.takeWhile fun b => !isSpace b
  let rest := (body.dropWhile fun b => !isSpace b).dropWhile isSpace
  if body.isEmpty then []
  else if rest.isEmpty then [word]
  else [word, rest]

/-- Bytes without whitespace at either end are left alone. -/
theorem strip_concat {b : Bytes} {eol : UInt8} (hb : NoSpace b)
    (heol : isSpace eol = true) : strip (b ++ [eol]) = b := by
  cases b with
  | nil => simp [strip, heol]
  | cons x b =>
    have hx : isSpace x = false := hb x (by simp)
    have hdrop : ((x :: b) ++ [eol]).dropWhile isSpace = (x :: b) ++ [eol] := by
      simp [hx]
    rw [strip, hdrop, List.rdropWhile_concat_pos _ _ _ heol, List.rdropWhile_eq_self_iff.mpr]
    intro hne hlast
    rw [hb _ (List.getLast_mem hne)] at hlast
    cases hlast

theorem strip_strip (b : Bytes) : strip (strip b) = strip b := by
  have hdrop : (strip b).dropWhile isSpace = strip b := by
    cases hstrip : strip b with
    | nil => rfl
    | cons x bs =>
      have hprefix : strip b <+: b.dropWhile isSpace := List.rdropWhile_prefix _ _
      obtain ⟨behind, hbehind⟩ := hprefix
      rw [hstrip, List.cons_append] at hbehind
      have hx : isSpace x = false := by
        have hhead := List.head_dropWhile_not isSpace (l := b) (by simp [← hbehind])
        simpa [← hbehind] using hhead
      simp [hx]
  rw [strip, hdrop]
  exact List.rdropWhile_idempotent _ _

/-- A word in column 0, one separator and more that is not blank. -/
theorem splitFirst_word {word rest : Bytes} {sep : UInt8} (hne : word ≠ [])
    (hword : NoSpace word) (hsep : isSpace sep = true) (hrest : NotBlank rest) :
    splitFirst (word ++ sep :: rest) = [word, rest.dropWhile isSpace] := by
  obtain ⟨w, ws, rfl⟩ := List.exists_cons_of_ne_nil hne
  have hw : isSpace w = false := hword w (by simp)
  have hbody : ((w :: ws) ++ sep :: rest).dropWhile isSpace = (w :: ws) ++ sep :: rest := by
    simp [hw]
  have htake : ((w :: ws) ++ sep :: rest).takeWhile (fun b => !isSpace b) = w :: ws := by
    rw [List.takeWhile_append_of_pos fun b hb => by simp [hword b hb]]
    simp [hsep]
  have hdrop : ((w :: ws) ++ sep :: rest).dropWhile (fun b => !isSpace b) = sep :: rest := by
    rw [List.dropWhile_append_of_pos fun b hb => by simp [hword b hb]]
    simp [hsep]
  have hrest' : (rest.dropWhile isSpace).isEmpty = false := by
    rw [List.isEmpty_eq_false_iff, ne_eq, List.dropWhile_eq_nil_iff]
    intro hall
    obtain ⟨b, hb, hfalse⟩ := hrest
    rw [hall b hb] at hfalse
    cases hfalse
  simp only [splitFirst]
  rw [hbody, htake, hdrop, List.dropWhile_cons, if_pos hsep, hrest']
  simp

theorem length_dropWhile_lt {α : Type} {p : α → Bool} {l : List α}
    (hhead : ∀ x ∈ l.head?, p x = true) (hne : l.dropWhile p ≠ []) :
    (l.dropWhile p).length < l.length := by
  cases l with
  | nil => simp at hne
  | cons x l =>
    have hx : p x = true := hhead x (by simp)
    simp only [List.dropWhile_cons, hx, if_true, List.length_cons]
    exact Nat.lt_succ_of_le (List.dropWhile_suffix p).length_le

/-- The first word, a separator and the rest all lie in the line. -/
theorem splitFirst_length {line word rest : Bytes} (h : splitFirst line = [word, rest]) :
    rest ≠ [] ∧ word.length + 1 + rest.length ≤ line.length := by
  simp only [splitFirst] at h
  split at h
  · cases h
  · split at h
    · cases h
    · rename_i hrest
      simp only [List.cons.injEq, and_true] at h
      obtain ⟨hword, hrest'⟩ := h
      rw [hrest', List.isEmpty_iff] at hrest
      have hbody := (List.dropWhile_suffix (l := line) isSpace).length_le
      have hsplit := congrArg List.length (List.takeWhile_append_dropWhile
        (p := fun b => !isSpace b) (l := line.dropWhile isSpace))
      rw [List.length_append, hword] at hsplit
      have hhead : ∀ x ∈ ((line.dropWhile isSpace).dropWhile fun b => !isSpace b).head?,
          isSpace x = true := by
        intro x hx
        have := List.head?_dropWhile_not (fun b => !isSpace b) (line.dropWhile isSpace)
        rw [Option.mem_def.mp hx] at this
        simpa using this
      have hlt := length_dropWhile_lt hhead (by rw [hrest']; exact hrest)
      rw [hrest'] at hlt
      exact ⟨hrest, by omega⟩

/-- What a line with a first word in column 0 and something behind it looks
like. -/
theorem splitFirst_eq_pair {line word rest : Bytes} (h : splitFirst line = [word, rest])
    (hcol : word <+: line) :
    ∃ sep tail, line = word ++ sep :: tail ∧ tail ≠ [] := by
  obtain ⟨hrest, hlen⟩ := splitFirst_length h
  obtain ⟨behind, rfl⟩ := hcol
  have hpos : 0 < rest.length := List.length_pos_iff.mpr hrest
  rw [List.length_append] at hlen
  match behind with
  | [] => simp only [List.length_nil] at hlen; omega
  | [_] => simp only [List.length_singleton] at hlen; omega
  | sep :: b :: tail => exact ⟨sep, b :: tail, rfl, by simp⟩

/-- The line is a word in column 0, one separator and more that is not blank. -/
structure FirstWord (line word : Bytes) (sep : UInt8) (rest : Bytes) : Prop where
  line_eq : line = word ++ sep :: rest
  nonempty : word ≠ []
  noSpace : NoSpace word
  separates : isSpace sep = true
  notBlank : NotBlank rest

/-- A first word and more are split off only in that way. -/
theorem splitFirst_firstWord {line word rest : Bytes} (h : splitFirst line = [word, rest])
    (hcol : word <+: line) : ∃ sep tail, FirstWord line word sep tail := by
  have hne := (splitFirst_length h).1
  simp only [splitFirst] at h
  split at h
  · cases h
  rename_i hbody
  split at h
  · cases h
  simp only [List.cons.injEq, and_true] at h
  obtain ⟨hword, hrest⟩ := h
  -- The word is not empty, so nothing stands before it.
  obtain ⟨b, body, hcons⟩ := List.exists_cons_of_ne_nil (mt List.isEmpty_iff.mpr hbody)
  have hb : isSpace b = false := by
    have := List.head?_dropWhile_not isSpace line
    rw [hcons] at this
    simpa using this
  obtain ⟨ws, hws⟩ : ∃ ws, word = b :: ws := by
    rw [← hword, hcons, List.takeWhile_cons, if_pos (by simp [hb])]
    exact ⟨_, rfl⟩
  have hline : line.dropWhile isSpace = line := by
    obtain ⟨behind, hbehind⟩ := hcol
    rw [← hbehind, hws, List.cons_append, List.dropWhile_cons, if_neg (by simp [hb])]
  rw [hline] at hword hrest
  have hsplit : line = word ++ line.dropWhile fun b => !isSpace b := by
    rw [← hword, List.takeWhile_append_dropWhile]
  have hnoSpace : NoSpace word := by
    intro x hx
    rw [← hword] at hx
    simpa using List.mem_takeWhile_imp hx
  cases hbehind : line.dropWhile fun b => !isSpace b with
  | nil =>
    rw [hbehind] at hrest
    exact absurd hrest.symm hne
  | cons sep tail =>
    have hsep : isSpace sep = true := by
      have := List.head?_dropWhile_not (fun b => !isSpace b) line
      rw [hbehind] at this
      simpa using this
    rw [hbehind, List.dropWhile_cons, if_pos hsep] at hrest
    refine ⟨sep, tail, by rw [← hbehind]; exact hsplit, by simp [hws], hnoSpace, hsep, ?_⟩
    rw [← hrest, ne_eq, List.dropWhile_eq_nil_iff] at hne
    simpa [NotBlank] using hne

/-- The first word of a line is one word. -/
theorem FirstWord.unique {line word word' rest rest' : Bytes} {sep sep' : UInt8}
    (h : FirstWord line word sep rest) (h' : FirstWord line word' sep' rest') :
    word = word' ∧ sep = sep' ∧ rest = rest' := by
  have hsplit := splitFirst_word h.nonempty h.noSpace h.separates h.notBlank
  have hsplit' := splitFirst_word h'.nonempty h'.noSpace h'.separates h'.notBlank
  have hline := h.line_eq
  rw [← h.line_eq] at hsplit
  rw [← h'.line_eq, hsplit] at hsplit'
  obtain ⟨rfl, -⟩ := List.cons.inj hsplit'
  rw [h'.line_eq, List.append_cancel_left_eq] at hline
  obtain ⟨rfl, rfl⟩ := List.cons.inj hline
  exact ⟨rfl, rfl, rfl⟩

/-! ## Lines -/

/-- The lines of a byte string, each with its newline. -/
def lines : Bytes → List Bytes
  | [] => []
  | b :: bs =>
    if b = 10 then [b] :: lines bs
    else
      match lines bs with
      | [] => [[b]]
      | line :: more => (b :: line) :: more

@[simp] theorem lines_nil : lines [] = [] := rfl

theorem lines_flatten (b : Bytes) : (lines b).flatten = b := by
  induction b with
  | nil => rfl
  | cons x b ih =>
    rw [lines]
    split
    · simp [ih]
    · split
      · rename_i h
        rw [h] at ih
        simp [← ih]
      · rename_i h
        rw [h] at ih
        simp [← ih]

theorem ne_nil_of_mem_lines {b line : Bytes} (h : line ∈ lines b) : line ≠ [] := by
  induction b generalizing line with
  | nil => simp at h
  | cons x b ih =>
    rw [lines] at h
    split at h
    · rcases List.mem_cons.mp h with rfl | h
      · simp
      · exact ih h
    · split at h
      · simp at h
        simp [h]
      · rename_i hl
        rcases List.mem_cons.mp h with rfl | h
        · simp
        · exact ih (by rw [hl]; exact List.mem_cons_of_mem _ h)

/-- A newline stands only at the end of a line. -/
theorem newline_not_mem_line {b line : Bytes} (h : line ∈ lines b) :
    10 ∉ dropLastBytes line 1 := by
  rw [dropLastBytes, ← List.dropLast_eq_take]
  induction b generalizing line with
  | nil => simp at h
  | cons x b ih =>
    rw [lines] at h
    split at h
    · rcases List.mem_cons.mp h with rfl | h
      · simp
      · exact ih h
    · rename_i hx
      split at h
      · rw [List.mem_singleton] at h
        rw [h]
        simp
      · rename_i first more hl
        rcases List.mem_cons.mp h with rfl | h
        · have hfirst := @ih first (by rw [hl]; exact List.mem_cons_self)
          have hne : first ≠ [] := ne_nil_of_mem_lines (b := b) (by rw [hl]; exact List.mem_cons_self)
          rw [List.dropLast_cons_of_ne_nil hne, List.mem_cons, not_or]
          exact ⟨fun h10 => hx h10.symm, hfirst⟩
        · exact ih (by rw [hl]; exact List.mem_cons_of_mem _ h)

/-- A whole line at the front. -/
theorem lines_line {line : Bytes} (h : 10 ∉ line) (rest : Bytes) :
    lines (line ++ 10 :: rest) = (line ++ [10]) :: lines rest := by
  induction line with
  | nil => simp [lines]
  | cons x line ih =>
    rw [List.mem_cons, not_or] at h
    rw [List.cons_append, lines, if_neg (Ne.symm h.1), ih h.2]
    rfl

/-- Nothing is left of the last line. -/
def Terminated (b : Bytes) : Prop := ∀ x ∈ b.getLast?, x = 10

theorem Terminated.append {a b : Bytes} (ha : Terminated a) (hb : Terminated b) :
    Terminated (a ++ b) := by
  intro x hx
  rw [List.getLast?_append] at hx
  cases hlast : b.getLast? with
  | none =>
    rw [hlast] at hx
    exact ha x hx
  | some y =>
    rw [hlast] at hx
    cases hx
    exact hb _ hlast

/-- Lines do not run over the end of a whole one. -/
theorem lines_append {a : Bytes} (h : Terminated a) (b : Bytes) :
    lines (a ++ b) = lines a ++ lines b := by
  induction a with
  | nil => simp
  | cons x a ih =>
    have ih' : a ≠ [] → lines (a ++ b) = lines a ++ lines b := by
      intro ha
      refine ih ?_
      intro y hy
      exact h y (by rw [List.getLast?_cons_of_ne_nil ha]; exact hy)
    cases a with
    | nil =>
      have hx : x = 10 := h x (by simp)
      subst hx
      simp [lines]
    | cons y a =>
      rw [List.cons_append, lines, lines, ih' (by simp)]
      split
      · rfl
      · cases hl : lines (y :: a) with
        | nil =>
          have := lines_flatten (y :: a)
          simp [hl] at this
        | cons l ls => rfl

/-! ## Words of a text -/

/-- Whitespace of a text, as `str.split` takes it. -/
def isSpaceChar (c : Char) : Bool :=
  let n := c.toNat
  (0x9 ≤ n && n ≤ 0xD) || (0x1C ≤ n && n ≤ 0x20) || n == 0x85 || n == 0xA0 || n == 0x1680
    || (0x2000 ≤ n && n ≤ 0x200A) || n == 0x2028 || n == 0x2029 || n == 0x202F || n == 0x205F
    || n == 0x3000

/-- `s.split()`, on characters. -/
def words (cs : List Char) : List (List Char) :=
  (cs.splitOnP isSpaceChar).filter fun w => !w.isEmpty

/-- A text that can stand between blanks. -/
def IsWord (w : List Char) : Prop := w ≠ [] ∧ ∀ c ∈ w, isSpaceChar c = false

instance (w : List Char) : Decidable (IsWord w) :=
  haveI : Decidable (∀ c ∈ w, isSpaceChar c = false) := List.decidableBAll _ _
  inferInstanceAs (Decidable (_ ∧ _))

/-- A text with a character that is no whitespace. -/
def HasWord (cs : List Char) : Prop := ∃ c ∈ cs, isSpaceChar c = false

instance (cs : List Char) : Decidable (HasWord cs) := List.decidableBEx _ _

theorem words_cons {w : List Char} (h : IsWord w) {sep : Char} (hsep : isSpaceChar sep = true)
    (cs : List Char) : words (w ++ sep :: cs) = w :: words cs := by
  have hw : w.splitOnP isSpaceChar = [w] := List.splitOnP_eq_singleton h.2
  rw [words, List.splitOnP_append_cons _ _ hsep, hw, List.singleton_append, List.filter_cons,
    if_pos (by simp [h.1]), words]

@[simp] theorem words_nil : words [] = [] := by
  simp [words]

/-- Whitespace only. -/
def Blank (cs : List Char) : Prop := ∀ c ∈ cs, isSpaceChar c = true

/-- A text that is empty or begins with whitespace. -/
def StandsOff (cs : List Char) : Prop := ∀ c ∈ cs.head?, isSpaceChar c = true

theorem StandsOff.append {a b : List Char} (ha : StandsOff a) (hb : StandsOff b) :
    StandsOff (a ++ b) := by
  cases a with
  | nil => exact hb
  | cons c a => exact ha

theorem StandsOff.of_append {a b : List Char} (h : StandsOff (a ++ b)) : StandsOff a := by
  cases a with
  | nil => simp [StandsOff]
  | cons c a => exact h

theorem Blank.standsOff {cs : List Char} (h : Blank cs) : StandsOff cs :=
  fun c hc => h c (List.mem_of_mem_head? hc)

/-- A text that stands off is cut there. -/
theorem words_append {a b : List Char} (h : StandsOff b) : words (a ++ b) = words a ++ words b := by
  cases b with
  | nil => simp
  | cons c b =>
    have hc : isSpaceChar c = true := h c rfl
    have hcut : ∀ a, words (a ++ c :: b) = words a ++ words b := by
      intro a
      rw [words, List.splitOnP_append_cons _ _ hc, List.filter_append]
      rfl
    have hfront := hcut []
    rw [List.nil_append, words_nil, List.nil_append] at hfront
    rw [hcut, hfront]

theorem words_of_isWord {w : List Char} (h : IsWord w) : words w = [w] := by
  have hw : w.splitOnP isSpaceChar = [w] := List.splitOnP_eq_singleton h.2
  rw [words, hw]
  simp [h.1]

/-- Whitespace in front is dropped. -/
theorem words_blank_append {gap : List Char} (h : Blank gap) (b : List Char) :
    words (gap ++ b) = words b := by
  induction gap with
  | nil => rfl
  | cons c gap ih =>
    rw [Blank, List.forall_mem_cons] at h
    rw [List.cons_append, words, List.splitOnP_cons_eq_if_modifyHead, if_pos h.1]
    exact ih h.2

/-- A piece between separators holds none, and nothing that is not there. -/
theorem mem_splitOnP {p : Char → Bool} {w cs : List Char} (h : w ∈ cs.splitOnP p) :
    ∀ c ∈ w, c ∈ cs ∧ p c = false := by
  induction cs generalizing w with
  | nil => simp_all
  | cons x cs ih =>
    intro c hc
    rw [List.splitOnP_cons_eq_if_modifyHead] at h
    split at h
    · rcases List.mem_cons.mp h with rfl | h
      · cases hc
      · exact ⟨List.mem_cons_of_mem x (ih h c hc).1, (ih h c hc).2⟩
    · rename_i hx
      cases hcs : cs.splitOnP p with
      | nil => exact absurd hcs (List.splitOnP_ne_nil _ _)
      | cons v vs =>
        rw [hcs, List.modifyHead_cons] at h
        rw [hcs] at ih
        rcases List.mem_cons.mp h with rfl | h
        · rcases List.mem_cons.mp hc with rfl | hc
          · exact ⟨List.mem_cons_self, by simpa using hx⟩
          · have hv := ih List.mem_cons_self c hc
            exact ⟨List.mem_cons_of_mem x hv.1, hv.2⟩
        · have hvs := ih (List.mem_cons_of_mem v h) c hc
          exact ⟨List.mem_cons_of_mem x hvs.1, hvs.2⟩

theorem mem_of_mem_words {w cs : List Char} (h : w ∈ words cs) : ∀ c ∈ w, c ∈ cs :=
  fun c hc => (mem_splitOnP (List.mem_filter.mp h).1 c hc).1

theorem isWord_of_mem_words {w cs : List Char} (h : w ∈ words cs) : IsWord w := by
  obtain ⟨hw, hne⟩ := List.mem_filter.mp h
  exact ⟨by simpa using hne, fun c hc => (mem_splitOnP hw c hc).2⟩

/-- The first word, with what stands around it. -/
theorem words_eq_cons {cs w : List Char} {ws : List (List Char)} (h : words cs = w :: ws) :
    ∃ gap tail, cs = gap ++ (w ++ tail) ∧ Blank gap ∧ StandsOff tail := by
  have hblank : Blank (cs.takeWhile isSpaceChar) := fun c hc => List.mem_takeWhile_imp hc
  have hcs : cs.takeWhile isSpaceChar ++ cs.dropWhile isSpaceChar = cs :=
    List.takeWhile_append_dropWhile
  have hstop : ∀ c ∈ (cs.dropWhile isSpaceChar).head?, isSpaceChar c = false := by
    intro c hc
    have hhead := List.head?_dropWhile_not isSpaceChar cs
    rw [Option.mem_def.mp hc] at hhead
    simpa using hhead
  generalize cs.takeWhile isSpaceChar = gap at hblank hcs
  generalize cs.dropWhile isSpaceChar = body at hcs hstop
  cases body with
  | nil =>
    rw [← hcs, words_blank_append hblank, words_nil] at h
    cases h
  | cons c body =>
    have hc : isSpaceChar c = false := hstop c rfl
    have hsplit : ((c :: body).takeWhile fun d => !isSpaceChar d)
        ++ ((c :: body).dropWhile fun d => !isSpaceChar d) = c :: body :=
      List.takeWhile_append_dropWhile
    have hword : IsWord ((c :: body).takeWhile fun d => !isSpaceChar d) :=
      ⟨by simp [hc], fun d hd => by simpa using List.mem_takeWhile_imp hd⟩
    have htail : StandsOff ((c :: body).dropWhile fun d => !isSpaceChar d) := by
      intro d hd
      have hhead := List.head?_dropWhile_not (fun d => !isSpaceChar d) (c :: body)
      rw [Option.mem_def.mp hd] at hhead
      simpa using hhead
    generalize ((c :: body).takeWhile fun d => !isSpaceChar d) = word at hsplit hword
    generalize ((c :: body).dropWhile fun d => !isSpaceChar d) = tail at hsplit htail
    rw [← hcs, words_blank_append hblank, ← hsplit, words_append htail, words_of_isWord hword] at h
    obtain ⟨rfl, -⟩ := List.cons.inj h
    exact ⟨gap, tail, by rw [hsplit, hcs], hblank, htail⟩

/-- Words written one blank apart, the line ended, are found again. -/
theorem words_intercalate {ws : List (List Char)} (h : ∀ w ∈ ws, IsWord w) {eol : Char}
    (heol : isSpaceChar eol = true) : words ([' '].intercalate ws ++ [eol]) = ws := by
  induction ws with
  | nil => simp [words, List.splitOnP_cons_eq_if_modifyHead, heol]
  | cons w ws ih =>
    have hw : IsWord w := h w (by simp)
    have ih' := ih fun v hv => h v (by simp [hv])
    cases ws with
    | nil =>
      have hnil : words [] = [] := by simp [words]
      rw [List.intercalate_singleton, words_cons hw heol, hnil]
    | cons v ws =>
      rw [List.intercalate_cons_cons, List.append_assoc, List.append_assoc,
        List.singleton_append, words_cons hw (by decide), ih']

theorem mem_intercalate {c : Char} {ws : List (List Char)} (h : c ∈ [' '].intercalate ws) :
    c = ' ' ∨ ∃ w ∈ ws, c ∈ w := by
  induction ws with
  | nil => simp at h
  | cons w ws ih =>
    cases ws with
    | nil =>
      rw [List.intercalate_singleton] at h
      exact .inr ⟨w, by simp, h⟩
    | cons v ws =>
      rw [List.intercalate_cons_cons, List.mem_append, List.mem_append, List.mem_singleton] at h
      rcases h with (h | h) | h
      · exact .inr ⟨w, by simp, h⟩
      · exact .inl h
      · rcases ih h with h | ⟨u, hu, h⟩
        · exact .inl h
        · exact .inr ⟨u, by simp [hu], h⟩

/-- A text without newline is written in one line. -/
theorem newline_not_mem_encode {cs : List Char} (h : '\n' ∉ cs) : 10 ∉ Utf8.encode cs := by
  intro hmem
  obtain ⟨c, hc, hval⟩ := Utf8.ascii_mem_encode (by decide) hmem
  have hcn : c = '\n' := Char.ext (UInt32.toNat_inj.mp hval)
  exact h (hcn ▸ hc)

theorem isSpace_lt {b : UInt8} (h : isSpace b = true) : b.toNat < 0x80 := by
  have hrange : b = 32 ∨ (9 ≤ b ∧ b ≤ 13) := by simpa [isSpace] using h
  rcases hrange with rfl | ⟨-, hle⟩
  · decide
  · have := UInt8.le_iff_toNat_le.mp hle
    exact Nat.lt_of_le_of_lt this (by decide)

/-- A character that is no whitespace has no whitespace among its bytes. -/
theorem isSpace_encodeChar {c : Char} (h : isSpaceChar c = false) {b : UInt8}
    (hb : b ∈ String.utf8EncodeChar c) : isSpace b = false := by
  by_contra hspace
  have hrange : b = 32 ∨ (9 ≤ b ∧ b ≤ 13) := by
    simpa [isSpace, or_iff_not_imp_left] using hspace
  have hlt : b.toNat < 0x80 := isSpace_lt (by simpa using hspace)
  have hval := Utf8.toNat_of_mem_encodeChar hlt hb
  have hchar : isSpaceChar c = true := by
    rw [isSpaceChar, hval]
    rcases hrange with rfl | ⟨hge, hle⟩
    · decide
    · have hge' := UInt8.le_iff_toNat_le.mp hge
      have hle' := UInt8.le_iff_toNat_le.mp hle
      have h9 : (9 : UInt8).toNat = 9 := rfl
      have h13 : (13 : UInt8).toNat = 13 := rfl
      rw [h9] at hge'
      rw [h13] at hle'
      simp [hge', hle']
  rw [h] at hchar
  cases hchar

theorem HasWord.notBlank {cs : List Char} (h : HasWord cs) : NotBlank (Utf8.encode cs) := by
  obtain ⟨c, hc, hspace⟩ := h
  obtain ⟨b, bs, hb⟩ := List.exists_cons_of_ne_nil (Utf8.encodeChar_ne_nil c)
  have hmem : b ∈ String.utf8EncodeChar c := by simp [hb]
  exact ⟨b, List.mem_flatMap.mpr ⟨c, hc, hmem⟩, isSpace_encodeChar hspace hmem⟩

/-! ## Some of the lines -/

/-- What has no newline goes into the line that follows. -/
theorem lines_unterminated {a : Bytes} (h : 10 ∉ a) {b : Bytes} (hb : b ≠ []) :
    ∃ line more, lines b = line :: more ∧ lines (a ++ b) = (a ++ line) :: more := by
  obtain ⟨line, more, hlines⟩ : ∃ line more, lines b = line :: more := by
    cases hl : lines b with
    | nil => exact absurd (by simpa [hl] using lines_flatten b) hb.symm
    | cons line more => exact ⟨line, more, rfl⟩
  refine ⟨line, more, hlines, ?_⟩
  induction a with
  | nil => exact hlines
  | cons x a ih =>
    rw [List.mem_cons, not_or] at h
    rw [List.cons_append, lines, if_neg (Ne.symm h.1), ih h.2]
    rfl

/-- One line that is not ended. -/
theorem lines_singleton {a : Bytes} (h : 10 ∉ a) (hne : a ≠ []) : lines a = [a] := by
  induction a with
  | nil => exact absurd rfl hne
  | cons x a ih =>
    rw [List.mem_cons, not_or] at h
    rw [lines, if_neg (Ne.symm h.1)]
    cases a with
    | nil => rfl
    | cons y a => rw [ih h.2 (by simp)]

/-- A line before others ends in a newline. -/
theorem lines_cons_eq {line : Bytes} {more : List Bytes}
    (h : lines (line :: more).flatten = line :: more) :
    lines more.flatten = more
      ∧ ((∃ a, 10 ∉ a ∧ line = a ++ [10]) ∨ 10 ∉ line ∧ line ≠ [] ∧ more = []) := by
  have hmem : line ∈ lines (line :: more).flatten := by
    rw [h]
    exact List.mem_cons_self
  have hne := ne_nil_of_mem_lines hmem
  have hnl := newline_not_mem_line hmem
  rw [dropLastBytes, ← List.dropLast_eq_take] at hnl
  by_cases hlast : line.getLast hne = 10
  · have hline : line = line.dropLast ++ [10] := by
      rw [← hlast, List.dropLast_append_getLast]
    refine ⟨?_, .inl ⟨_, hnl, hline⟩⟩
    rw [List.flatten_cons, hline, List.append_assoc, List.singleton_append, lines_line hnl] at h
    exact (List.cons.inj h).2
  · have hno : 10 ∉ line := by
      rw [← List.dropLast_append_getLast hne, List.mem_append, List.mem_singleton, not_or]
      exact ⟨hnl, Ne.symm hlast⟩
    have hmore : more.flatten = [] := by
      by_contra hrest
      obtain ⟨first, others, hfirst, hall⟩ := lines_unterminated hno hrest
      rw [List.flatten_cons, hall] at h
      have hnil : first = [] := by simpa using (List.cons.inj h).1
      exact ne_nil_of_mem_lines (b := more.flatten) (by simp [hfirst]) hnil
    rw [List.flatten_cons, hmore, List.append_nil, lines_singleton hno hne] at h
    have hnil : more = [] := (List.cons.inj h).2.symm
    exact ⟨by simp [hnil], .inr ⟨hno, hne, hnil⟩⟩

/-- **Lines that are put together again are the same lines**, also when some were left out. -/
theorem lines_flatten_sublist {kept all : List Bytes} (hsub : kept.Sublist all)
    (h : lines all.flatten = all) : lines kept.flatten = kept := by
  induction hsub with
  | slnil => rfl
  | cons line _ ih => exact ih (lines_cons_eq h).1
  | @cons_cons kept all line hsub ih =>
    obtain ⟨hall, ⟨a, ha, rfl⟩ | ⟨hno, hne, rfl⟩⟩ := lines_cons_eq h
    · rw [List.flatten_cons, List.append_assoc, List.singleton_append, lines_line ha, ih hall]
    · rw [List.eq_nil_of_sublist_nil hsub, List.flatten_singleton, lines_singleton hno hne]

end ByteLib
