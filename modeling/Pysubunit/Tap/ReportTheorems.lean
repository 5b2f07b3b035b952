/-
Pysubunit.Tap.ReportTheorems — a script as a producer of TAP writes it.

A producer numbers its results, or leaves that to the reader, describes each on its line,
adds a directive with a reason, and comments behind it; the plan comes first or last. The
patterns of the loop cut such a line up where it was put together (`first_line`): a
description ends where the blank in front of a `#` or of the newline begins. So a script
is converted to one event for each of its results and to nothing else
(`tap2SubUnit_reports`).
-/
import Pysubunit.Tap.DiagnosticTheorems
import Pysubunit.Tap.WriteTheorems

namespace Pysubunit.Tap

open ByteLib
open ByteLib.Pattern (literal either optional many many1 first_optional first_either first_literal
  first_many first_many1_stop first_bind_eq_none bind_eq_nil literal_eq_nil many1_eq_nil mem_bind
  mem_pure mem_literal mem_many mem_many1 some_mem_optional none_mem_optional)
open V2 (StatusEvent TestStatus PartialWrites OutputStream Polls DecodesTo byteByByte inMemory)

/-! ## Reports -/

/-- A result, and what a producer has to say about it. -/
structure Report where
  passed : Bool
  numbered : Bool := true
  description : List Char := []
  directive : Option (List Char × Option (List Char)) := none
  diagnostics : List (List Char) := []

def descriptionText (description : List Char) : List Char :=
  if description = [] then [] else ' ' :: description

def directiveText : Option (List Char × Option (List Char)) → List Char
  | none => []
  | some (word, reason) => ' ' :: '#' :: ' ' :: (word ++ (reason.map (' ' :: ·)).getD [])

namespace Report

variable (r : Report)

/-- The status of the result. -/
def status : TestStatus :=
  match r.directive with
  | none => if r.passed then .success else .fail
  | some (word, _) => if word.map Char.toUpper = "TODO".toList then .xfail else .skip

def word : List Char := if r.passed then "ok".toList else "not ok".toList

def numberText (number : Nat) : List Char :=
  if r.numbered then ' ' :: Nat.toDigits 10 number else []

/-- The line of the result with this number. -/
def line (number : Nat) : List Char :=
  r.word ++ (r.numberText number
    ++ (descriptionText r.description ++ (directiveText r.directive ++ ['\n'])))

def lines (number : Nat) : List (List Char) :=
  r.line number :: r.diagnostics.map fun text => '#' :: (text ++ ['\n'])

/-- What is said about the result: the reason of the directive and the comments. -/
def log : List (List Char) :=
  (r.directive.bind Prod.snd).toList ++ r.diagnostics.map ('#' :: ·)

/-- The event of the result. -/
def event (number : Nat) : StatusEvent :=
  testEvent (numberedName number (descriptionText r.description)) (some r.status) r.log

end Report

/-- A text that can stand in a line. -/
def OneLine (text : List Char) : Prop := '\n' ∉ text ∧ '\x00' ∉ text

/-- A directive that a producer writes, with a reason in its line or without. -/
def Stated (directive : Option (List Char × Option (List Char))) : Prop :=
  ∀ d ∈ directive, d.1 ∈ directives
    ∧ ∀ reason ∈ d.2, OneLine reason ∧ ∀ c ∈ reason.head?, isSpaceChar c = false

/-- No text is taken for what stands next to it in its line. -/
structure Report.WellFormed (r : Report) : Prop where
  description : OneLine r.description ∧ '#' ∉ r.description
  description_head : ∀ c ∈ r.description.head?,
    isSpaceChar c = false ∧ (r.numbered = false → isDecimal c = false)
  description_last : ∀ c ∈ r.description.getLast?, isSpaceChar c = false
  directive : Stated r.directive
  diagnostics : ∀ text ∈ r.diagnostics, OneLine text

/-- The results from a number on. -/
def reportLines : Nat → List Report → List (List Char)
  | _, [] => []
  | number, r :: reports => r.lines number ++ reportLines (number + 1) reports

def planLine (count : Nat) : List Char := "1..".toList ++ (Nat.toDigits 10 count ++ ['\n'])

/-- A script with the plan in front of the results or behind them. -/
def script (planFirst : Bool) (reports : List Report) : List (List Char) :=
  if planFirst then planLine reports.length :: reportLines 1 reports
  else reportLines 1 reports ++ [planLine reports.length]

/-- The events of the results from a number on. -/
def reported : Nat → List Report → List StatusEvent
  | _, [] => []
  | number, r :: reports => r.event number :: reported (number + 1) reports

/-! ## Numbers -/

theorem decimalValue_of_isDigit {c : Char} (h : c.isDigit = true) :
    decimalValue c = some (c.toNat - '0'.toNat) := by
  have hrange : 0x30 ≤ c.toNat ∧ c.toNat < 0x3A := by
    simp only [Char.isDigit, Bool.and_eq_true, decide_eq_true_eq] at h
    obtain ⟨hlow, hhigh⟩ := h
    have hlow' : (48 : Nat) ≤ c.val.toNat := hlow
    have hhigh' : c.val.toNat ≤ 57 := hhigh
    change 48 ≤ c.val.toNat ∧ c.val.toNat < 58
    omega
  obtain ⟨zeros, hzeros⟩ : ∃ zeros, decimalZeros = 0x30 :: zeros := ⟨_, rfl⟩
  rw [decimalValue, hzeros, List.find?_cons_of_pos (by simp [hrange.1, hrange.2])]
  rfl

theorem isDecimal_of_mem_toDigits {number : Nat} {c : Char} (h : c ∈ Nat.toDigits 10 number) :
    isDecimal c = true := by
  have hdigit := Nat.isDigit_of_mem_toDigits (by omega) (by omega) h
  rw [isDecimal, decimalValue_of_isDigit hdigit]
  rfl

theorem intOfDigits_toDigits (number : Nat) : intOfDigits (Nat.toDigits 10 number) = number := by
  have hfold : ∀ (digits : List Char) (n : Nat), (∀ c ∈ digits, c.isDigit = true) →
      digits.foldl (fun n c => n * 10 + (decimalValue c).getD 0) n
        = Nat.ofDigitChars 10 digits n := by
    intro digits n hall
    induction digits generalizing n with
    | nil => rfl
    | cons c digits ih =>
      rw [List.forall_mem_cons] at hall
      rw [List.foldl_cons, decimalValue_of_isDigit hall.1, ih _ hall.2, Nat.ofDigitChars_cons,
        Option.getD_some, Nat.mul_comm]
  rw [intOfDigits, hfold _ 0 fun c hc => Nat.isDigit_of_mem_toDigits (by omega) (by omega) hc,
    Nat.ofDigitChars_ten_toDigits]

/-! ## What ends a description -/

section Lines

variable {β : Type} {description : List Char} {directive : Option (List Char × Option (List Char))}

/-- The end of the pattern. -/
def afterDescription (g : Option (List Char × Option (List Char)) → β) : Pattern Char β :=
  directivePattern >>= fun directive => newline >>= fun _ => pure (g directive)

/-- And that behind a number. -/
def afterNumber (g : Option (List Char) → Option (List Char × Option (List Char)) → β) :
    Pattern Char β :=
  descriptionPattern >>= fun description => afterDescription (g description)

/-- Neither takes what does not stand off. -/
theorem afterDescription_eq_nil {g : Option (List Char × Option (List Char)) → β} {s : List Char}
    (h : ∀ c ∈ s.head?, isSpaceChar c = false) : afterDescription g s = [] := by
  refine List.eq_nil_iff_forall_not_mem.mpr fun way hway => ?_
  obtain ⟨b, rest⟩ := way
  simp only [afterDescription, mem_bind, mem_pure, newline, mem_literal] at hway
  obtain ⟨directive, s1, hdirective, -, s2, ⟨-, rfl⟩, -, rfl⟩ := hway
  obtain ⟨text, rfl, htext⟩ := mem_directivePattern hdirective
  have hoff : StandsOff (text ++ '\n' :: rest) :=
    htext.standsOff.append fun c hc => standsOff_newline c hc
  have hline : text ++ (['\n'] ++ rest) = text ++ '\n' :: rest := rfl
  rw [hline] at h
  cases hs : text ++ '\n' :: rest with
  | nil => simp at hs
  | cons c cs =>
    rw [hs] at hoff h
    have hspace := hoff c rfl
    rw [h c rfl] at hspace
    cases hspace

theorem afterNumber_eq_nil {g : Option (List Char) → Option (List Char × Option (List Char)) → β}
    {s : List Char} (h : ∀ c ∈ s.head?, isSpaceChar c = false) : afterNumber g s = [] := by
  refine List.eq_nil_iff_forall_not_mem.mpr fun way hway => ?_
  obtain ⟨b, rest⟩ := way
  rw [afterNumber, mem_bind] at hway
  obtain ⟨description, s1, hdescription, hrest⟩ := hway
  obtain ⟨front, rfl, hoff, -⟩ := mem_descriptionPattern hdescription
  cases front with
  | nil =>
    have hnil : afterDescription (g description) s1 = [] := afterDescription_eq_nil h
    rw [hnil] at hrest
    cases hrest
  | cons c front =>
    have hspace := hoff c rfl
    rw [h c rfl] at hspace
    cases hspace

/-- Behind the description comes whitespace, and then the `#` or nothing. -/
theorem behind_cases (directive : Option (List Char × Option (List Char))) :
    ∃ c behind, directiveText directive ++ ['\n'] = c :: behind ∧ isSpaceChar c = true
      ∧ (behind = [] ∨ behind.head? = some '#') := by
  cases directive with
  | none => exact ⟨'\n', [], rfl, by decide, .inl rfl⟩
  | some d => exact ⟨' ', _, rfl, by decide, .inr rfl⟩

/-- Where the `#` is not reached, whitespace or the `#` follows. -/
theorem head_behind {c more : List Char} (h : directiveText directive ++ ['\n'] = c ++ more)
    (hc : '#' ∉ c) : ∀ d ∈ more.head?, d = '#' ∨ isSpaceChar d = true := by
  obtain ⟨first, behind, hsplit, hspace, hbehind⟩ := behind_cases directive
  rw [hsplit] at h
  intro d hd
  cases c with
  | nil =>
    rw [List.nil_append] at h
    rw [← h] at hd
    cases hd
    exact .inr hspace
  | cons e c =>
    obtain ⟨-, hmore⟩ := List.cons.inj h
    cases c with
    | nil =>
      obtain rfl : behind = more := hmore
      rcases hbehind with hnil | hhash
      · rw [hnil] at hd
        cases hd
      · rw [hhash] at hd
        exact .inl (Option.some.inj hd).symm
    | cons e' c =>
      rw [hmore] at hbehind
      rcases hbehind with hnil | hhash
      · cases hnil
      · obtain rfl : e' = '#' := Option.some.inj hhash
        exact absurd (by simp) hc

/-- Behind whitespace no more of it follows. -/
theorem head_behind_blank {c more : List Char}
    (h : directiveText directive ++ ['\n'] = c ++ more) (hne : c ≠ [])
    (hc : ∀ d ∈ c, isSpaceChar d = true) : ∀ d ∈ more.head?, isSpaceChar d = false := by
  obtain ⟨first, behind, hsplit, -, hbehind⟩ := behind_cases directive
  rw [hsplit] at h
  intro d hd
  cases c with
  | nil => exact absurd rfl hne
  | cons e c =>
    obtain ⟨-, hmore⟩ := List.cons.inj h
    cases c with
    | nil =>
      obtain rfl : behind = more := hmore
      rcases hbehind with hnil | hhash
      · rw [hnil] at hd
        cases hd
      · rw [hhash] at hd
        obtain rfl := Option.some.inj hd
        decide
    | cons e' c =>
      rw [hmore] at hbehind
      rcases hbehind with hnil | hhash
      · cases hnil
      · obtain rfl : e' = '#' := Option.some.inj hhash
        exact absurd (hc '#' (by simp)) (by decide)

/-! ## How a line is cut up -/

/-- The word of a directive. -/
theorem first_directiveWord {word : List Char} (hword : word ∈ directives)
    (f : List Char → Pattern Char β) (rest : List Char) :
    (directiveWord >>= f).first (word ++ rest) = (f word).first rest := by
  have hcases : word = "TODO".toList ∨ word = "SKIP".toList ∨ word = "skip".toList
      ∨ word = "todo".toList := by simpa [directives] using hword
  have hnone : ∀ (other : List Char), ¬ other <+: word ++ rest →
      (literal other >>= f).first (word ++ rest) = none :=
    fun other h => first_bind_eq_none (literal_eq_nil h) f
  simp only [directiveWord, first_either]
  rcases hcases with rfl | rfl | rfl | rfl
  · rw [first_literal, hnone "SKIP".toList (by simp), hnone "skip".toList (by simp),
      hnone "todo".toList (by simp)]
    simp
  · rw [first_literal, hnone "TODO".toList (by simp), hnone "skip".toList (by simp),
      hnone "todo".toList (by simp)]
    simp
  · rw [first_literal, hnone "TODO".toList (by simp), hnone "SKIP".toList (by simp),
      hnone "todo".toList (by simp)]
    simp
  · rw [first_literal, hnone "TODO".toList (by simp), hnone "SKIP".toList (by simp),
      hnone "skip".toList (by simp)]
    simp

/-- The reason, without the blank in front of it. -/
theorem first_reason {reason : Option (List Char)}
    (h : ∀ text ∈ reason, OneLine text ∧ ∀ c ∈ text.head?, isSpaceChar c = false)
    (f : Option (List Char) → β) :
    (directiveComment >>= fun comment => newline >>= fun _ => pure (f comment)).first
        ((reason.map (' ' :: ·)).getD [] ++ ['\n'])
      = some (f reason) := by
  cases reason with
  | none => rfl
  | some reason =>
    obtain ⟨⟨hnl, -⟩, hhead⟩ := h reason rfl
    have hoff : StandsOff (' ' :: reason) := by
      rintro c ⟨⟩
      decide
    have hdrop : (' ' :: reason).dropWhile isSpaceChar = reason := by
      rw [List.dropWhile_cons_of_pos (by decide)]
      cases reason with
      | nil => rfl
      | cons c reason => rw [List.dropWhile_cons_of_neg (by simp [hhead c rfl])]
    have hfirst := first_directiveComment (List.cons_ne_nil ' ' reason) hoff (by simp [hnl]) f
    rwa [hdrop] at hfirst

theorem isSpaceChar_blank : ∀ c ∈ [' '], isSpaceChar c = true :=
  List.forall_mem_singleton.mpr (by decide)

/-- **The directive** and the newline. -/
theorem first_afterDescription (h : Stated directive)
    (g : Option (List Char × Option (List Char)) → β) :
    (afterDescription g).first (directiveText directive ++ ['\n']) = some (g directive) := by
  rw [afterDescription, directivePattern, first_optional]
  simp only [bind_assoc, pure_bind]
  cases directive with
  | none =>
    -- the newline is whitespace, but no `#` follows
    rw [Option.or_eq_some_iff]
    exact .inr ⟨rfl, rfl⟩
  | some d =>
    obtain ⟨word, reason⟩ := d
    obtain ⟨hword, hreason⟩ := h (word, reason) rfl
    refine Option.or_eq_some_iff.mpr (.inl ?_)
    have hspelling := first_directiveWord hword (fun word => directiveComment >>= fun comment =>
      newline >>= fun _ => pure (g (some (word, comment))))
      ((reason.map (' ' :: ·)).getD [] ++ ['\n'])
    rw [first_reason hreason fun comment => g (some (word, comment))] at hspelling
    have htext : directiveText (some (word, reason)) ++ ['\n']
        = [' '] ++ (['#'] ++ ([' '] ++ (word ++ ((reason.map (' ' :: ·)).getD [] ++ ['\n'])))) := by
      simp [directiveText]
    rw [htext]
    refine first_many1_stop isSpaceChar_blank (List.cons_ne_nil _ _) ?_ ?_
    · rw [first_literal]
      refine first_many1_stop isSpaceChar_blank (List.cons_ne_nil _ _) hspelling fun c hc => ?_
      obtain ⟨hne, hall⟩ := isWord_of_mem_directives hword
      rw [List.head?_append_of_ne_nil _ hne] at hc
      exact hall c (List.mem_of_mem_head? hc)
    · rintro c ⟨⟩
      decide

/-- Without a description nothing is taken for one. -/
theorem first_noDescription (h : Stated directive)
    (g : Option (List Char) → Option (List Char × Option (List Char)) → β) :
    (afterNumber g).first (directiveText directive ++ ['\n']) = some (g none directive) := by
  rw [afterNumber, descriptionPattern, first_optional]
  simp only [bind_assoc, pure_bind]
  refine Option.or_eq_some_iff.mpr (.inr ⟨?_, first_afterDescription h _⟩)
  -- a description would end in a word, but there is none in front of the `#`
  by_contra hsome
  obtain ⟨b, hb⟩ := Option.ne_none_iff_exists'.mp hsome
  obtain ⟨rest, hmem⟩ := Pattern.mem_of_first hb
  simp only [mem_bind, mem_many1, mem_many] at hmem
  obtain ⟨gap, s1, ⟨hsplit, hgap, -⟩, start, s2, ⟨rfl, hstart⟩, stop, s3, ⟨rfl, hstop, hne⟩,
    -⟩ := hmem
  obtain ⟨d, stop, rfl⟩ := List.exists_cons_of_ne_nil hne
  have hfront : '#' ∉ gap ++ start := by
    rw [List.mem_append, not_or]
    exact ⟨hash_not_mem_blank hgap, fun hmem => by simpa using hstart '#' hmem⟩
  have hd := hstop d List.mem_cons_self
  rw [← List.append_assoc] at hsplit
  rcases head_behind hsplit hfront d rfl with rfl | hspace
  · simp at hd
  · simp [hspace] at hd

/-- The last word of a description, with what is behind it. -/
theorem first_lastWord (h : Stated directive) (start : List Char) {last : Char}
    (hlast : isSpaceChar last = false) (hhash : last ≠ '#')
    (g : Option (List Char) → Option (List Char × Option (List Char)) → β) :
    (many1 (fun c => c != '#' && !isSpaceChar c) >>= fun stop =>
        many isSpaceChar >>= fun _ => afterDescription (g (some (start ++ stop)))).first
        ([last] ++ (directiveText directive ++ ['\n']))
      = some (g (some (start ++ [last])) directive) := by
  obtain ⟨first, behind, hbehind, hspace, -⟩ := behind_cases directive
  -- the whitespace in front of the directive is left to it
  have hblank : (many isSpaceChar >>= fun _ =>
        afterDescription (g (some (start ++ [last])))).first (directiveText directive ++ ['\n'])
      = some (g (some (start ++ [last])) directive) := by
    refine first_many (a := []) (by simp) (first_afterDescription h _) ?_
    intro c more hsplit hne hall
    exact afterDescription_eq_nil (head_behind_blank hsplit hne hall)
  refine first_many1_stop (by simp [hlast, hhash]) (List.cons_ne_nil _ _) hblank ?_
  rw [hbehind]
  rintro c ⟨⟩
  simp [hspace]

/-- **The description**, and what is behind it. -/
theorem first_description (h : Stated directive) (hnil : description ≠ [])
    (hhash : '#' ∉ description) (hhead : ∀ c ∈ description.head?, isSpaceChar c = false)
    (hlast : ∀ c ∈ description.getLast?, isSpaceChar c = false)
    (g : Option (List Char) → Option (List Char × Option (List Char)) → β) :
    (afterNumber g).first (' ' :: description ++ (directiveText directive ++ ['\n']))
      = some (g (some description) directive) := by
  rw [afterNumber, descriptionPattern, first_optional]
  simp only [bind_assoc, pure_bind]
  refine Option.or_eq_some_iff.mpr (.inl ?_)
  obtain ⟨start, last, rfl⟩ : ∃ start last, description = start ++ [last] :=
    ⟨description.dropLast, description.getLast hnil, (List.dropLast_append_getLast hnil).symm⟩
  rw [List.mem_append, not_or, List.mem_singleton] at hhash
  have hstop := first_lastWord h start (hlast last (by simp)) (Ne.symm hhash.2) g
  have hstart : (many (fun c => c != '#') >>= fun start =>
        many1 (fun c => c != '#' && !isSpaceChar c) >>= fun stop => many isSpaceChar >>= fun _ =>
          afterDescription (g (some (start ++ stop)))).first
        (start ++ ([last] ++ (directiveText directive ++ ['\n'])))
      = some (g (some (start ++ [last])) directive) := by
    refine first_many (fun c hc => ?_) hstop ?_
    · have hne : c ≠ '#' := fun heq => hhash.1 (heq ▸ hc)
      simpa using hne
    · -- past the last word there is no other
      intro c more hsplit hne hall
      obtain ⟨d, c, rfl⟩ := List.exists_cons_of_ne_nil hne
      obtain ⟨rfl, hrest⟩ := List.cons.inj hsplit
      have hbehind : directiveText directive ++ ['\n'] = c ++ more := hrest
      have hfront : '#' ∉ c := fun hmem => by
        simpa using hall '#' (List.mem_cons_of_mem _ hmem)
      refine bind_eq_nil (many1_eq_nil fun d hd => ?_) _
      rcases head_behind hbehind hfront d hd with rfl | hspace
      · rfl
      · simp [hspace]
  have hassoc : ' ' :: (start ++ [last]) ++ (directiveText directive ++ ['\n'])
      = [' '] ++ (start ++ ([last] ++ (directiveText directive ++ ['\n']))) := by simp
  rw [hassoc]
  refine first_many1_stop isSpaceChar_blank (List.cons_ne_nil _ _) hstart fun c hc => hhead c ?_
  rwa [← List.append_assoc, List.head?_append_of_ne_nil _ hnil] at hc

theorem first_afterNumber (h : Stated directive) (hhash : '#' ∉ description)
    (hhead : ∀ c ∈ description.head?, isSpaceChar c = false)
    (hlast : ∀ c ∈ description.getLast?, isSpaceChar c = false)
    (g : Option (List Char) → Option (List Char × Option (List Char)) → β) :
    (afterNumber g).first (descriptionText description ++ (directiveText directive ++ ['\n']))
      = some (g (if description = [] then none else some description) directive) := by
  unfold descriptionText
  split
  · exact first_noDescription h g
  · exact first_description h ‹_› hhash hhead hlast g

section Numbers

variable {behind : List Char} {c : Char} {b : β}
  {g : Option (List Char) → Option (List Char) → Option (List Char × Option (List Char)) → β}

/-- A number that is given. -/
theorem first_given (number : Nat) (hc : isSpaceChar c = true)
    (h : (afterNumber (g (some (Nat.toDigits 10 number)))).first (c :: behind) = some b) :
    (numberPattern >>= fun number => afterNumber (g number)).first
        ((' ' :: Nat.toDigits 10 number) ++ c :: behind)
      = some b := by
  simp only [numberPattern, bind_assoc, pure_bind, first_optional]
  have hdigits : ∀ d ∈ Nat.toDigits 10 number, isDecimal d = true := fun d hd =>
    isDecimal_of_mem_toDigits hd
  have hspace : isDecimal c = false := Bool.eq_false_iff.mpr fun hdecimal => by
    rw [isSpaceChar_of_isDecimal hdecimal] at hc
    cases hc
  have hnumber : (many1 isDecimal >>= fun digits =>
        afterNumber (g (Option.join (some (some digits))))).first
        (Nat.toDigits 10 number ++ c :: behind) = some b := by
    refine first_many1_stop hdigits Nat.toDigits_ne_nil h ?_
    rintro d ⟨⟩
    exact hspace
  have hgap : (' ' :: Nat.toDigits 10 number) ++ c :: behind
      = [' '] ++ (Nat.toDigits 10 number ++ c :: behind) := rfl
  rw [hgap]
  refine Option.or_eq_some_iff.mpr (.inl ?_)
  refine first_many1_stop isSpaceChar_blank (List.cons_ne_nil _ _) ?_ fun d hd => ?_
  · rw [first_optional, hnumber, Option.some_or]
  · rw [List.head?_append_of_ne_nil _ Nat.toDigits_ne_nil] at hd
    exact isSpaceChar_of_isDecimal (hdigits d (List.mem_of_mem_head? hd))

/-- A number that is not. -/
theorem first_notGiven (hbehind : ∀ d ∈ behind.head?, isSpaceChar d = false ∧ isDecimal d = false)
    (h : (afterNumber (g none)).first (c :: behind) = some b) :
    (numberPattern >>= fun number => afterNumber (g number)).first (c :: behind) = some b := by
  simp only [numberPattern, bind_assoc, pure_bind, first_optional]
  -- the whitespace is not the gap in front of a number: what follows does not stand off
  refine Option.or_eq_some_iff.mpr (.inr ⟨?_, h⟩)
  by_contra hsome
  obtain ⟨b', hb'⟩ := Option.ne_none_iff_exists'.mp hsome
  obtain ⟨rest, hmem⟩ := Pattern.mem_of_first hb'
  rw [mem_bind] at hmem
  obtain ⟨gap, s1, hgap, hmem⟩ := hmem
  obtain ⟨hsplit, hblank, hne⟩ := mem_many1.mp hgap
  obtain ⟨e, gap, rfl⟩ := List.exists_cons_of_ne_nil hne
  obtain ⟨rfl, hrest⟩ := List.cons.inj hsplit
  have hs1 : ∀ d ∈ s1.head?, isSpaceChar d = false ∧ isDecimal d = false := by
    cases gap with
    | nil =>
      obtain rfl : behind = s1 := hrest
      exact hbehind
    | cons d gap =>
      have hd := (hbehind d (by rw [hrest]; rfl)).1
      rw [hblank d (by simp)] at hd
      cases hd
  rw [mem_bind] at hmem
  obtain ⟨digits, s2, hnumber, hmem⟩ := hmem
  cases digits with
  | none =>
    obtain rfl := none_mem_optional.mp hnumber
    rw [afterNumber_eq_nil fun d hd => (hs1 d hd).1] at hmem
    cases hmem
  | some digits =>
    have hdigits := some_mem_optional.mp hnumber
    rw [many1_eq_nil fun d hd => (hs1 d hd).2] at hdigits
    cases hdigits

/-- **The number**, if the line gives one. -/
theorem first_number (numbered : Bool) (number : Nat) (hc : isSpaceChar c = true)
    (hbehind : numbered = false →
      ∀ d ∈ behind.head?, isSpaceChar d = false ∧ isDecimal d = false)
    (h : (afterNumber (g (if numbered then some (Nat.toDigits 10 number) else none))).first
      (c :: behind) = some b) :
    (numberPattern >>= fun number => afterNumber (g number)).first
        ((if numbered then ' ' :: Nat.toDigits 10 number else []) ++ c :: behind)
      = some b := by
  cases numbered with
  | true => exact first_given number hc h
  | false => exact first_notGiven (hbehind rfl) h

end Numbers

end Lines

/-- The groups of a producer's line. -/
def Report.groups (r : Report) (number : Nat) : ResultLine where
  status := r.word
  number := if r.numbered then some (Nat.toDigits 10 number) else none
  description := if r.description = [] then none else some r.description
  directive := r.directive.map Prod.fst
  directiveComment := r.directive.bind Prod.snd

/-- **A line is cut up where it was put together.** -/
theorem first_line {r : Report} (h : r.WellFormed) (number : Nat) :
    resultPattern.first (r.line number) = some (r.groups number) := by
  obtain ⟨c, behind, hsplit, hc, hunnumbered⟩ : ∃ c behind,
      descriptionText r.description ++ (directiveText r.directive ++ ['\n']) = c :: behind
      ∧ isSpaceChar c = true
      ∧ (r.numbered = false → ∀ d ∈ behind.head?, isSpaceChar d = false ∧ isDecimal d = false) := by
    obtain ⟨c, behind, hbehind, hc, hend⟩ := behind_cases r.directive
    by_cases hnil : r.description = []
    · refine ⟨c, behind, by rw [descriptionText, if_pos hnil, hbehind]; rfl, hc, ?_⟩
      intro _ d hd
      rcases hend with rfl | hhash
      · cases hd
      · rw [hhash] at hd
        cases hd
        decide
    · refine ⟨' ', r.description ++ (directiveText r.directive ++ ['\n']),
        by rw [descriptionText, if_neg hnil]; rfl, by decide, ?_⟩
      intro hnumbered d hd
      rw [List.head?_append_of_ne_nil _ hnil] at hd
      exact ⟨(h.description_head d hd).1, (h.description_head d hd).2 hnumbered⟩
  let cut : List Char → Option (List Char) → Option (List Char) →
      Option (List Char × Option (List Char)) → ResultLine :=
    fun status number description directive => {
      status, number, description
      directive := directive.map Prod.fst
      directiveComment := directive.bind Prod.snd }
  have hrest : (afterNumber (cut r.word
      (if r.numbered then some (Nat.toDigits 10 number) else none))).first (c :: behind)
      = some (r.groups number) := by
    rw [← hsplit, first_afterNumber h.directive h.description.2
      (fun d hd => (h.description_head d hd).1) h.description_last]
    rfl
  have hnumber := first_number r.numbered number hc hunnumbered hrest
  rw [← hsplit] at hnumber
  have hpattern : resultPattern = statusPattern >>= fun status =>
      numberPattern >>= fun number => afterNumber (cut status number) := rfl
  rw [hpattern, statusPattern, first_either]
  cases hpassed : r.passed with
  | true =>
    have hword : r.word = "ok".toList := by rw [Report.word, if_pos hpassed]
    rw [Report.line, hword, first_literal, ← hword, Report.numberText, hnumber, Option.some_or]
  | false =>
    have hword : r.word = "not ok".toList := by simp [Report.word, hpassed]
    have hok : ¬ "ok".toList <+: "not ok".toList ++ (r.numberText number
        ++ (descriptionText r.description ++ (directiveText r.directive ++ ['\n']))) := by simp
    rw [Report.line, hword, first_bind_eq_none (literal_eq_nil hok), Option.none_or,
      first_literal, ← hword, Report.numberText, hnumber]

/-! ## A script -/

theorem Report.testStatus_groups {r : Report} (h : r.WellFormed) (number : Nat) :
    (r.groups number).testStatus = r.status := by
  unfold ResultLine.testStatus Report.groups Report.status
  cases hdirective : r.directive with
  | none =>
    cases hpassed : r.passed <;> simp [Report.word, hpassed]
  | some d =>
    obtain ⟨word, reason⟩ := d
    have hupper := (directiveStatus_spelling (h.directive _ hdirective).1 []).2
    simp only [Option.map_some]
    by_cases htodo : word.map Char.toUpper = "TODO".toList
    · rw [if_pos htodo, if_pos htodo]
    · rw [if_neg htodo, if_neg htodo, if_pos (hupper.resolve_left htodo)]

theorem Report.suffix_groups (r : Report) (number : Nat) :
    (r.groups number).suffix = descriptionText r.description := by
  unfold ResultLine.suffix Report.groups descriptionText
  by_cases hnil : r.description = []
  · simp [hnil]
  · simp [hnil]

theorem Report.logged_groups (r : Report) (number : Nat) :
    (r.groups number).logged = (r.directive.bind Prod.snd).toList := by
  unfold ResultLine.logged Report.groups
  cases r.directive <;> rfl

theorem Report.givenNumber_groups (r : Report) (number : Nat) :
    (r.groups number).givenNumber = if r.numbered then number else 0 := by
  unfold ResultLine.givenNumber Report.groups
  split <;> simp [intOfDigits_toDigits]

theorem readLine_result {state : Stage} {line : List Char} {groups : ResultLine}
    (h : resultPattern.first line = some groups) : readLine state line = .result groups := by
  have hresult := readLine_resultLine state line
  rw [h] at hresult
  cases hread : readLine state line with
  | result groups' =>
    rw [hread] at hresult
    exact congrArg Reading.result (Option.some.inj hresult)
  | _ => simp [hread, Reading.resultLine] at hresult

theorem readLine_comment (state : Stage) {text : List Char} (h : '\n' ∉ text) :
    readLine state ('#' :: (text ++ ['\n'])) = .comment := by
  have hcomment : IsComment ('#' :: (text ++ ['\n'])) := rfl
  have hline : IsLine ('#' :: (text ++ ['\n'])) := by
    rw [IsLine, ← List.cons_append, List.dropLast_concat]
    simp [h]
  have hplan : planPattern.first ('#' :: (text ++ ['\n'])) = none :=
    first_bind_eq_none (many1_eq_nil fun c hc => by cases hc; decide) _
  have hresult : resultPattern.first ('#' :: (text ++ ['\n'])) = none := by
    by_contra hne
    obtain ⟨groups, hgroups⟩ := Option.ne_none_iff_exists'.mp hne
    obtain ⟨rest, hmem⟩ := Pattern.mem_of_first hgroups
    exact hcomment.not_isResultLine (recognisable_of_mem hline hmem).2.1
  have hbailOut : bailOutPattern.first ('#' :: (text ++ ['\n'])) = none :=
    first_bind_eq_none (literal_eq_nil fun hbegins =>
      absurd (List.cons_prefix_cons.mp hbegins).1 (by decide)) _
  have hmatch : (commentPattern.first ('#' :: (text ++ ['\n']))).isSome = true :=
    (commentPattern_isSome hline).mpr
      ⟨hcomment, List.getLast?_eq_some_iff.mpr ⟨'#' :: text, rfl⟩⟩
  unfold readLine
  rw [hplan, ite_self, hresult, hbailOut]
  simp [hmatch]

theorem first_planLine (count : Nat) :
    planPattern.first (planLine count) = some (Nat.toDigits 10 count, none) := by
  have hdigits : ∀ c ∈ Nat.toDigits 10 count, isDecimal c = true := fun c hc =>
    isDecimal_of_mem_toDigits hc
  have hstart : ∀ c ∈ ['1'], isDecimal c = true := List.forall_mem_singleton.mpr (by decide)
  have hend : (many isSpaceChar >>= fun _ => optional (literal ['#'] >>= fun _ =>
        many1 isSpaceChar >>= fun _ => many isDot) >>= fun comment => newline >>= fun _ =>
        pure (Nat.toDigits 10 count, comment)).first ['\n']
      = some (Nat.toDigits 10 count, none) := rfl
  have hcount : (many1 isDecimal >>= fun planStop => many isSpaceChar >>= fun _ =>
        optional (literal ['#'] >>= fun _ => many1 isSpaceChar >>= fun _ => many isDot) >>=
        fun comment => newline >>= fun _ => pure (planStop, comment)).first
        (Nat.toDigits 10 count ++ ['\n'])
      = some (Nat.toDigits 10 count, none) := by
    refine first_many1_stop hdigits Nat.toDigits_ne_nil hend ?_
    rintro c ⟨⟩
    decide
  have hline : planLine count = ['1'] ++ (['.', '.'] ++ (Nat.toDigits 10 count ++ ['\n'])) := rfl
  rw [hline]
  refine first_many1_stop hstart (List.cons_ne_nil _ _) ?_ ?_
  · rw [first_literal]
    exact hcount
  · rintro c ⟨⟩
    decide

/-- The variables behind a result and what is said about it. -/
def Report.after (r : Report) (number : Nat) (t : Locals) : Locals :=
  { t with
    testName := some (numberedName number (descriptionText r.description))
    result := some r.status
    log := r.log
    planStart := number + 1 }

namespace Locals

variable {t : Locals}

theorem events_diagnostics {texts : List (List Char)} (h : ∀ text ∈ texts, OneLine text)
    (tap : List (List Char)) :
    t.events (texts.map (fun text => '#' :: (text ++ ['\n'])) ++ tap)
      = { t with log := t.log ++ texts.map ('#' :: ·) }.events tap := by
  induction texts generalizing t with
  | nil => simp
  | cons text texts ih =>
    rw [List.forall_mem_cons] at h
    have hread := readLine_comment t.state h.1.1
    have hhandle : t.handle ('#' :: (text ++ ['\n']))
        = ([], .ok { t with log := t.log ++ ['#' :: text] }) := by
      rw [handle, hread]
      dsimp only
      rw [← List.cons_append, List.dropLast_concat]
    rw [List.map_cons, List.cons_append, events, hhandle]
    dsimp only
    rw [ih h.2]
    simp

/-- What no test is held back for is said about none. -/
def Idle (t : Locals) : Prop := t.testName = none → t.log = []

/-- **A result**: the test before it is emitted, and it is held back. -/
theorem events_report {r : Report} (hr : r.WellFormed) (hidle : t.Idle)
    (tap : List (List Char)) :
    t.events (r.lines t.planStart ++ tap)
      = (t.emitTest.1 ++ ((r.after t.planStart t).events tap).1,
          ((r.after t.planStart t).events tap).2) := by
  have hread : readLine t.state (r.line t.planStart) = .result (r.groups t.planStart) :=
    readLine_result (first_line hr t.planStart)
  have hhandle : t.handle (r.line t.planStart)
      = (t.emitTest.1, .ok { r.after t.planStart t with
          log := (r.directive.bind Prod.snd).toList }) := by
    have hnumber : max t.planStart (r.groups t.planStart).givenNumber = t.planStart := by
      rw [r.givenNumber_groups]
      split <;> simp
    have hmissing : missingTests t.planStart (r.groups t.planStart).givenNumber = [] := by
      rw [r.givenNumber_groups]
      split <;> simp [missingTests]
    have hlog : t.emitTest.2.log = [] := by
      unfold emitTest
      split
      · exact hidle ‹_›
      · rfl
    rw [handle, hread]
    simp only [testLine, emitTest_planStart, emitTest_state, emitTest_planStop, hmissing, hnumber,
      hlog, r.suffix_groups, r.logged_groups, Report.testStatus_groups hr, List.append_nil,
      List.nil_append]
    rfl
  rw [Report.lines, List.cons_append, events, hhandle]
  dsimp only
  rw [events_diagnostics hr.diagnostics]
  rfl

/-- **The results of a script**, up to the last, which is held back. -/
theorem events_reports {reports : List Report} (hreports : ∀ r ∈ reports, r.WellFormed)
    (hidle : t.Idle) (tap : List (List Char)) :
    ∃ (t' : Locals) (calls : List StatusEvent), t.events (reportLines t.planStart reports ++ tap)
        = (calls ++ (t'.events tap).1, (t'.events tap).2)
      ∧ calls ++ t'.emitTest.1 = t.emitTest.1 ++ reported t.planStart reports
      ∧ t'.planStart = t.planStart + reports.length
      ∧ t'.state = t.state ∧ t'.planStop = t.planStop := by
  induction reports generalizing t with
  | nil => exact ⟨t, [], rfl, by simp [reported], rfl, rfl, rfl⟩
  | cons r reports ih =>
    rw [List.forall_mem_cons] at hreports
    obtain ⟨t', calls, hevents, hcalls, hstart, hstate, hstop⟩ :=
      @ih (r.after t.planStart t) hreports.2 (by rintro ⟨⟩)
    have hnext : (r.after t.planStart t).planStart = t.planStart + 1 := rfl
    have hemit : (r.after t.planStart t).emitTest.1 = [r.event t.planStart] := rfl
    rw [hnext] at hevents hcalls hstart
    refine ⟨t', t.emitTest.1 ++ calls, ?_, ?_, ?_, hstate, hstop⟩
    · rw [reportLines, List.append_assoc, events_report hreports.1 hidle, hevents,
        List.append_assoc]
    · rw [List.append_assoc, hcalls, hemit, reported]
      rfl
    · rw [hstart, List.length_cons]
      omega

end Locals

/-! ## From the script to the events and back -/

theorem readLine_planLine (count : Nat) :
    readLine .beforePlan (planLine count) = .plan (Nat.toDigits 10 count) none := by
  simp [readLine, first_planLine]

/-- A plan for some tests is noted. -/
theorem handle_planLine {t : Locals} (hstate : t.state = .beforePlan) {count : Nat}
    (hcount : count ≠ 0) :
    t.handle (planLine count) = ([], .ok { t with state := .afterPlan, planStop := count }) := by
  rw [Locals.handle, hstate, readLine_planLine]
  simp [Locals.plan, intOfDigits_toDigits, hcount]

/-- Where the plan is kept nothing is missing. -/
theorem finish_kept {t : Locals} (h : t.planStart = t.planStop + 1) : t.finish = t.emitTest.1 := by
  simp [Locals.finish, missingTests, h]

/-- **The events of a script.** -/
theorem events_script (planFirst : Bool) {reports : List Report} (hne : reports ≠ [])
    (h : ∀ r ∈ reports, r.WellFormed) :
    Locals.events {} (script planFirst reports) = (reported 1 reports, .ok ()) := by
  have hcount : reports.length ≠ 0 := by simpa using hne
  cases planFirst with
  | true =>
    have hplan := handle_planLine (t := {}) rfl hcount
    obtain ⟨t', calls, hevents, hcalls, hstart, -, hstop⟩ :=
      @Locals.events_reports { state := .afterPlan, planStop := reports.length } reports h
        (fun _ => rfl) []
    rw [List.append_nil] at hevents
    have hkept : t'.planStart = t'.planStop + 1 := by rw [hstart, hstop, Nat.add_comm]
    rw [script, if_pos rfl, Locals.events_of_ok (congrArg Prod.snd hplan), hplan, hevents,
      Locals.events, finish_kept hkept, hcalls]
    rfl
  | false =>
    obtain ⟨t', calls, hevents, hcalls, hstart, hstate, -⟩ :=
      @Locals.events_reports {} reports h (fun _ => rfl) [planLine reports.length]
    have hplan := handle_planLine hstate hcount
    have hkept : ({ t' with state := .afterPlan, planStop := reports.length } : Locals).planStart
        = reports.length + 1 := by rw [← Nat.add_comm 1, ← hstart]
    rw [script, if_neg Bool.false_ne_true, hevents,
      Locals.events_of_ok (congrArg Prod.snd hplan), hplan, Locals.events, finish_kept hkept]
    have hemit : ({ t' with state := .afterPlan, planStop := reports.length } : Locals).emitTest.1
        = t'.emitTest.1 := by
      unfold Locals.emitTest
      cases t'.testName <;> rfl
    rw [hemit]
    exact congrArg (·, Except.ok ()) hcalls

theorem nul_not_mem_toDigits (number : Nat) : '\x00' ∉ Nat.toDigits 10 number := by
  intro hnul
  exact absurd (isDecimal_of_mem_toDigits hnul) (by decide)

theorem nul_not_mem_directiveText {directive : Option (List Char × Option (List Char))}
    (h : Stated directive) : '\x00' ∉ directiveText directive := by
  cases directive with
  | none => simp [directiveText]
  | some d =>
    obtain ⟨word, reason⟩ := d
    have hword : '\x00' ∉ word := by
      have hall : ∀ word ∈ directives, '\x00' ∉ word := by decide
      exact hall word (h (word, reason) rfl).1
    cases reason with
    | none => simp [directiveText, hword]
    | some reason =>
      have hreason : '\x00' ∉ reason := ((h (word, some reason) rfl).2 reason rfl).1.2
      simp [directiveText, hword, hreason]

theorem nul_not_mem_lines {r : Report} (h : r.WellFormed) (number : Nat) :
    ∀ line ∈ r.lines number, '\x00' ∉ line := by
  refine List.forall_mem_cons.mpr ⟨?_, ?_⟩
  · have hword : '\x00' ∉ r.word := by
      unfold Report.word
      split <;> decide
    have hnumber : '\x00' ∉ r.numberText number := by
      unfold Report.numberText
      split <;> simp [nul_not_mem_toDigits]
    have hdescription : '\x00' ∉ descriptionText r.description := by
      unfold descriptionText
      split <;> simp [h.description.1.2]
    simp [Report.line, hword, hnumber, hdescription, nul_not_mem_directiveText h.directive]
  · intro line hline
    obtain ⟨text, htext, rfl⟩ := List.mem_map.mp hline
    simp [(h.diagnostics text htext).2]

/-- No line of a script holds U+0000. -/
theorem nul_not_mem_script {planFirst : Bool} {reports : List Report}
    (h : ∀ r ∈ reports, r.WellFormed) : ∀ line ∈ script planFirst reports, '\x00' ∉ line := by
  have hplan : '\x00' ∉ planLine reports.length := by
    simp [planLine, nul_not_mem_toDigits]
  have hreports : ∀ number, ∀ line ∈ reportLines number reports, '\x00' ∉ line := by
    clear hplan
    induction reports with
    | nil => simp [reportLines]
    | cons r reports ih =>
      intro number
      rw [List.forall_mem_cons] at h
      exact List.forall_mem_append.mpr ⟨nul_not_mem_lines h.1 number, ih h.2 (number + 1)⟩
  unfold script
  split
  · exact List.forall_mem_cons.mpr ⟨hplan, hreports 1⟩
  · exact List.forall_mem_append.mpr ⟨hreports 1, List.forall_mem_singleton.mpr hplan⟩

/-- **A script is converted to its results.** Whatever results a producer of TAP has, with whatever
descriptions, directives and comments, whether it numbers them and where it puts the plan: if the
events fit into packets, `TAP2SubUnit` returns 0, and what it has written decodes to one event for
each result, in order, with its number and description, its status and all that was said about it,
and to nothing else. -/
theorem tap2SubUnit_reports (w : PartialWrites) (polls : Polls) (name : Option String)
    (planFirst : Bool) {reports : List Report} (hne : reports ≠ [])
    (h : ∀ r ∈ reports, r.WellFormed) (hfits : ∀ e ∈ reported 1 reports, Fits e) :
    (tap2SubUnit w {} (script planFirst reports)).1 = .ok 0
    ∧ DecodesTo polls name (tap2SubUnit w {} (script planFirst reports)).2.written
        (reported 1 reports) := by
  have hevents := events_script planFirst hne h
  have hok : (tap2SubUnit w {} (script planFirst reports)).1 = .ok 0 := by
    rw [tap2SubUnit_ok_iff, hevents]
    exact ⟨hfits, rfl⟩
  have hnul : ∀ line ∈ script planFirst reports, '\x00' ∉ line := nul_not_mem_script h
  have hdecodes := emitted_decodes w polls name hnul
  rw [emitted_of_ok hok, hevents] at hdecodes
  exact ⟨hok, hdecodes⟩

/-- A result with all there can be, and one with nothing. -/
def someReports : List Report :=
  [{ passed := false
     description := "- a".toList
     directive := some ("TODO".toList, some "b c".toList)
     diagnostics := [" d # e".toList] },
    { passed := true, numbered := false }]

theorem wellFormed_someReports : ∀ r ∈ someReports, r.WellFormed := by
  have hminus : isSpaceChar '-' = false := by decide
  have ha : isSpaceChar 'a' = false := by decide
  have hb : isSpaceChar 'b' = false := by decide
  rw [someReports, List.forall_mem_cons, List.forall_mem_singleton]
  constructor
  · refine ⟨by simp [OneLine], by simp [hminus], by simp [ha], ?_, by simp [OneLine]⟩
    rintro d ⟨⟩
    refine ⟨by decide, ?_⟩
    rintro reason ⟨⟩
    exact ⟨by simp [OneLine], by simp [hb]⟩
  · exact ⟨by simp [OneLine], by simp, by simp, by simp [Stated], by simp⟩

theorem tap2SubUnit_reports_some :
    (tap2SubUnit byteByByte {} (script false someReports)).1 = .ok 0
    ∧ DecodesTo inMemory none (tap2SubUnit byteByByte {} (script false someReports)).2.written
        (reported 1 someReports) :=
  tap2SubUnit_reports byteByByte inMemory none false (List.cons_ne_nil _ _) wellFormed_someReports
    (by
      unfold Fits
      decide +kernel)

end Pysubunit.Tap
