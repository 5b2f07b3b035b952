/-
Pysubunit.Tap.ResultLineTheorems — which lines are taken for result lines.

A line whose first word is `ok`, or whose first words are `not ok`, is a result
line; its status is that of its directive, if it has one. The pattern of the loop
takes less: its description stops at a `#`, which has to begin a directive in one
of four spellings, and the newline has to be there (`Recognisable`,
`isSome_iff`). What no pattern takes is no result, so that all result
lines of a script are reported if and only if all of them are `Recognisable` and
nothing stops the run ahead of the last (`resultsKept_iff`).
-/
import Pysubunit.Tap.NumberTheorems

namespace Pysubunit.Tap

open ByteLib
open ByteLib.Pattern (literal either optional many many1 mem_bind mem_pure mem_literal mem_either
  mem_many mem_many1 some_mem_optional none_mem_optional)
open V2 (StatusEvent TestStatus PartialWrites OutputStream)

/-! ## Result lines -/

/-- A line of a text: a newline only at its end. -/
def IsLine (line : List Char) : Prop := '\n' ∉ line.dropLast

/-- The first word is `ok`, or the first words are `not ok`. -/
def IsResultLine (line : List Char) : Prop :=
  (words line).head? = some "ok".toList ∨ (words line).take 2 = ["not".toList, "ok".toList]

instance (line : List Char) : Decidable (IsResultLine line) :=
  inferInstanceAs (Decidable (_ ∨ _))

/-- The status of the first directive `# TODO` or `# SKIP`, in any letter case. -/
def directiveStatus : List (List Char) → Option TestStatus
  | hash :: word :: rest =>
    if hash = ['#'] ∧ word.map Char.toLower = "todo".toList then some .xfail
    else if hash = ['#'] ∧ word.map Char.toLower = "skip".toList then some .skip
    else directiveStatus (word :: rest)
  | _ => none

/-- The status of a result line. -/
def lineStatus (line : List Char) : TestStatus :=
  (directiveStatus (words line)).getD
    (if (words line).head? = some "ok".toList then .success else .fail)

/-- The spellings of a directive. -/
def directives : List (List Char) := ["TODO".toList, "SKIP".toList, "skip".toList, "todo".toList]

/-- What may stand behind `ok`: it stands off, the line is ended, and the first `#`
begins a directive. -/
def Trailing (rest : List Char) : Prop :=
  let before := rest.takeWhile (· ≠ '#')
  let behind := (rest.dropWhile (· ≠ '#')).tail
  (∃ c ∈ rest.head?, isSpaceChar c = true) ∧ rest.getLast? = some '\n'
  ∧ ('#' ∈ rest →
    (∃ c ∈ before.getLast?, isSpaceChar c = true) ∧ (∃ c ∈ behind.head?, isSpaceChar c = true)
    ∧ ∃ word ∈ directives, (words behind).head? = some word)

/-- A result line that the pattern takes. -/
def Recognisable (line : List Char) : Prop :=
  ∃ status ∈ ["ok".toList, "not ok".toList], ∃ rest, line = status ++ rest ∧ Trailing rest

/-! ## The pattern -/

/-- The text behind the word of a directive. -/
def CommentText (tail : List Char) : Option (List Char) → Prop
  | none => tail = []
  | some comment => ∃ gap, tail = gap ++ comment ∧ Blank gap ∧ gap ≠ []

/-- The text of a directive. -/
def DirectiveText (text : List Char) : Option (List Char × Option (List Char)) → Prop
  | none => text = []
  | some (word, comment) => word ∈ directives
    ∧ ∃ gap gap' tail, text = gap ++ '#' :: (gap' ++ (word ++ tail)) ∧ (Blank gap ∧ gap ≠ [])
      ∧ (Blank gap' ∧ gap' ≠ []) ∧ CommentText tail comment

theorem hash_not_mem_blank {cs : List Char} (h : Blank cs) : '#' ∉ cs := by
  intro hmem
  have hspace := h '#' hmem
  revert hspace
  decide

theorem mem_numberPattern {number : Option (List Char)} {s rest : List Char}
    (h : (number, rest) ∈ numberPattern s) :
    ∃ front, s = front ++ rest ∧ StandsOff front ∧ '#' ∉ front := by
  simp only [numberPattern, mem_bind, mem_pure] at h
  obtain ⟨group, between, hgroup, -, rfl⟩ := h
  cases group with
  | none =>
    rw [none_mem_optional] at hgroup
    exact ⟨[], by simp [hgroup], by simp [StandsOff], by simp⟩
  | some digits =>
    simp only [some_mem_optional, mem_bind, mem_many1] at hgroup
    obtain ⟨gap, behind, ⟨hs, hgap, hne⟩, hdigits⟩ := hgroup
    have hoff : StandsOff gap := Blank.standsOff hgap
    have hhash : '#' ∉ gap := hash_not_mem_blank hgap
    cases digits with
    | none =>
      rw [none_mem_optional] at hdigits
      exact ⟨gap, by rw [hs, hdigits], hoff, hhash⟩
    | some digits =>
      rw [some_mem_optional, mem_many1] at hdigits
      obtain ⟨hbehind, hall, -⟩ := hdigits
      refine ⟨gap ++ digits, by rw [hs, hbehind, List.append_assoc], ?_, ?_⟩
      · obtain ⟨c, gap, rfl⟩ := List.exists_cons_of_ne_nil hne
        exact hoff
      · rw [List.mem_append, not_or]
        refine ⟨hhash, fun hmem => ?_⟩
        have hdecimal := hall '#' hmem
        revert hdecimal
        decide

theorem mem_descriptionPattern {description : Option (List Char)} {s rest : List Char}
    (h : (description, rest) ∈ descriptionPattern s) :
    ∃ front, s = front ++ rest ∧ StandsOff front ∧ '#' ∉ front := by
  unfold descriptionPattern at h
  cases description with
  | none =>
    rw [none_mem_optional] at h
    exact ⟨[], by simp [h], by simp [StandsOff], by simp⟩
  | some text =>
    simp only [some_mem_optional, mem_bind, mem_many1, mem_many, mem_pure] at h
    obtain ⟨gap, s1, ⟨rfl, hgap, hne⟩, start, s2, ⟨rfl, hstart⟩, stop, s3, ⟨rfl, hstop, -⟩,
      blank, s4, ⟨rfl, hblank⟩, -, rfl⟩ := h
    have hoff : StandsOff gap := Blank.standsOff hgap
    refine ⟨gap ++ (start ++ (stop ++ blank)), by simp, ?_, ?_⟩
    · obtain ⟨c, gap, rfl⟩ := List.exists_cons_of_ne_nil hne
      exact hoff
    · simp only [List.mem_append, not_or]
      refine ⟨hash_not_mem_blank hgap, ?_, ?_, hash_not_mem_blank hblank⟩
      · intro hmem
        simpa using hstart '#' hmem
      · intro hmem
        simpa using hstop '#' hmem

theorem mem_directiveWord {word s rest : List Char} (h : (word, rest) ∈ directiveWord s) :
    word ∈ directives ∧ s = word ++ rest := by
  simp only [directiveWord, mem_either, mem_literal] at h
  rcases h with ⟨rfl, rfl⟩ | ⟨rfl, rfl⟩ | ⟨rfl, rfl⟩ | ⟨rfl, rfl⟩ <;> exact ⟨by simp [directives], rfl⟩

theorem mem_directiveComment {comment : Option (List Char)} {s rest : List Char}
    (h : (comment, rest) ∈ directiveComment s) :
    ∃ tail, s = tail ++ rest ∧ CommentText tail comment := by
  unfold directiveComment at h
  cases comment with
  | none =>
    rw [none_mem_optional] at h
    exact ⟨[], by simp [h], rfl⟩
  | some comment =>
    simp only [some_mem_optional, mem_bind, mem_many1, mem_many] at h
    obtain ⟨gap, s1, ⟨rfl, hgap⟩, rfl, -⟩ := h
    exact ⟨gap ++ comment, by simp, gap, rfl, hgap⟩

theorem mem_directivePattern {directive : Option (List Char × Option (List Char))}
    {s rest : List Char} (h : (directive, rest) ∈ directivePattern s) :
    ∃ text, s = text ++ rest ∧ DirectiveText text directive := by
  unfold directivePattern at h
  cases directive with
  | none =>
    rw [none_mem_optional] at h
    exact ⟨[], by simp [h], rfl⟩
  | some directive =>
    simp only [some_mem_optional, mem_bind, mem_many1, mem_literal, mem_pure] at h
    obtain ⟨gap, s1, ⟨rfl, hgap⟩, -, s2, ⟨-, rfl⟩, gap', s3, ⟨rfl, hgap'⟩, word, s4, hword,
      comment, s5, hcomment, rfl, rfl⟩ := h
    obtain ⟨hspelling, rfl⟩ := mem_directiveWord hword
    obtain ⟨tail, rfl, htail⟩ := mem_directiveComment hcomment
    exact ⟨gap ++ '#' :: (gap' ++ (word ++ tail)), by simp, hspelling, gap, gap', tail, rfl,
      hgap, hgap', htail⟩

/-- What the pattern takes, part by part. -/
theorem mem_resultPattern {groups : ResultLine} {line rest : List Char}
    (h : (groups, rest) ∈ resultPattern line) :
    groups.status ∈ ["ok".toList, "not ok".toList]
    ∧ ∃ middle text directive, line = groups.status ++ (middle ++ (text ++ '\n' :: rest))
      ∧ StandsOff middle ∧ '#' ∉ middle ∧ DirectiveText text directive
      ∧ groups.directive = directive.map Prod.fst ∧ groups.directiveComment = directive.bind Prod.snd := by
  simp only [resultPattern, mem_bind, mem_pure, newline, mem_literal] at h
  obtain ⟨status, s1, hstatus, number, s2, hnumber, description, s3, hdescription, directive, s4,
    hdirective, -, s5, ⟨-, rfl⟩, rfl, rfl⟩ := h
  obtain ⟨front, rfl, hoff, hhash⟩ := mem_numberPattern hnumber
  obtain ⟨front', rfl, hoff', hhash'⟩ := mem_descriptionPattern hdescription
  obtain ⟨text, rfl, htext⟩ := mem_directivePattern hdirective
  have hmiddle : '#' ∉ front ++ front' := by
    rw [List.mem_append, not_or]
    exact ⟨hhash, hhash'⟩
  simp only [statusPattern, mem_either, mem_literal] at hstatus
  rcases hstatus with ⟨rfl, rfl⟩ | ⟨rfl, rfl⟩
  · exact ⟨by simp, front ++ front', text, directive, by simp, hoff.append hoff', hmiddle, htext, rfl, rfl⟩
  · exact ⟨by simp, front ++ front', text, directive, by simp, hoff.append hoff', hmiddle, htext, rfl, rfl⟩

/-! ## The status -/

theorem directiveStatus_eq_none {ws : List (List Char)} (h : ['#'] ∉ ws) :
    directiveStatus ws = none := by
  induction ws with
  | nil => rfl
  | cons w ws ih =>
    rw [List.mem_cons, not_or] at h
    cases ws with
    | nil => rfl
    | cons v ws =>
      have hw : w ≠ ['#'] := Ne.symm h.1
      rw [directiveStatus, if_neg fun hand => hw hand.1, if_neg fun hand => hw hand.1]
      exact ih h.2

theorem directiveStatus_append {ws : List (List Char)} (h : ['#'] ∉ ws) (word : List Char)
    (rest : List (List Char)) :
    directiveStatus (ws ++ ['#'] :: word :: rest) = directiveStatus (['#'] :: word :: rest) := by
  induction ws with
  | nil => rfl
  | cons w ws ih =>
    rw [List.mem_cons, not_or] at h
    have hw : w ≠ ['#'] := Ne.symm h.1
    rw [← ih h.2]
    cases ws with
    | nil =>
      rw [List.cons_append, List.nil_append, directiveStatus, if_neg fun hand => hw hand.1,
        if_neg fun hand => hw hand.1]
    | cons v ws =>
      rw [List.cons_append, List.cons_append, directiveStatus, if_neg fun hand => hw hand.1,
        if_neg fun hand => hw hand.1]

/-- A line without its newline has none. -/
theorem IsLine.rest_eq_nil {front rest : List Char} (h : IsLine (front ++ '\n' :: rest)) :
    rest = [] := by
  cases rest with
  | nil => rfl
  | cons c rest =>
    rw [IsLine, List.dropLast_append_of_ne_nil (by simp), List.dropLast_cons_of_ne_nil (by simp)] at h
    simp at h

theorem takeWhile_hash {front behind : List Char} (h : '#' ∉ front) :
    (front ++ '#' :: behind).takeWhile (fun c => decide (c ≠ '#')) = front
    ∧ (front ++ '#' :: behind).dropWhile (fun c => decide (c ≠ '#')) = '#' :: behind := by
  have hall : ∀ c ∈ front, decide (c ≠ '#') = true := by
    intro c hc
    simp only [decide_eq_true_eq]
    intro hcc
    exact h (hcc ▸ hc)
  rw [List.takeWhile_append_of_pos hall, List.dropWhile_append_of_pos hall]
  simp

theorem isWord_of_mem_directives {word : List Char} (h : word ∈ directives) : IsWord word := by
  revert word
  decide

/-- The text of a directive, the line ended. -/
theorem words_directiveText {gap' word tail : List Char} {comment : Option (List Char)}
    (hword : word ∈ directives) (hgap' : Blank gap')
    (htail : CommentText tail comment) :
    StandsOff (tail ++ ['\n'])
    ∧ words (gap' ++ (word ++ tail) ++ ['\n']) = word :: words (tail ++ ['\n']) := by
  have hoff : StandsOff (tail ++ ['\n']) := by
    have heol : StandsOff ['\n'] := by
      intro c hc
      cases hc
      decide
    cases comment with
    | none =>
      have hnil : tail = [] := htail
      rw [hnil]
      exact heol
    | some comment =>
      obtain ⟨gap'', rfl, hblank, hne⟩ := htail
      obtain ⟨c, gap'', rfl⟩ := List.exists_cons_of_ne_nil hne
      exact hblank.standsOff
  refine ⟨hoff, ?_⟩
  rw [List.append_assoc, List.append_assoc, words_blank_append hgap', words_append hoff,
    words_of_isWord (isWord_of_mem_directives hword)]
  rfl

theorem standsOff_newline : StandsOff ['\n'] := by
  intro c hc
  cases hc
  decide

theorem DirectiveText.standsOff {text : List Char} {directive : Option (List Char × Option (List Char))}
    (h : DirectiveText text directive) : StandsOff text := by
  cases directive with
  | none =>
    have hnil : text = [] := h
    rw [hnil]
    simp [StandsOff]
  | some directive =>
    obtain ⟨-, gap, gap', tail, rfl, ⟨hgap, hne⟩, -⟩ := h
    have hoff := hgap.standsOff
    obtain ⟨c, gap, rfl⟩ := List.exists_cons_of_ne_nil hne
    exact hoff

/-- The first words of a line that begins as a result line does. -/
theorem words_status {status rest : List Char} (hstatus : status ∈ ["ok".toList, "not ok".toList])
    (hoff : StandsOff rest) :
    IsResultLine (status ++ rest) ∧ ['#'] ∉ words status
    ∧ ((words (status ++ rest)).head? = some "ok".toList ↔ status = "ok".toList) := by
  rw [IsResultLine, words_append hoff]
  have hcases : status = "ok".toList ∨ status = "not ok".toList := by simpa using hstatus
  rcases hcases with rfl | rfl
  · have hwords : words "ok".toList = ["ok".toList] := by decide +kernel
    rw [hwords]
    simp
  · have hwords : words "not ok".toList = ["not".toList, "ok".toList] := by decide +kernel
    rw [hwords]
    simp

/-- The status of a spelling. -/
theorem directiveStatus_spelling {word : List Char} (h : word ∈ directives)
    (rest : List (List Char)) :
    directiveStatus (['#'] :: word :: rest)
      = some (if word.map Char.toUpper = "TODO".toList then .xfail else .skip)
    ∧ (word.map Char.toUpper = "TODO".toList ∨ word.map Char.toUpper = "SKIP".toList) := by
  have hcases : word = "TODO".toList ∨ word = "SKIP".toList ∨ word = "skip".toList
      ∨ word = "todo".toList := by simpa [directives] using h
  rcases hcases with rfl | rfl | rfl | rfl <;> simp [directiveStatus]

/-- The directive that is read off the words. -/
theorem directiveStatus_text {status middle text : List Char}
    {directive : Option (List Char × Option (List Char))}
    (hstatus : ['#'] ∉ words status) (hoff : StandsOff middle) (hhash : '#' ∉ middle)
    (htext : DirectiveText text directive) :
    directiveStatus (words (status ++ (middle ++ (text ++ ['\n']))))
      = directive.map fun d => if d.1.map Char.toUpper = "TODO".toList then .xfail else .skip := by
  have hmiddle : ['#'] ∉ words middle := fun hmem =>
    hhash (mem_of_mem_words hmem '#' List.mem_cons_self)
  have hback : StandsOff (text ++ ['\n']) := htext.standsOff.append standsOff_newline
  rw [words_append (hoff.append hback), words_append hback, ← List.append_assoc]
  have hfront : ['#'] ∉ words status ++ words middle := by
    rw [List.mem_append, not_or]
    exact ⟨hstatus, hmiddle⟩
  cases directive with
  | none =>
    have hnil : text = [] := htext
    have hwords : words ['\n'] = [] := by decide +kernel
    rw [hnil, List.nil_append, hwords, List.append_nil]
    exact directiveStatus_eq_none hfront
  | some directive =>
    obtain ⟨word, comment⟩ := directive
    obtain ⟨hword, gap, gap', tail, rfl, ⟨hgap, -⟩, ⟨hgap', hne'⟩, htail⟩ := htext
    have hwords := (words_directiveText hword hgap' htail).2
    have hbehind : StandsOff (gap' ++ (word ++ tail) ++ ['\n']) := by
      have hoff' := hgap'.standsOff
      obtain ⟨c, gap', rfl⟩ := List.exists_cons_of_ne_nil hne'
      exact hoff'
    have hsplit : words (gap ++ '#' :: (gap' ++ (word ++ tail)) ++ ['\n'])
        = ['#'] :: word :: words (tail ++ ['\n']) := by
      have hcons : gap ++ '#' :: (gap' ++ (word ++ tail)) ++ ['\n']
          = gap ++ (['#'] ++ (gap' ++ (word ++ tail) ++ ['\n'])) := by simp
      have hhashWord : words ['#'] = [['#']] := by decide +kernel
      rw [hcons, words_blank_append hgap, words_append hbehind, hwords, hhashWord]
      rfl
    rw [hsplit, directiveStatus_append hfront]
    exact (directiveStatus_spelling hword _).1

/-- What the pattern takes is as it may be behind `ok`. -/
theorem trailing_text {middle text : List Char} {directive : Option (List Char × Option (List Char))}
    (hoff : StandsOff middle) (hhash : '#' ∉ middle) (htext : DirectiveText text directive) :
    Trailing (middle ++ (text ++ ['\n'])) := by
  have hback : StandsOff (text ++ ['\n']) := htext.standsOff.append standsOff_newline
  have hhead : ∃ c ∈ (middle ++ (text ++ ['\n'])).head?, isSpaceChar c = true := by
    have hall := hoff.append hback
    cases hcs : middle ++ (text ++ ['\n']) with
    | nil => simp at hcs
    | cons c cs =>
      rw [hcs] at hall
      exact ⟨c, rfl, hall c rfl⟩
  refine ⟨hhead, by simp [← List.append_assoc], ?_⟩
  intro hmem
  cases directive with
  | none =>
    have hnil : text = [] := htext
    rw [hnil] at hmem
    simp [hhash] at hmem
  | some directive =>
    obtain ⟨word, comment⟩ := directive
    obtain ⟨hword, gap, gap', tail, rfl, ⟨hgap, hne⟩, ⟨hgap', hne'⟩, htail⟩ := htext
    have hwords := (words_directiveText hword hgap' htail).2
    have hfront : '#' ∉ middle ++ gap := by
      rw [List.mem_append, not_or]
      exact ⟨hhash, hash_not_mem_blank hgap⟩
    have hcs : middle ++ (gap ++ '#' :: (gap' ++ (word ++ tail)) ++ ['\n'])
        = (middle ++ gap) ++ '#' :: (gap' ++ (word ++ tail) ++ ['\n']) := by simp
    rw [hcs, (takeWhile_hash hfront).1, (takeWhile_hash hfront).2, List.tail_cons]
    refine ⟨?_, ?_, word, hword, by rw [hwords]; rfl⟩
    · refine ⟨gap.getLast hne, ?_, hgap _ (List.getLast_mem hne)⟩
      rw [List.getLast?_append_of_ne_nil _ hne, List.getLast?_eq_getLast_of_ne_nil hne]
      rfl
    · obtain ⟨c, gap', rfl⟩ := List.exists_cons_of_ne_nil hne'
      exact ⟨c, rfl, hgap' c List.mem_cons_self⟩

/-- What a match says about its line. -/
theorem recognisable_of_mem {groups : ResultLine} {line rest : List Char} (hline : IsLine line)
    (h : (groups, rest) ∈ resultPattern line) :
    Recognisable line ∧ IsResultLine line ∧ groups.testStatus = lineStatus line := by
  obtain ⟨hstatus, middle, text, directive, hsplit, hoff, hhash, htext, hdirective, -⟩ :=
    mem_resultPattern h
  have hrest : rest = [] := by
    rw [hsplit, ← List.append_assoc, ← List.append_assoc] at hline
    exact hline.rest_eq_nil
  rw [hrest] at hsplit
  have hback : StandsOff (middle ++ (text ++ ['\n'])) :=
    hoff.append (htext.standsOff.append standsOff_newline)
  obtain ⟨hresult, hhashWord, hok⟩ := words_status hstatus hback
  refine ⟨⟨groups.status, hstatus, _, hsplit, trailing_text hoff hhash htext⟩, by rw [hsplit]; exact hresult, ?_⟩
  rw [lineStatus, hsplit, directiveStatus_text hhashWord hoff hhash htext, ResultLine.testStatus,
    hdirective]
  cases directive with
  | none =>
    simp only [Option.map_none, Option.getD_none]
    by_cases hs : groups.status = "ok".toList
    · rw [if_pos hs, if_pos (hok.mpr hs)]
    · rw [if_neg hs, if_neg (mt hok.mp hs)]
  | some directive =>
    have hword := (directiveStatus_spelling htext.1 []).2
    simp only [Option.map_some, Option.getD_some]
    by_cases htodo : directive.1.map Char.toUpper = "TODO".toList
    · rw [if_pos htodo, if_pos htodo]
    · rw [if_neg htodo, if_neg htodo, if_pos (hword.resolve_left htodo)]

/-- The words in front of a directive or of the newline are taken for a number or a
description. -/
theorem mem_middle {middle : List Char} (hoff : StandsOff middle) (hhash : '#' ∉ middle)
    (rest : List Char) :
    ∃ number description between, (number, between) ∈ numberPattern (middle ++ rest)
      ∧ (description, rest) ∈ descriptionPattern between := by
  by_cases hblank : Blank middle
  · -- Only whitespace, which the pattern of the number takes.
    refine ⟨none, none, rest, ?_, by simp [descriptionPattern]⟩
    simp only [numberPattern, mem_bind, mem_pure]
    by_cases hne : middle = []
    · exact ⟨none, rest, by simp [hne], rfl, rfl⟩
    · refine ⟨some none, rest, ?_, rfl, rfl⟩
      simp only [some_mem_optional, mem_bind, mem_many1]
      exact ⟨middle, rest, ⟨rfl, hblank, hne⟩, by simp⟩
  · -- The pattern of the description takes all, up to the whitespace at its end.
    cases middle with
    | nil => exact absurd (by simp [Blank]) hblank
    | cons c body =>
      have hc : isSpaceChar c = true := hoff c rfl
      have hne : body.rdropWhile isSpaceChar ≠ [] := by
        rw [ne_eq, List.rdropWhile_eq_nil_iff]
        intro hall
        refine hblank ?_
        rw [Blank, List.forall_mem_cons]
        exact ⟨hc, hall⟩
      have hlast := List.rdropWhile_last_not isSpaceChar body hne
      have hsplit : body.rdropWhile isSpaceChar ++ body.rtakeWhile isSpaceChar = body :=
        List.rdropWhile_append_rtakeWhile
      have htrail : ∀ d ∈ body.rtakeWhile isSpaceChar, isSpaceChar d = true :=
        fun d hd => List.mem_rtakeWhile_imp hd
      generalize body.rdropWhile isSpaceChar = core at hne hlast hsplit
      generalize body.rtakeWhile isSpaceChar = blank at hsplit htrail
      obtain ⟨start, d, rfl⟩ : ∃ start d, core = start ++ [d] :=
        ⟨core.dropLast, core.getLast hne, (List.dropLast_append_getLast hne).symm⟩
      rw [List.getLast_append_singleton] at hlast
      rw [← hsplit] at hhash ⊢
      have hnot : ∀ e ∈ start ++ [d], e ≠ '#' := by
        intro e he heq
        refine hhash (List.mem_cons_of_mem c (List.mem_append_left blank ?_))
        rw [← heq]
        exact he
      refine ⟨none, some (start ++ [d]), c :: (start ++ [d] ++ blank) ++ rest, ?_, ?_⟩
      · simp only [numberPattern, mem_bind, mem_pure]
        exact ⟨none, _, none_mem_optional.mpr rfl, rfl, rfl⟩
      · simp only [descriptionPattern, some_mem_optional, mem_bind, mem_many1, mem_many, mem_pure]
        refine ⟨[c], start ++ [d] ++ blank ++ rest, ⟨rfl, by simp [hc], by simp⟩, start,
          [d] ++ blank ++ rest, ⟨by simp, ?_⟩, [d], blank ++ rest, ⟨by simp, ?_, by simp⟩, blank, rest,
          ⟨rfl, htrail⟩, rfl, rfl⟩
        · intro e he
          simp [hnot e (List.mem_append_left _ he)]
        · intro e he
          rw [List.mem_singleton] at he
          simp [he, hlast, hnot d (by simp)]

/-- What stands behind the word of a directive is taken for its comment. -/
theorem mem_directive {gap gap' word tail : List Char} (hgap : Blank gap) (hne : gap ≠ [])
    (hgap' : Blank gap') (hne' : gap' ≠ []) (hword : word ∈ directives) (htail : StandsOff tail)
    (hline : '\n' ∉ tail) :
    ∃ directive, (directive, ['\n'])
      ∈ directivePattern (gap ++ '#' :: (gap' ++ (word ++ (tail ++ ['\n'])))) := by
  have hspelling : ∀ behind, (word, behind) ∈ directiveWord (word ++ behind) := by
    intro behind
    have hcases : word = "TODO".toList ∨ word = "SKIP".toList ∨ word = "skip".toList
        ∨ word = "todo".toList := by simpa [directives] using hword
    simp only [directiveWord, mem_either, mem_literal]
    rcases hcases with rfl | rfl | rfl | rfl <;> simp
  have hcomment : ∃ comment, (comment, ['\n']) ∈ directiveComment (tail ++ ['\n']) := by
    unfold directiveComment
    cases tail with
    | nil => exact ⟨none, none_mem_optional.mpr rfl⟩
    | cons c tail =>
      rw [List.mem_cons, not_or] at hline
      have hc : isSpaceChar c = true := htail c rfl
      refine ⟨some tail, ?_⟩
      simp only [some_mem_optional, mem_bind, mem_many1, mem_many]
      refine ⟨[c], tail ++ ['\n'], ⟨rfl, by simp [hc], by simp⟩, rfl, ?_⟩
      intro d hd
      simp only [isDot, bne_iff_ne, ne_eq]
      intro heq
      exact hline.2 (heq ▸ hd)
  obtain ⟨comment, hcomment⟩ := hcomment
  refine ⟨some (word, comment), ?_⟩
  simp only [directivePattern, some_mem_optional, mem_bind, mem_many1, mem_literal, mem_pure]
  exact ⟨gap, _, ⟨rfl, hgap, hne⟩, ['#'], _, ⟨rfl, rfl⟩, gap', _, ⟨rfl, hgap', hne'⟩, word, _,
    hspelling _, comment, ['\n'], hcomment, rfl, rfl⟩

/-- The pattern put together. -/
theorem resultPattern_isSome {status middle text : List Char}
    (hstatus : status ∈ ["ok".toList, "not ok".toList]) (hoff : StandsOff middle)
    (hhash : '#' ∉ middle) (htext : ∃ directive, (directive, ['\n']) ∈ directivePattern text) :
    (resultPattern.first (status ++ (middle ++ text))).isSome := by
  obtain ⟨number, description, between, hnumber, hdescription⟩ := mem_middle hoff hhash text
  obtain ⟨directive, hdirective⟩ := htext
  rw [Pattern.first_isSome]
  simp only [resultPattern, mem_bind, mem_pure, newline, mem_literal]
  refine ⟨_, [], status, middle ++ text, ?_, number, between, hnumber, description, text,
    hdescription, directive, ['\n'], hdirective, ['\n'], [], ⟨rfl, rfl⟩, rfl, rfl⟩
  have hcases : status = "ok".toList ∨ status = "not ok".toList := by simpa using hstatus
  simp only [statusPattern, mem_either, mem_literal]
  rcases hcases with rfl | rfl <;> simp

/-- A line that is recognisable has a match. -/
theorem Recognisable.isSome {line : List Char} (hline : IsLine line) (h : Recognisable line) :
    (resultPattern.first line).isSome := by
  obtain ⟨status, hstatus, rest, rfl, ⟨c, hhead, hc⟩, hlast, hdirective⟩ := h
  have hoff : StandsOff rest := by
    intro d hd
    rw [Option.mem_unique hd hhead]
    exact hc
  obtain ⟨body, rfl⟩ : ∃ body, rest = body ++ ['\n'] := List.getLast?_eq_some_iff.mp hlast
  by_cases hhash : '#' ∈ body
  · obtain ⟨⟨w, hw, hspace⟩, ⟨v, hv, hvspace⟩, word, hword, hfirst⟩ :=
      hdirective (List.mem_append_left _ hhash)
    obtain ⟨front, behind, hsplit, hfront⟩ : ∃ front behind, body = front ++ '#' :: behind
        ∧ '#' ∉ front := List.eq_append_cons_of_mem hhash
    have hcut := @takeWhile_hash front (behind ++ ['\n']) hfront
    have hassoc : front ++ '#' :: behind ++ ['\n'] = front ++ '#' :: (behind ++ ['\n']) := by simp
    rw [hsplit, hassoc, hcut.1] at hw
    rw [hsplit, hassoc, hcut.2, List.tail_cons] at hv hfirst
    obtain ⟨middle, rfl⟩ : ∃ middle, front = middle ++ [w] := List.getLast?_eq_some_iff.mp hw
    obtain ⟨ws, hwords⟩ : ∃ ws, words behind = word :: ws := by
      have heol : words ['\n'] = [] := by decide +kernel
      rw [words_append standsOff_newline, heol, List.append_nil] at hfirst
      exact List.head?_eq_some_iff.mp hfirst
    obtain ⟨gap', tail, rfl, hgap', htail⟩ := words_eq_cons hwords
    have hne' : gap' ≠ [] := by
      intro hnil
      have hisWord := isWord_of_mem_directives hword
      obtain ⟨d, word', hcons⟩ := List.exists_cons_of_ne_nil hisWord.1
      rw [hnil, hcons] at hv
      cases hv
      have hd := hisWord.2 v (by simp [hcons])
      rw [hvspace] at hd
      cases hd
    have hnl : '\n' ∉ tail := by
      intro hmem
      rw [IsLine, ← List.append_assoc, List.dropLast_concat, hsplit] at hline
      exact hline (by simp [hmem])
    have hgap : Blank [w] := by
      intro d hd
      rw [List.mem_singleton.mp hd]
      exact hspace
    have htext := mem_directive hgap (by simp) hgap' hne' hword htail hnl
    have hmiddle : StandsOff middle := by
      rw [hsplit, List.append_assoc, List.append_assoc] at hoff
      exact hoff.of_append
    rw [List.mem_append, not_or] at hfront
    have hrest : body ++ ['\n']
        = middle ++ ([w] ++ '#' :: (gap' ++ (word ++ (tail ++ ['\n'])))) := by simp [hsplit]
    rw [hrest]
    exact resultPattern_isSome hstatus hmiddle hfront.1 htext
  · exact resultPattern_isSome hstatus hoff.of_append hhash ⟨none, none_mem_optional.mpr rfl⟩

/-! ## Readings -/

/-- What a reading says about its line. -/
def Reading.Matches (line : List Char) : Reading → Prop
  | .plan planStop text => planPattern.first line = some (planStop, text)
  | .result groups => resultPattern.first line = some groups
  | .bailOut reason => resultPattern.first line = none ∧ bailOutPattern.first line = some reason
  | .comment => resultPattern.first line = none ∧ (commentPattern.first line).isSome = true
  | .other => resultPattern.first line = none ∧ (commentPattern.first line).isSome = false

theorem readLine_matches (state : Stage) (line : List Char) : (readLine state line).Matches line := by
  unfold readLine
  split
  · rename_i planStop comment hplan
    by_cases hstate : state = .beforePlan
    · rw [if_pos hstate] at hplan
      exact hplan
    · rw [if_neg hstate] at hplan
      cases hplan
  · split
    · assumption
    · rename_i hresult
      split
      · rename_i reason hreason
        exact ⟨hresult, hreason⟩
      · by_cases hcomment : (commentPattern.first line).isSome = true
        · rw [if_pos hcomment]
          exact ⟨hresult, hcomment⟩
        · rw [if_neg hcomment]
          exact ⟨hresult, by simpa using hcomment⟩

/-- A plan begins with a digit, a result line with a letter. -/
theorem resultPattern_eq_none_of_plan {line : List Char}
    {groups : List Char × Option (List Char)} (h : planPattern.first line = some groups) :
    resultPattern.first line = none := by
  by_contra hne
  obtain ⟨groups', hgroups'⟩ := Option.ne_none_iff_exists'.mp hne
  obtain ⟨rest, hmem⟩ := Pattern.mem_of_first h
  obtain ⟨rest', hmem'⟩ := Pattern.mem_of_first hgroups'
  obtain ⟨hstatus, middle, text, directive, hsplit, -⟩ := mem_resultPattern hmem'
  simp only [planPattern, mem_bind, mem_many1] at hmem
  obtain ⟨digits, behind, ⟨hline, hall, hne⟩, -⟩ := hmem
  obtain ⟨d, digits, rfl⟩ := List.exists_cons_of_ne_nil hne
  have hd : isDecimal d = true := hall d List.mem_cons_self
  have hcases : groups'.status = "ok".toList ∨ groups'.status = "not ok".toList := by
    simpa using hstatus
  rw [hline] at hsplit
  rcases hcases with hok | hok
  · rw [hok] at hsplit
    obtain ⟨rfl, -⟩ := List.cons.inj hsplit
    revert hd
    decide
  · rw [hok] at hsplit
    obtain ⟨rfl, -⟩ := List.cons.inj hsplit
    revert hd
    decide

/-- A result line is no plan, so that the stage does not matter. -/
theorem readLine_resultLine (state : Stage) (line : List Char) :
    (readLine state line).resultLine = resultPattern.first line := by
  have hmatches := readLine_matches state line
  cases hread : readLine state line with
  | plan planStop comment =>
    rw [hread] at hmatches
    exact (resultPattern_eq_none_of_plan hmatches).symm
  | result groups =>
    rw [hread] at hmatches
    exact hmatches.symm
  | bailOut reason =>
    rw [hread] at hmatches
    exact hmatches.1.symm
  | comment =>
    rw [hread] at hmatches
    exact hmatches.1.symm
  | other =>
    rw [hread] at hmatches
    exact hmatches.1.symm

theorem readings_resultLine (state : Stage) (tap : List (List Char)) :
    (readings state tap).filterMap Reading.resultLine = tap.filterMap resultPattern.first := by
  induction tap generalizing state with
  | nil => rfl
  | cons line tap ih =>
    rw [readings, List.filterMap_cons, List.filterMap_cons, readLine_resultLine, ih]

/-- The lines that the pattern takes are the result lines that are recognisable. -/
theorem isSome_iff {line : List Char} (hline : IsLine line) :
    (resultPattern.first line).isSome ↔ Recognisable line := by
  constructor
  · intro h
    obtain ⟨groups, rest, hmem⟩ := Pattern.first_isSome.mp h
    exact (recognisable_of_mem hline hmem).1
  · exact fun h => h.isSome hline

theorem first_eq_some {line : List Char} (hline : IsLine line) {groups : ResultLine}
    (h : resultPattern.first line = some groups) :
    IsResultLine line ∧ groups.testStatus = lineStatus line := by
  obtain ⟨rest, hmem⟩ := Pattern.mem_of_first h
  exact (recognisable_of_mem hline hmem).2

/-! ## Scripts -/

/-- The tests of the result lines, as they are emitted. -/
def lineTests (events : List StatusEvent) : List Test :=
  (tests events).filter fun test => !test.missing

/-- Every result line is reported, in its place and with its status. -/
def ResultsKept (tap : List (List Char)) : Prop :=
  (lineTests (emitted tap)).map Test.testStatus
    = (tap.filter fun line => IsResultLine line).map fun line => some (lineStatus line)

/-- No packet up to that of the last result line is too long. -/
def EarlyFits (events : List StatusEvent) : Prop :=
  ∀ front e behind, events = front ++ e :: behind → lineTests [e] ≠ [] → ∀ x ∈ front ++ [e], Fits x

theorem lineTests_append (xs ys : List StatusEvent) :
    lineTests (xs ++ ys) = lineTests xs ++ lineTests ys := by
  rw [lineTests, tests_append, List.filter_append]
  rfl

theorem lineTests_cons (e : StatusEvent) (events : List StatusEvent) :
    lineTests (e :: events) = lineTests [e] ++ lineTests events :=
  lineTests_append [e] events

theorem exists_lineTest {events : List StatusEvent} (h : lineTests events ≠ []) :
    ∃ front e behind, events = front ++ e :: behind ∧ lineTests [e] ≠ [] := by
  induction events with
  | nil => exact absurd rfl h
  | cons e events ih =>
    by_cases he : lineTests [e] = []
    · rw [lineTests_cons, he, List.nil_append] at h
      obtain ⟨front, x, behind, rfl, hx⟩ := ih h
      exact ⟨e :: front, x, behind, rfl, hx⟩
    · exact ⟨[], e, events, rfl, he⟩

/-- What is emitted has all tests if the packets up to the last of them fit. -/
theorem lineTests_takeWhile_iff (events : List StatusEvent) :
    lineTests (events.takeWhile fun e => decide (Fits e)) = lineTests events ↔ EarlyFits events := by
  induction events with
  | nil => simp [EarlyFits]
  | cons e events ih =>
    by_cases hfits : Fits e
    · have hcons : EarlyFits (e :: events) ↔ EarlyFits events := by
        constructor
        · intro h front x behind hsplit hx y hy
          exact h (e :: front) x behind (by rw [hsplit]; rfl) hx y (List.mem_cons_of_mem e hy)
        · intro h front x behind hsplit hx
          cases front with
          | nil =>
            obtain ⟨rfl, -⟩ := List.cons.inj hsplit
            simpa using hfits
          | cons y front =>
            obtain ⟨rfl, hsplit'⟩ := List.cons.inj hsplit
            rw [List.cons_append, List.forall_mem_cons]
            exact ⟨hfits, h front x behind hsplit' hx⟩
      rw [List.takeWhile_cons, if_pos (by simpa using hfits), lineTests_cons, lineTests_cons e events,
        List.append_cancel_left_eq, ih, hcons]
    · rw [List.takeWhile_cons, if_neg (by simpa using hfits)]
      constructor
      · intro h front x behind hsplit hx
        have hnil : lineTests (front ++ x :: behind) = [] := by
          rw [← hsplit, ← h]
          rfl
        rw [lineTests_append, lineTests_cons] at hnil
        simp [hx] at hnil
      · intro h
        symm
        by_contra hne
        obtain ⟨front, x, behind, hsplit, hx⟩ := exists_lineTest hne
        refine hfits (h front x behind hsplit hx e ?_)
        cases front with
        | nil =>
          obtain ⟨rfl, -⟩ := List.cons.inj hsplit
          exact List.mem_cons_self
        | cons y front =>
          obtain ⟨rfl, -⟩ := List.cons.inj hsplit
          exact List.mem_cons_self

namespace Locals

variable {t : Locals}

/-- The test that is held back is none of the missing ones. -/
theorem lineTests_emitTest : lineTests t.emitTest.1 = t.pending := by
  have hall : ∀ test ∈ t.pending, test.missing = false := by
    cases hname : t.testName with
    | none => simp [pending_of_none hname]
    | some testName =>
      rw [pending_of_some hname]
      cases numberOf testName with
      | none => simp
      | some number => simp
  rw [lineTests, ← pending, List.filter_eq_self]
  intro test htest
  rw [hall test htest]
  rfl

theorem lineTests_missingTests (planStart stop : Nat) :
    lineTests (missingTests planStart stop) = [] := by
  rw [lineTests, tests_missingTests, List.filter_eq_nil_iff]
  intro test htest
  obtain ⟨n, -, rfl⟩ := List.mem_map.mp htest
  simp [missingRow]

/-- The tests of a run that raises nothing are the lines that the pattern takes. -/
theorem lineTests_events (hpos : 0 < t.planStart) {tap : List (List Char)}
    (h : (t.events tap).2 = .ok ()) :
    lineTests (t.events tap).1
      = t.pending ++ (assigned t.planStart (tap.filterMap resultPattern.first)).map lineRow := by
  have hpending : t.pending.filter (fun test => !test.missing) = t.pending := by
    rw [← lineTests_emitTest, lineTests, List.filter_filter]
    simp
  rw [lineTests, tests_events hpos h, List.filter_append, hpending, coming, rows_lines,
    readings_resultLine]

/-- A run that raises has lost a test: the one that was held back. -/
theorem length_lineTests_of_error (hpos : 0 < t.planStart) {tap : List (List Char)}
    (h : (t.events tap).2 ≠ .ok ()) :
    (lineTests (t.events tap).1).length
      ≤ t.pending.length + (tap.filterMap resultPattern.first).length - 1 := by
  induction tap generalizing t with
  | nil => exact absurd rfl h
  | cons line tap ih =>
    rw [List.filterMap_cons, ← readLine_resultLine t.state line]
    cases hline : (t.handle line).2 with
    | error x =>
      obtain ⟨planStop, hread, hzero⟩ := (handle_error_iff hpos line).mp ⟨x, hline⟩
      have hcalls : (t.handle line).1 = [] := by
        simp [handle, hread, plan, hzero, hpos]
      rw [events_of_error hline, hcalls]
      exact Nat.zero_le _
    | ok t' =>
      obtain ⟨hnext, hpos'⟩ := handle_ok hpos hline
      rw [events_of_ok hline] at h ⊢
      have hih := ih hpos' h
      have hstate : (readLine t.state line).ends = false := by
        by_contra hends
        refine h (events_ok_of_state hpos' ?_ tap)
        rw [hnext]
        exact Reading.next_ne (by simpa using hends)
      have hhandles := handles hpos hline
      generalize (t.handle line).1 = calls at hhandles
      rw [lineTests_append]
      cases hhandles with
      | skip planStop text hread hzero => simp [hread, Reading.ends] at hstate
      | plan planStop comment hread hne => simp [hread, Reading.ends] at hstate
      | bailOut reason hread => simp [hread, Reading.ends] at hstate
      | result groups hread =>
        have hcalls : lineTests (t.testLine groups).1 = t.pending := by
          simp only [testLine]
          rw [lineTests_append, lineTests_emitTest, lineTests_missingTests, List.append_nil]
        rw [pending_testLine] at hih
        rw [hcalls, hread]
        simp only [Reading.resultLine, List.length_cons, List.length_nil, List.length_append] at hih ⊢
        omega
      | comment hread =>
        rw [@pending_congr t _ (by rfl) (by rfl)] at hih
        rw [hread]
        exact hih
      | other hread =>
        have hstdOut : lineTests [stdOut line] = [] := rfl
        rw [hstdOut, List.nil_append, hread]
        exact hih

end Locals

/-! ## The result lines -/

section

variable {tap : List (List Char)}

theorem assigned_statuses (next : Nat) (lines : List ResultLine) :
    ((assigned next lines).map lineRow).map Test.testStatus
      = lines.map fun groups => some groups.testStatus := by
  induction lines generalizing next with
  | nil => rfl
  | cons groups rest ih =>
    rw [assigned, List.map_cons, List.map_cons, ih]
    rfl

/-- The pattern takes no more lines than there are result lines. -/
theorem length_filterMap_le (hlines : ∀ line ∈ tap, IsLine line) :
    (tap.filterMap resultPattern.first).length
      ≤ (tap.filter fun line => IsResultLine line).length
    ∧ ((tap.filterMap resultPattern.first).length
        = (tap.filter fun line => IsResultLine line).length →
      ∀ line ∈ tap, IsResultLine line → Recognisable line) := by
  induction tap with
  | nil => simp
  | cons line tap ih =>
    rw [List.forall_mem_cons] at hlines
    obtain ⟨hle, heq⟩ := ih hlines.2
    rw [List.filterMap_cons, List.filter_cons, List.forall_mem_cons]
    cases hfirst : resultPattern.first line with
    | none =>
      dsimp only
      by_cases hlike : IsResultLine line
      · rw [if_pos (by simpa using hlike), List.length_cons]
        exact ⟨by omega, fun h => by omega⟩
      · rw [if_neg (by simpa using hlike)]
        exact ⟨hle, fun h => ⟨fun hl => absurd hl hlike, heq h⟩⟩
    | some groups =>
      have hlike := (first_eq_some hlines.1 hfirst).1
      have hrec : Recognisable line := by
        rw [← isSome_iff hlines.1, hfirst]
        rfl
      rw [if_pos (by simpa using hlike), List.length_cons, List.length_cons]
      exact ⟨by omega, fun h => ⟨fun _ => hrec, heq (by omega)⟩⟩

/-- The statuses, if the pattern takes all of them. -/
theorem filterMap_statuses (hlines : ∀ line ∈ tap, IsLine line)
    (hall : ∀ line ∈ tap, IsResultLine line → Recognisable line) :
    ((tap.filterMap resultPattern.first).map fun groups => some groups.testStatus)
      = (tap.filter fun line => IsResultLine line).map fun line => some (lineStatus line) := by
  induction tap with
  | nil => rfl
  | cons line tap ih =>
    rw [List.forall_mem_cons] at hlines hall
    have ih' := ih hlines.2 hall.2
    rw [List.filterMap_cons, List.filter_cons]
    cases hfirst : resultPattern.first line with
    | none =>
      have hlike : ¬ IsResultLine line := fun hlike => by
        have hsome := (hall.1 hlike).isSome hlines.1
        rw [hfirst] at hsome
        cases hsome
      rw [if_neg (by simpa using hlike)]
      exact ih'
    | some groups =>
      obtain ⟨hlike, hstatus⟩ := first_eq_some hlines.1 hfirst
      rw [if_pos (by simpa using hlike), List.map_cons, List.map_cons, ih', hstatus]

end

/-- **When no result line is lost.** There is none, or the run does not come to a bare
plan for no tests, all result lines are recognisable and no packet up to that of the
last of them is too long. -/
theorem resultsKept_iff {tap : List (List Char)} (hlines : ∀ line ∈ tap, IsLine line) :
    ResultsKept tap
      ↔ (∀ line ∈ tap, ¬ IsResultLine line)
        ∨ (¬ BareZeroPlan tap ∧ (∀ line ∈ tap, IsResultLine line → Recognisable line)
          ∧ EarlyFits (Locals.events {} tap).1) := by
  obtain ⟨hle, heq⟩ := length_filterMap_le hlines
  have hpending : Locals.pending {} = [] := Locals.pending_of_none rfl
  have hsub : (lineTests (emitted tap)).Sublist (lineTests (Locals.events {} tap).1) := by
    rw [emitted_eq]
    exact ((List.takeWhile_sublist _).filterMap testOf).filter _
  have hlost : BareZeroPlan tap → (lineTests (Locals.events {} tap).1).length
      ≤ (tap.filterMap resultPattern.first).length - 1 := by
    intro hbare
    have hraises : (Locals.events {} tap).2 ≠ .ok () := fun hok =>
      (@Locals.events_ok_iff {} Nat.one_pos rfl tap).mp hok hbare
    have hlen := Locals.length_lineTests_of_error Nat.one_pos hraises
    rwa [hpending, List.length_nil, Nat.zero_add] at hlen
  have hfound : ¬ BareZeroPlan tap → (lineTests (Locals.events {} tap).1).map Test.testStatus
      = (tap.filterMap resultPattern.first).map fun groups => some groups.testStatus := by
    intro hbare
    have hok := (@Locals.events_ok_iff {} Nat.one_pos rfl tap).mpr hbare
    rw [Locals.lineTests_events Nat.one_pos hok, hpending, List.nil_append, assigned_statuses]
  by_cases hnone : ∀ line ∈ tap, ¬ IsResultLine line
  · refine iff_of_true ?_ (Or.inl hnone)
    have hlike : (tap.filter fun line => IsResultLine line) = [] := by
      simpa [List.filter_eq_nil_iff] using hnone
    have hlen : (lineTests (Locals.events {} tap).1).length = 0 := by
      rw [hlike, List.length_nil] at hle
      by_cases hbare : BareZeroPlan tap
      · have := hlost hbare
        omega
      · have hmap := congrArg List.length (hfound hbare)
        rw [List.length_map, List.length_map] at hmap
        omega
    rw [List.length_eq_zero_iff.mp hlen] at hsub
    rw [ResultsKept, hlike, List.sublist_nil.mp hsub]
    rfl
  · rw [or_iff_right hnone]
    have hlike : 0 < (tap.filter fun line => IsResultLine line).length := by
      rw [List.length_pos_iff, ne_eq, List.filter_eq_nil_iff]
      simpa using hnone
    by_cases hbare : BareZeroPlan tap
    · -- The test that is held back when the run raises is lost.
      refine iff_of_false ?_ fun hand => hand.1 hbare
      intro hkept
      have hlen := congrArg List.length hkept
      rw [List.length_map, List.length_map] at hlen
      have hemitted := hsub.length_le
      have hrun := hlost hbare
      omega
    · have hmap := hfound hbare
      have hrun := congrArg List.length hmap
      rw [List.length_map, List.length_map] at hrun
      rw [and_iff_right hbare, ResultsKept]
      constructor
      · intro hkept
        have hlen := congrArg List.length hkept
        rw [List.length_map, List.length_map] at hlen
        have hemitted := hsub.length_le
        refine ⟨heq (by omega), ?_⟩
        rw [← lineTests_takeWhile_iff, ← emitted_eq]
        exact hsub.eq_of_length (by omega)
      · intro hand
        obtain ⟨hall, hearly⟩ := hand
        rw [emitted_eq, (lineTests_takeWhile_iff _).mpr hearly, hmap, filterMap_statuses hlines hall]

theorem resultsKept_todo :
    let tap := ["1..2\n".toList, "ok 1 a # TODO b\n".toList, "not ok\n".toList]
    (∀ line ∈ tap, IsLine line)
    ∧ ((∀ line ∈ tap, ¬ IsResultLine line)
      ∨ (¬ BareZeroPlan tap ∧ (∀ line ∈ tap, IsResultLine line → Recognisable line)
        ∧ EarlyFits (Locals.events {} tap).1)) := by
  intro tap
  have hlines : ∀ line ∈ tap, IsLine line := by simp [tap, IsLine]
  have hkept : ResultsKept tap := by
    rw [ResultsKept, emitted_eq]
    decide +kernel
  exact ⟨hlines, (resultsKept_iff hlines).mp hkept⟩

/-- A last line without newline. -/
theorem result_without_newline_lost :
    (∀ line ∈ ["1..1\n".toList, "ok".toList], IsLine line)
    ∧ ¬ ResultsKept ["1..1\n".toList, "ok".toList] := by
  refine ⟨by simp [IsLine], ?_⟩
  rw [ResultsKept, emitted_eq]
  decide +kernel

end Pysubunit.Tap
