/-
Pysubunit.Tap.DiagnosticTheorems — what becomes of the diagnostics of a script.

The diagnostics are the comment lines, the comments of directives and the comment
of a plan for no tests. A line of the script moves them: into the log, from the log
into an attachment, or, for a plan, past the log (`handle_moves`). What the
patterns do not take is lost, and so is the log of a script without a test
(`diagnosticsConserved_iff`).

The comment of a directive is the one group whose text depends on how the matcher
backtracks: whitespace in front of it is never part of it (`first_directive`).
-/
import Pysubunit.Tap.ResultLineTheorems

namespace Pysubunit.Tap

open ByteLib
open ByteLib.Pattern (literal either optional many many1 mem_bind mem_pure mem_literal mem_either
  mem_many mem_many1 some_mem_optional none_mem_optional first_bind first_optional first_many
  first_many1)
open V2 (StatusEvent TestStatus PartialWrites OutputStream byteByByte)

/-! ## Diagnostics -/

/-- A line that begins with `#`. -/
def IsComment (line : List Char) : Prop := line.head? = some '#'

instance (line : List Char) : Decidable (IsComment line) := inferInstanceAs (Decidable (_ = _))

/-- What stands behind the word of a directive that begins here, in any letter case. -/
def behindDirective : List Char → Option (List Char)
  | c :: '#' :: behind =>
    let word := ((words behind).head?.getD []).map Char.toLower
    if isSpaceChar c = true ∧ behind.head?.all isSpaceChar = true
        ∧ (word = "todo".toList ∨ word = "skip".toList) then
      some ((behind.dropWhile isSpaceChar).dropWhile fun c => !isSpaceChar c)
    else none
  | _ => none

/-- The comment of the first directive of a line. -/
def commentOfDirective (line : List Char) : Option (List Char) :=
  (line.tails.findSome? behindDirective).bind fun tail =>
    let text := tail.takeWhile (· ≠ '\n')
    if text = [] then none else some (text.dropWhile isSpaceChar)

/-- The comment of a plan for no tests. -/
def Reading.skipComment : Reading → Option (List Char)
  | .plan planStop text => if intOfDigits planStop = 0 then text else none
  | _ => none

/-- The line is a result or a bail-out, which begin a test. -/
def Reading.isTest : Reading → Bool
  | .result _ => true
  | .bailOut _ => true
  | _ => false

/-- The diagnostic of a line. -/
def diagnostic (state : Stage) (line : List Char) : Option (List Char) :=
  if IsComment line then some (line.takeWhile (· ≠ '\n'))
  else if IsResultLine line then commentOfDirective line
  else (readLine state line).skipComment

/-- The diagnostics of a script, in order. -/
def diagnostics : Stage → List (List Char) → List (List Char)
  | _, [] => []
  | state, line :: tap =>
    (diagnostic state line).toList ++ diagnostics ((readLine state line).next state) tap

/-- The diagnostics in the `tap comment` of an event. -/
def attachment (e : StatusEvent) : List Bytes :=
  if e.fileName = some "tap comment" then (e.fileBytes.getD []).splitOn 10 else []

/-- The diagnostics that are emitted. -/
def attachments (events : List StatusEvent) : List Bytes := events.flatMap attachment

/-- What is held back behind a line, and whether a test is. A test that begins lets the
diagnostics go that stand behind the test before it. -/
def hold (held : Bool × List (List Char)) (line : List Char) : Bool × List (List Char) :=
  if (readLine .beforePlan line).isTest then
    (true, (if held.1 then [] else held.2) ++ (diagnostic .beforePlan line).toList)
  else (held.1, held.2 ++ (diagnostic .beforePlan line).toList)

/-- A plan for no tests that nothing ends the first stage ahead of finds what its comment
says held back, and nothing else. -/
def InOrderFrom (held : Bool × List (List Char)) (tap : List (List Char)) : Prop :=
  ∀ front line behind text, tap = front ++ line :: behind →
    (∀ l ∈ front, (readLine .beforePlan l).ends = false) →
    (readLine .beforePlan line).skipComment = some text →
    ∀ entry ∈ (front.foldl hold held).2, entry = text

/-- The plan for no tests overtakes no other diagnostic. -/
def PlanInOrder (tap : List (List Char)) : Prop := InOrderFrom (false, []) tap

/-! ## The comment of a directive -/

/-- The comment is what stands behind the whitespace. -/
theorem first_directiveComment {β : Type} {tail : List Char} (hne : tail ≠ [])
    (hoff : StandsOff tail) (hnl : '\n' ∉ tail) (g : Option (List Char) → β) :
    (directiveComment >>= fun comment => newline >>= fun _ => pure (g comment)).first
        (tail ++ ['\n'])
      = some (g (some (tail.dropWhile isSpaceChar))) := by
  have hsplit : tail.takeWhile isSpaceChar ++ tail.dropWhile isSpaceChar = tail :=
    List.takeWhile_append_dropWhile
  have hgap : ∀ c ∈ tail.takeWhile isSpaceChar, isSpaceChar c = true :=
    fun c hc => List.mem_takeWhile_imp hc
  have hgapNe : tail.takeWhile isSpaceChar ≠ [] := by
    obtain ⟨c, tail, rfl⟩ := List.exists_cons_of_ne_nil hne
    have hc : isSpaceChar c = true := hoff c rfl
    simp [hc]
  have hstop : ∀ c ∈ (tail.dropWhile isSpaceChar).head?, isSpaceChar c = false := by
    intro c hc
    have hhead := List.head?_dropWhile_not isSpaceChar tail
    rw [Option.mem_def.mp hc] at hhead
    simpa using hhead
  have hnl' : '\n' ∉ tail.dropWhile isSpaceChar := fun hmem =>
    hnl ((List.dropWhile_suffix _).mem hmem)
  generalize tail.takeWhile isSpaceChar = gap at hsplit hgap hgapNe
  generalize tail.dropWhile isSpaceChar = text at hsplit hstop hnl' ⊢
  have htext : ∀ comment, (newline >>= fun _ => pure (g (some comment))).first ['\n']
      = some (g (some comment)) := fun comment => rfl
  have hdots : (many isDot >>= fun comment => newline >>= fun _ => pure (g (some comment))).first
      (text ++ ['\n']) = some (g (some text)) := by
    refine first_many ?_ (htext text) ?_
    · intro c hc
      simp only [isDot, bne_iff_ne, ne_eq]
      intro heq
      exact hnl' (heq ▸ hc)
    · intro c more hrest hcne hall
      obtain ⟨d, c, rfl⟩ := List.exists_cons_of_ne_nil hcne
      obtain ⟨rfl, -⟩ := List.cons.inj hrest
      have hd := hall '\n' List.mem_cons_self
      exact absurd hd (by decide)
  rw [directiveComment, first_optional, bind_assoc, ← hsplit, List.append_assoc,
    first_many1 hgap hgapNe hdots, Option.some_or]
  -- Whitespace that goes on is the newline, behind which none is left.
  intro c more hrest hcne hall
  obtain ⟨d, c, rfl⟩ := List.exists_cons_of_ne_nil hcne
  have hd := hall d List.mem_cons_self
  cases text with
  | nil =>
    obtain ⟨rfl, hnil⟩ := List.cons.inj hrest
    have hmore : more = [] := (List.append_eq_nil_iff.mp hnil.symm).2
    rw [hmore]
    rfl
  | cons x text =>
    obtain ⟨rfl, -⟩ := List.cons.inj hrest
    rw [hstop x rfl] at hd
    cases hd

theorem IsLine.of_append {front behind : List Char} (h : IsLine (front ++ behind)) :
    IsLine behind := by
  cases behind with
  | nil => simp [IsLine]
  | cons c behind =>
    rw [IsLine, List.dropLast_append_of_ne_nil (List.cons_ne_nil c behind), List.mem_append, not_or] at h
    exact h.2

/-- A directive as it stands in a line, with its word and its comment. -/
structure DirectiveAt (s word : List Char) (comment : Option (List Char)) : Prop where
  mem_directives : word ∈ directives
  shape : ∃ gap gap' tail, s = gap ++ '#' :: (gap' ++ (word ++ (tail ++ ['\n'])))
    ∧ (Blank gap ∧ gap ≠ []) ∧ (Blank gap' ∧ gap' ≠ []) ∧ StandsOff tail ∧ '\n' ∉ tail
    ∧ comment = if tail = [] then none else some (tail.dropWhile isSpaceChar)

theorem CommentText.standsOff {tail : List Char} {comment : Option (List Char)}
    (h : CommentText tail comment) : StandsOff tail := by
  cases comment with
  | none =>
    have hnil : tail = [] := h
    rw [hnil]
    simp [StandsOff]
  | some comment =>
    obtain ⟨gap, rfl, hblank, hne⟩ := h
    obtain ⟨c, gap, rfl⟩ := List.exists_cons_of_ne_nil hne
    exact hblank.standsOff

/-- How the match ends: at once, or with a directive. -/
theorem first_directive {β : Type} {g : Option (List Char × Option (List Char)) → β} {s : List Char}
    {b : β} (hline : IsLine s)
    (h : (directivePattern >>= fun directive => newline >>= fun _ => pure (g directive)).first s
      = some b) :
    (s = ['\n'] ∧ b = g none) ∨ ∃ word comment, DirectiveAt s word comment ∧ b = g (some (word, comment)) := by
  rw [directivePattern, first_optional] at h
  simp only [bind_assoc, pure_bind] at h
  rcases Option.or_eq_some_iff.mp h with h | ⟨-, h⟩
  · right
    obtain ⟨gap, s1, hgap, h1⟩ := first_bind h
    obtain ⟨hash, s2, hhash, h2⟩ := first_bind h1
    obtain ⟨gap', s3, hgap', h3⟩ := first_bind h2
    obtain ⟨word, s4, hword, h4⟩ := first_bind h3
    rw [mem_many1] at hgap hgap'
    rw [mem_literal] at hhash
    obtain ⟨rfl, hblank⟩ := hgap
    obtain ⟨rfl, rfl⟩ := hhash
    obtain ⟨rfl, hblank'⟩ := hgap'
    obtain ⟨hspelling, rfl⟩ := mem_directiveWord hword
    obtain ⟨rest, hmem⟩ := Pattern.mem_of_first h4
    simp only [mem_bind, mem_pure, newline, mem_literal] at hmem
    obtain ⟨comment, s5, hcomment, -, s6, ⟨-, rfl⟩, hb, rfl⟩ := hmem
    obtain ⟨tail, rfl, htail⟩ := mem_directiveComment hcomment
    have hline' := hline.of_append.of_append.of_append.of_append
    have hrest : rest = [] := hline'.rest_eq_nil
    rw [hrest, List.append_nil] at h4 hline' ⊢
    have hnl : '\n' ∉ tail := by
      rwa [IsLine, List.dropLast_concat] at hline'
    refine ⟨word, if tail = [] then none else some (tail.dropWhile isSpaceChar), ⟨hspelling, gap,
      gap', tail, rfl, hblank, hblank', htail.standsOff, hnl, rfl⟩, ?_⟩
    by_cases hnil : tail = []
    · rw [if_pos hnil, hb]
      cases comment with
      | none => rfl
      | some comment =>
        obtain ⟨gap'', htail', -, hne⟩ := htail
        rw [hnil] at htail'
        exact absurd (List.append_eq_nil_iff.mp htail'.symm).1 hne
    · have hfirst := first_directiveComment hnil htail.standsOff hnl fun comment => g (some (word, comment))
      rw [h4] at hfirst
      rw [if_neg hnil]
      exact Option.some.inj hfirst
  · left
    obtain ⟨rest, hmem⟩ := Pattern.mem_of_first h
    simp only [mem_bind, mem_pure, newline, mem_literal] at hmem
    obtain ⟨-, s1, ⟨-, rfl⟩, hb, rfl⟩ := hmem
    have hrest : rest = [] := @IsLine.rest_eq_nil [] rest hline
    exact ⟨by rw [hrest]; rfl, hb⟩

theorem behindDirective_eq_none {c : Char} {cs : List Char} (h : cs.head? ≠ some '#') :
    behindDirective (c :: cs) = none := by
  unfold behindDirective
  split
  · rename_i heq
    obtain ⟨-, rfl⟩ := List.cons.inj heq
    exact absurd rfl h
  · rfl

/-- What stands in front of a directive begins none. -/
theorem findSome_behindDirective {front cs : List Char} {c : Char} (hfront : '#' ∉ front)
    (hc : c ≠ '#') :
    (front ++ c :: cs).tails.findSome? behindDirective = (c :: cs).tails.findSome? behindDirective := by
  induction front with
  | nil => rfl
  | cons d front ih =>
    rw [List.mem_cons, not_or] at hfront
    rw [List.cons_append, List.tails_cons, List.findSome?_cons, behindDirective_eq_none, ih hfront.2]
    cases front with
    | nil => simpa using hc
    | cons e front =>
      rw [List.mem_cons, not_or] at hfront
      simpa using Ne.symm hfront.2.1

theorem findSome_behindDirective_none {cs : List Char} (h : '#' ∉ cs) :
    cs.tails.findSome? behindDirective = none := by
  induction cs with
  | nil => rfl
  | cons c cs ih =>
    rw [List.mem_cons, not_or] at h
    rw [List.tails_cons, List.findSome?_cons, behindDirective_eq_none, ih h.2]
    intro hhead
    exact h.2 (List.mem_of_mem_head? hhead)

/-- What stands behind the word of a directive. -/
theorem behindDirective_eq {c : Char} {gap' word tail : List Char} (hc : isSpaceChar c = true)
    (hgap' : Blank gap') (hne' : gap' ≠ []) (hword : word ∈ directives) (hoff : StandsOff tail) :
    behindDirective (c :: '#' :: (gap' ++ (word ++ (tail ++ ['\n'])))) = some (tail ++ ['\n']) := by
  have hback : StandsOff (tail ++ ['\n']) := hoff.append standsOff_newline
  have hisWord := isWord_of_mem_directives hword
  have hwords : words (gap' ++ (word ++ (tail ++ ['\n']))) = word :: words (tail ++ ['\n']) := by
    rw [words_blank_append hgap', words_append hback, words_of_isWord hisWord]
    rfl
  have hhead : (gap' ++ (word ++ (tail ++ ['\n']))).head?.all isSpaceChar = true := by
    obtain ⟨d, gap', rfl⟩ := List.exists_cons_of_ne_nil hne'
    exact hgap' d List.mem_cons_self
  have hlower : word.map Char.toLower = "todo".toList ∨ word.map Char.toLower = "skip".toList := by
    have hcases : word = "TODO".toList ∨ word = "SKIP".toList ∨ word = "skip".toList
        ∨ word = "todo".toList := by simpa [directives] using hword
    rcases hcases with rfl | rfl | rfl | rfl <;> simp
  have hdrop : (gap' ++ (word ++ (tail ++ ['\n']))).dropWhile isSpaceChar = word ++ (tail ++ ['\n']) := by
    rw [List.dropWhile_append_of_pos hgap']
    obtain ⟨d, word, rfl⟩ := List.exists_cons_of_ne_nil hisWord.1
    have hd := hisWord.2 d List.mem_cons_self
    simp [hd]
  have hdrop' : (word ++ (tail ++ ['\n'])).dropWhile (fun c => !isSpaceChar c) = tail ++ ['\n'] := by
    rw [List.dropWhile_append_of_pos fun d hd => by simp [hisWord.2 d hd]]
    cases hcs : tail ++ ['\n'] with
    | nil => rfl
    | cons d cs =>
      rw [hcs] at hback
      have hd : isSpaceChar d = true := hback d rfl
      simp [hd]
  simp only [behindDirective]
  rw [hwords, List.head?_cons, Option.getD_some, if_pos ⟨hc, hhead, hlower⟩, hdrop, hdrop']

/-- The comment of a line with a directive. -/
theorem commentOfDirective_eq {front s word : List Char} {comment : Option (List Char)}
    (hfront : '#' ∉ front) (h : DirectiveAt s word comment) :
    commentOfDirective (front ++ s) = comment := by
  obtain ⟨hword, gap, gap', tail, rfl, ⟨hgap, hne⟩, ⟨hgap', hne'⟩, hoff, hnl, rfl⟩ := h
  obtain ⟨gap, c, rfl⟩ : ∃ gap0 c, gap = gap0 ++ [c] :=
    ⟨gap.dropLast, gap.getLast hne, (List.dropLast_append_getLast hne).symm⟩
  have hspace : isSpaceChar c = true := hgap c (by simp)
  have hc : c ≠ '#' := by
    intro heq
    rw [heq] at hspace
    exact absurd hspace (by decide)
  have hbehind := behindDirective_eq hspace hgap' hne' hword hoff
  have hsplit : front ++ (gap ++ [c] ++ '#' :: (gap' ++ (word ++ (tail ++ ['\n']))))
      = (front ++ gap) ++ c :: '#' :: (gap' ++ (word ++ (tail ++ ['\n']))) := by simp
  have hfront' : '#' ∉ front ++ gap := by
    rw [List.mem_append, not_or]
    exact ⟨hfront, fun hmem => hash_not_mem_blank hgap (List.mem_append_left _ hmem)⟩
  rw [commentOfDirective, hsplit, findSome_behindDirective hfront' hc, List.tails_cons,
    List.findSome?_cons, hbehind]
  have htail : (tail ++ ['\n']).takeWhile (fun c => decide (c ≠ '\n')) = tail := by
    rw [List.takeWhile_append_of_pos]
    · simp
    · intro d hd
      simp only [decide_eq_true_eq]
      intro heq
      exact hnl (heq ▸ hd)
  simp only [Option.bind_some]
  rw [htail]

/-- What the first match adds to the log. -/
theorem logged_eq {line : List Char} {groups : ResultLine} (hline : IsLine line)
    (h : resultPattern.first line = some groups) :
    groups.logged = (commentOfDirective line).toList := by
  unfold resultPattern at h
  obtain ⟨status, s1, hstatus, h1⟩ := first_bind h
  obtain ⟨number, s2, hnumber, h2⟩ := first_bind h1
  obtain ⟨description, s3, hdescription, h3⟩ := first_bind h2
  obtain ⟨part, rfl, -, hhash⟩ := mem_numberPattern hnumber
  obtain ⟨part', rfl, -, hhash'⟩ := mem_descriptionPattern hdescription
  have hfront : '#' ∉ status ++ (part ++ part') ∧ line = status ++ (part ++ part') ++ s3 := by
    simp only [statusPattern, mem_either, mem_literal] at hstatus
    simp only [List.mem_append, not_or]
    rcases hstatus with ⟨rfl, rfl⟩ | ⟨rfl, rfl⟩
    · exact ⟨⟨by decide, hhash, hhash'⟩, by simp⟩
    · exact ⟨⟨by decide, hhash, hhash'⟩, by simp⟩
  obtain ⟨hfront, rfl⟩ := hfront
  rcases first_directive hline.of_append h3 with ⟨rfl, rfl⟩ | ⟨word, comment, hdirective, rfl⟩
  · have hnone : '#' ∉ status ++ (part ++ part') ++ ['\n'] := by
      rw [List.mem_append, not_or]
      exact ⟨hfront, by decide⟩
    rw [commentOfDirective, findSome_behindDirective_none hnone]
    rfl
  · rw [commentOfDirective_eq hfront hdirective]
    rfl

/-! ## Lines -/

/-- A digit is no whitespace. -/
theorem isSpaceChar_of_isDecimal {c : Char} (h : isDecimal c = true) : isSpaceChar c = false := by
  have hall : decimalZeros.all fun z => (List.range 10).all fun k =>
      !isSpaceChar (Char.ofNat (z + k)) := by decide +kernel
  obtain ⟨value, hvalue⟩ := Option.isSome_iff_exists.mp h
  obtain ⟨z, hz, -⟩ := Option.map_eq_some_iff.mp hvalue
  have hrange := List.find?_some hz
  simp only [Bool.and_eq_true, decide_eq_true_eq] at hrange
  have hmem := List.all_eq_true.mp (List.all_eq_true.mp hall z (List.mem_of_find?_eq_some hz))
    (c.toNat - z) (List.mem_range.mpr (by omega))
  have hsum : z + (c.toNat - z) = c.toNat := by omega
  rw [hsum, Char.ofNat_toNat] at hmem
  simpa using hmem

/-- A result line begins with whitespace or with its first letter. -/
theorem IsResultLine.head {line : List Char} (h : IsResultLine line) :
    ∃ c ∈ line.head?, isSpaceChar c = true ∨ c = 'o' ∨ c = 'n' := by
  obtain ⟨w, ws, hwords, hw⟩ : ∃ w ws, words line = w :: ws ∧ (w = "ok".toList ∨ w = "not".toList) := by
    cases hwords : words line with
    | nil => simp [IsResultLine, hwords] at h
    | cons w ws =>
      refine ⟨w, ws, rfl, ?_⟩
      rw [IsResultLine, hwords] at h
      rcases h with h | h
      · left
        simpa using h
      · right
        simp only [List.take_succ_cons] at h
        exact (List.cons.inj h).1
  obtain ⟨gap, tail, rfl, hblank, -⟩ := words_eq_cons hwords
  cases gap with
  | cons c gap => exact ⟨c, rfl, Or.inl (hblank c List.mem_cons_self)⟩
  | nil =>
    rcases hw with rfl | rfl
    · exact ⟨'o', rfl, Or.inr (Or.inl rfl)⟩
    · exact ⟨'n', rfl, Or.inr (Or.inr rfl)⟩

/-- The comment lines that the pattern takes are those with a newline. -/
theorem commentPattern_isSome {line : List Char} (hline : IsLine line) :
    (commentPattern.first line).isSome ↔ IsComment line ∧ line.getLast? = some '\n' := by
  rw [Pattern.first_isSome]
  simp only [commentPattern, mem_bind, mem_pure, newline, mem_literal, mem_many]
  constructor
  · intro h
    obtain ⟨-, rest, -, s1, ⟨-, rfl⟩, text, s2, ⟨rfl, -⟩, -, s3, ⟨-, rfl⟩, -, rfl⟩ := h
    have hrest : rest = [] := by
      rw [← List.append_assoc] at hline
      exact hline.rest_eq_nil
    rw [hrest]
    exact ⟨rfl, List.getLast?_eq_some_iff.mpr ⟨'#' :: text, by simp⟩⟩
  · intro h
    obtain ⟨hcomment, hlast⟩ := h
    obtain ⟨body, rfl⟩ : ∃ body, line = body ++ ['\n'] := List.getLast?_eq_some_iff.mp hlast
    rw [IsLine, List.dropLast_concat] at hline
    cases body with
    | nil =>
      have hhead : '\n' = '#' := Option.some.inj hcomment
      exact absurd hhead (by decide)
    | cons c text =>
      have hc : c = '#' := Option.some.inj hcomment
      rw [List.mem_cons, not_or] at hline
      refine ⟨(), [], ['#'], text ++ ['\n'], ⟨rfl, by rw [hc]; rfl⟩, text, ['\n'], ⟨rfl, ?_⟩,
        ['\n'], [], ⟨rfl, rfl⟩, trivial, rfl⟩
      intro d hd
      simp only [isDot, bne_iff_ne, ne_eq]
      intro heq
      exact hline.2 (heq ▸ hd)

/-- The patterns take what there is to the line. -/
def LineKept (line : List Char) : Prop :=
  (IsComment line → line.getLast? = some '\n')
  ∧ (IsResultLine line → commentOfDirective line ≠ none → Recognisable line)

theorem not_isResultLine {line : List Char} {c : Char} (hhead : line.head? = some c)
    (hspace : isSpaceChar c = false) (ho : c ≠ 'o') (hn : c ≠ 'n') : ¬ IsResultLine line := by
  intro h
  obtain ⟨d, hd, hcases⟩ := h.head
  rw [hhead] at hd
  cases hd
  rcases hcases with h | h | h
  · rw [hspace] at h
    cases h
  · exact ho h
  · exact hn h

theorem IsComment.not_isResultLine {line : List Char} (h : IsComment line) : ¬ IsResultLine line :=
  Tap.not_isResultLine h (by decide) (by decide) (by decide)

/-- A plan or a bail-out is neither a comment nor a result line. -/
theorem Reading.Matches.ends {line : List Char} {r : Reading} (h : r.Matches line)
    (hends : r.ends = true) : ¬ IsComment line ∧ ¬ IsResultLine line := by
  have hhead : ∃ c, line.head? = some c ∧ isSpaceChar c = false ∧ c ≠ '#' ∧ c ≠ 'o' ∧ c ≠ 'n' := by
    cases r with
    | plan planStop text =>
      obtain ⟨rest, hmem⟩ := Pattern.mem_of_first h
      simp only [planPattern, mem_bind, mem_many1] at hmem
      obtain ⟨digits, behind, ⟨rfl, hall, hne⟩, -⟩ := hmem
      obtain ⟨d, digits, rfl⟩ := List.exists_cons_of_ne_nil hne
      have hd : isDecimal d = true := hall d List.mem_cons_self
      refine ⟨d, rfl, isSpaceChar_of_isDecimal hd, ?_, ?_, ?_⟩
      · rintro rfl
        exact absurd hd (by decide)
      · rintro rfl
        exact absurd hd (by decide)
      · rintro rfl
        exact absurd hd (by decide)
    | bailOut reason =>
      obtain ⟨rest, hmem⟩ := Pattern.mem_of_first h.2
      simp only [bailOutPattern, mem_bind, mem_literal] at hmem
      obtain ⟨-, behind, ⟨-, rfl⟩, -⟩ := hmem
      exact ⟨'B', rfl, by decide, by decide, by decide, by decide⟩
    | result groups => cases hends
    | comment => cases hends
    | other => cases hends
  obtain ⟨c, hc, hspace, hhash, ho, hn⟩ := hhead
  refine ⟨?_, not_isResultLine hc hspace ho hn⟩
  intro hcomment
  rw [IsComment, hc] at hcomment
  exact hhash (Option.some.inj hcomment)

/-! ## The diagnostic of a reading -/

/-- The comment of a plan is on its line. -/
theorem newline_not_mem_skipComment {line text : List Char} {state : Stage}
    (h : (readLine state line).skipComment = some text) : '\n' ∉ text := by
  have hmatches := readLine_matches state line
  cases hread : readLine state line with
  | plan planStop comment =>
    rw [hread] at h hmatches
    have hcomment : comment = some text := by
      simp only [Reading.skipComment] at h
      split at h
      · exact h
      · cases h
    rw [hcomment] at hmatches
    obtain ⟨rest, hmem⟩ := Pattern.mem_of_first hmatches
    simp only [planPattern, mem_bind, mem_pure] at hmem
    obtain ⟨_, _, _, _, _, _, _, _, _, _, _, _, group, s1, hgroup, _, _, _, heq, _⟩ := hmem
    obtain ⟨-, rfl⟩ := Prod.mk.inj heq
    simp only [some_mem_optional, mem_bind, mem_many] at hgroup
    obtain ⟨_, _, _, _, _, _, _, hall⟩ := hgroup
    intro hmem'
    exact absurd (hall '\n' hmem') (by decide)
  | result groups =>
    rw [hread] at h
    cases h
  | bailOut reason =>
    rw [hread] at h
    cases h
  | comment =>
    rw [hread] at h
    cases h
  | other =>
    rw [hread] at h
    cases h

theorem newline_not_mem_commentOfDirective {line text : List Char}
    (h : commentOfDirective line = some text) : '\n' ∉ text := by
  obtain ⟨tail, -, htail⟩ := Option.bind_eq_some_iff.mp h
  intro hmem
  dsimp only at htail
  split at htail
  · cases htail
  · cases htail
    have hnl := List.mem_takeWhile_imp ((List.dropWhile_suffix _).mem hmem)
    simp at hnl

/-- A diagnostic is a single line. -/
theorem newline_not_mem_diagnostic {state : Stage} {line text : List Char}
    (h : diagnostic state line = some text) : '\n' ∉ text := by
  unfold diagnostic at h
  split at h
  · cases h
    intro hmem
    have hnl := List.mem_takeWhile_imp hmem
    simp at hnl
  · split at h
    · exact newline_not_mem_commentOfDirective h
    · exact newline_not_mem_skipComment h

theorem Reading.ends_of_skipComment {r : Reading} {text : List Char}
    (h : r.skipComment = some text) : r.ends = true := by
  cases r with
  | plan planStop comment => rfl
  | bailOut reason => rfl
  | result groups => cases h
  | comment => cases h
  | other => cases h

/-- Behind the first stage there is no plan. -/
theorem skipComment_eq_none {state : Stage} (h : state ≠ .beforePlan) (line : List Char) :
    (readLine state line).skipComment = none := by
  cases hread : readLine state line with
  | plan planStop text => exact absurd hread (readLine_ne_plan h line planStop text)
  | result groups => rfl
  | bailOut reason => rfl
  | comment => rfl
  | other => rfl

section

variable {state : Stage} {line : List Char}

theorem diagnostic_of_ends (h : (readLine state line).ends = true) :
    diagnostic state line = (readLine state line).skipComment ∧ LineKept line := by
  obtain ⟨hcomment, hresult⟩ := (readLine_matches state line).ends h
  refine ⟨?_, fun hc => absurd hc hcomment, fun hr => absurd hr hresult⟩
  rw [diagnostic, if_neg hcomment, if_neg hresult]

theorem diagnostic_of_result (hline : IsLine line) {groups : ResultLine}
    (h : readLine state line = .result groups) :
    (diagnostic state line).toList = groups.logged ∧ LineKept line := by
  have hfirst : resultPattern.first line = some groups := by
    have hmatches := readLine_matches state line
    rwa [h] at hmatches
  have hresult := (first_eq_some hline hfirst).1
  have hcomment : ¬ IsComment line := fun hcomment => hcomment.not_isResultLine hresult
  have hrec : Recognisable line := by
    rw [← isSome_iff hline, hfirst]
    rfl
  refine ⟨?_, fun hc => absurd hc hcomment, fun _ _ => hrec⟩
  rw [diagnostic, if_neg hcomment, if_pos hresult, logged_eq hline hfirst]

theorem diagnostic_of_comment (hline : IsLine line) (h : readLine state line = .comment) :
    IsComment line ∧ diagnostic state line = some line.dropLast ∧ LineKept line := by
  have hmatches := readLine_matches state line
  rw [h] at hmatches
  obtain ⟨hcomment, hlast⟩ := (commentPattern_isSome hline).mp hmatches.2
  refine ⟨hcomment, ?_, fun _ => hlast, fun hr => absurd hr hcomment.not_isResultLine⟩
  rw [diagnostic, if_pos hcomment]
  obtain ⟨body, rfl⟩ : ∃ body, line = body ++ ['\n'] := List.getLast?_eq_some_iff.mp hlast
  rw [IsLine, List.dropLast_concat] at hline
  rw [List.dropLast_concat, List.takeWhile_append_of_pos]
  · simp
  · intro c hc
    simp only [decide_eq_true_eq]
    intro heq
    exact hline (heq ▸ hc)

/-- Text that no pattern takes is lost if it has a diagnostic. -/
theorem diagnostic_of_other (hline : IsLine line) (h : readLine state line = .other) :
    diagnostic state line = none ↔ LineKept line := by
  have hmatches := readLine_matches state line
  rw [h] at hmatches
  have hcomment : IsComment line → line.getLast? ≠ some '\n' := by
    intro hcomment hlast
    have hsome := (commentPattern_isSome hline).mpr ⟨hcomment, hlast⟩
    rw [hmatches.2] at hsome
    cases hsome
  have hresult : ¬ Recognisable line := by
    rw [← isSome_iff hline, hmatches.1]
    simp
  unfold diagnostic LineKept
  rw [h]
  by_cases hc : IsComment line
  · simp [hc, hcomment hc]
  · by_cases hr : IsResultLine line
    · simp [hc, hr, hresult]
    · simp [hc, hr, Reading.skipComment]

/-- A line that is kept, is no test and is no plan for no tests, has its diagnostic from
a comment. -/
theorem isComment_of_diagnostic {text : List Char} (hline : IsLine line) (hkept : LineKept line)
    (htest : (readLine state line).isTest = false)
    (hskip : (readLine state line).skipComment = none) (h : diagnostic state line = some text) :
    IsComment line := by
  cases hread : readLine state line with
  | plan planStop comment =>
    rw [(diagnostic_of_ends (by rw [hread]; rfl)).1, hskip] at h
    cases h
  | bailOut reason =>
    rw [(diagnostic_of_ends (by rw [hread]; rfl)).1, hskip] at h
    cases h
  | result groups =>
    rw [hread] at htest
    cases htest
  | comment => exact (diagnostic_of_comment hline hread).1
  | other =>
    rw [(diagnostic_of_other hline hread).mpr hkept] at h
    cases h

end

/-! ## The log -/

namespace Locals

variable {t : Locals}

/-- The entries of the log are single lines. -/
def LogOk (t : Locals) : Prop := ∀ entry ∈ t.log, '\n' ∉ entry

/-- The line begins a test while another one is held back. -/
def emits (t : Locals) (line : List Char) : Bool :=
  (readLine t.state line).isTest && t.testName.isSome

/-- What a line does with its diagnostic and with the log, `out` being what is emitted. -/
inductive Moves (t t' : Locals) (line : List Char) (out : List (List Char)) : Prop
  | kept (hout : out = if t.emits line then t.log else [])
      (hlog : t'.log = (if t.emits line then [] else t.log) ++ (diagnostic t.state line).toList)
      (hline : LineKept line) (hskip : (readLine t.state line).skipComment = none)
  | skipped (text : List Char) (hskip : (readLine t.state line).skipComment = some text)
      (hdiagnostic : diagnostic t.state line = some text) (hout : out = [text])
      (hlog : t'.log = t.log) (hline : LineKept line)
  | lost (text : List Char) (hdiagnostic : diagnostic t.state line = some text) (hout : out = [])
      (hlog : t'.log = t.log) (hline : ¬ LineKept line)

theorem splitOn_encode {text : List Char} (h : '\n' ∉ text) :
    (Utf8.encode text).splitOn 10 = [Utf8.encode text] := by
  have hnl : ∀ b ∈ [Utf8.encode text], 10 ∉ b := by
    intro b hb
    rw [List.mem_singleton.mp hb]
    exact newline_not_mem_encode h
  simpa using List.splitOn_intercalate 10 hnl (by simp)

theorem splitOn_logBytes {log : List (List Char)} (hne : log ≠ []) (h : ∀ entry ∈ log, '\n' ∉ entry) :
    (logBytes log).splitOn 10 = log.map Utf8.encode := by
  refine List.splitOn_intercalate 10 ?_ (by simpa using hne)
  intro b hb
  obtain ⟨entry, hentry, rfl⟩ := List.mem_map.mp hb
  exact newline_not_mem_encode (h entry hentry)

/-- The attachment of a test is the log. -/
theorem attachments_emitTest (hlog : t.LogOk) :
    attachments t.emitTest.1 = (if t.testName.isSome then t.log else []).map Utf8.encode
    ∧ t.emitTest.2.log = if t.testName.isSome then [] else t.log := by
  unfold emitTest
  cases hname : t.testName with
  | none => simp [attachments]
  | some testName =>
    simp only [attachments, List.flatMap_cons, List.flatMap_nil, List.append_nil]
    refine ⟨?_, by simp⟩
    rw [Option.isSome_some, if_pos rfl, testEvent]
    by_cases hempty : t.log = []
    · simp [hempty, attachment]
    · rw [if_neg (by simpa using hempty), attachment, if_pos rfl, Option.getD_some]
      exact splitOn_logBytes hempty hlog

theorem attachments_append (xs ys : List StatusEvent) :
    attachments (xs ++ ys) = attachments xs ++ attachments ys := List.flatMap_append

theorem attachments_missingTests (planStart stop : Nat) :
    attachments (missingTests planStart stop) = [] := by
  rw [attachments, List.flatMap_eq_nil_iff]
  intro e he
  obtain ⟨n, -, rfl⟩ := List.mem_map.mp he
  simp [attachment, missingTest]

/-! ## What a line does -/

/-- **What a line does** with its diagnostic. -/
theorem handle_moves (hpos : 0 < t.planStart) {line : List Char} (hline : IsLine line)
    (hlog : t.LogOk) {t' : Locals} (h : (t.handle line).2 = .ok t') :
    ∃ out, attachments (t.handle line).1 = out.map Utf8.encode ∧ Moves t t' line out := by
  have hhandles := handles hpos h
  generalize (t.handle line).1 = calls at hhandles ⊢
  cases hhandles with
  | skip planStop text hread hzero =>
    obtain ⟨hdiagnostic, hkept⟩ := diagnostic_of_ends (by rw [hread]; rfl)
    have hskip : (readLine t.state line).skipComment = some text := by
      simp [hread, Reading.skipComment, hzero]
    rw [hskip] at hdiagnostic
    refine ⟨[text], ?_, .skipped text hskip hdiagnostic rfl rfl hkept⟩
    simpa [attachments, attachment, fileSkip] using
      splitOn_encode (newline_not_mem_diagnostic hdiagnostic)
  | plan planStop comment hread hne =>
    obtain ⟨hdiagnostic, hkept⟩ := diagnostic_of_ends (by rw [hread]; rfl)
    have hskip : (readLine t.state line).skipComment = none := by
      simp [hread, Reading.skipComment, hne]
    have hemits : t.emits line = false := by simp [emits, hread, Reading.isTest]
    exact ⟨[], rfl, .kept (by simp [hemits]) (by simp [hemits, hdiagnostic, hskip]) hkept hskip⟩
  | result groups hread =>
    obtain ⟨hdiagnostic, hkept⟩ := diagnostic_of_result hline hread
    have hemits : t.emits line = t.testName.isSome := by simp [emits, hread, Reading.isTest]
    obtain ⟨hout, hlog'⟩ := attachments_emitTest hlog
    refine ⟨if t.testName.isSome then t.log else [], ?_, .kept (by rw [hemits]) ?_ hkept (by rw [hread]; rfl)⟩
    · simp only [testLine]
      rw [attachments_append, attachments_missingTests, List.append_nil, hout]
    · rw [hemits, hdiagnostic]
      simp only [testLine]
      rw [hlog']
  | bailOut reason hread =>
    obtain ⟨hdiagnostic, hkept⟩ := diagnostic_of_ends (by rw [hread]; rfl)
    have hskip : (readLine t.state line).skipComment = none := by rw [hread]; rfl
    have hemits : t.emits line = t.testName.isSome := by simp [emits, hread, Reading.isTest]
    obtain ⟨hout, hlog'⟩ := attachments_emitTest hlog
    refine ⟨if t.testName.isSome then t.log else [], hout, .kept (by rw [hemits]) ?_ hkept hskip⟩
    rw [hemits, hdiagnostic, hskip, Option.toList_none, List.append_nil]
    exact hlog'
  | comment hread =>
    obtain ⟨-, hdiagnostic, hkept⟩ := diagnostic_of_comment hline hread
    have hemits : t.emits line = false := by simp [emits, hread, Reading.isTest]
    exact ⟨[], rfl, .kept (by simp [hemits]) (by simp [hemits, hdiagnostic]) hkept (by rw [hread]; rfl)⟩
  | other hread =>
    have hiff := diagnostic_of_other hline hread
    have hemits : t.emits line = false := by simp [emits, hread, Reading.isTest]
    refine ⟨[], rfl, ?_⟩
    by_cases hkept : LineKept line
    · exact .kept (by simp [hemits]) (by simp [hemits, hiff.mpr hkept]) hkept (by rw [hread]; rfl)
    · obtain ⟨text, htext⟩ := Option.ne_none_iff_exists'.mp (mt hiff.mp hkept)
      exact .lost text htext rfl rfl hkept

/-- The test that is held back stays until another one begins. -/
theorem handle_testName (hpos : 0 < t.planStart) {line : List Char} {t' : Locals}
    (h : (t.handle line).2 = .ok t') :
    t'.testName.isSome = ((readLine t.state line).isTest || t.testName.isSome) := by
  have hhandles := handles hpos h
  generalize (t.handle line).1 = calls at hhandles
  cases hhandles with
  | skip planStop text hread hzero => simp [hread, Reading.isTest]
  | plan planStop comment hread hne => simp [hread, Reading.isTest]
  | result groups hread => simp [hread, Reading.isTest, testLine]
  | bailOut reason hread => simp [hread, Reading.isTest, bailOut]
  | comment hread => simp [hread, Reading.isTest]
  | other hread => simp [hread, Reading.isTest]

theorem Moves.logOk {t' : Locals} {line : List Char} {out : List (List Char)}
    (h : Moves t t' line out) (hlog : t.LogOk) : t'.LogOk := by
  intro entry hentry
  cases h with
  | kept hout hlog' hline hskip =>
    rw [hlog', List.mem_append] at hentry
    rcases hentry with hentry | hentry
    · split at hentry
      · cases hentry
      · exact hlog entry hentry
    · exact newline_not_mem_diagnostic (Option.mem_toList.mp hentry)
  | skipped text hskip hdiagnostic hout hlog' hline =>
    rw [hlog'] at hentry
    exact hlog entry hentry
  | lost text hdiagnostic hout hlog' hline =>
    rw [hlog'] at hentry
    exact hlog entry hentry

/-! ## Runs -/

/-- When the plan for no tests is read, the log says what the plan says. -/
def LogInOrder : Locals → List (List Char) → Prop
  | _, [] => True
  | t, line :: tap =>
    (∀ text, (readLine t.state line).skipComment = some text → ∀ entry ∈ t.log, entry = text)
    ∧ ∀ t', (t.handle line).2 = .ok t' → LogInOrder t' tap

/-- There is a test that the log goes to. -/
def HasTest (t : Locals) (tap : List (List Char)) : Prop :=
  t.testName ≠ none ∨ ∃ r ∈ readings t.state tap, r.isTest = true

/-- What it takes for the log and the diagnostics to be emitted in order. -/
structure Conserves (t : Locals) (tap : List (List Char)) : Prop where
  hasTest : t.HasTest tap ∨ (t.log = [] ∧ ∀ line ∈ tap, ¬ IsComment line)
  kept : ∀ line ∈ tap, LineKept line
  logInOrder : t.LogInOrder tap

/-- The end of the script. -/
theorem attachments_finish (hlog : t.LogOk) :
    attachments t.finish = (if t.testName.isSome then t.log else []).map Utf8.encode := by
  rw [finish, attachments_append, attachments_missingTests, List.append_nil]
  exact (attachments_emitTest hlog).1

theorem append_log_of_kept {t' : Locals} {line : List Char} {out : List (List Char)}
    (hout : out = if t.emits line then t.log else [])
    (hlog : t'.log = (if t.emits line then [] else t.log) ++ (diagnostic t.state line).toList) :
    out ++ t'.log = t.log ++ (diagnostic t.state line).toList := by
  rw [hout, hlog]
  split <;> simp

/-- **The first line of a run** moves diagnostics, and the others do what they do behind it. -/
theorem events_cons_moves (hpos : 0 < t.planStart) {line : List Char} {tap : List (List Char)}
    (hline : IsLine line) (hlog : t.LogOk) (h : (t.events (line :: tap)).2 = .ok ()) :
    ∃ t' out, (t.handle line).2 = .ok t' ∧ (t'.events tap).2 = .ok ()
      ∧ attachments (t.events (line :: tap)).1
        = out.map Utf8.encode ++ attachments (t'.events tap).1
      ∧ Moves t t' line out
      ∧ t'.state = (readLine t.state line).next t.state ∧ 0 < t'.planStart ∧ t'.LogOk := by
  obtain ⟨t', hhandle, hok, hevents⟩ := events_cons h
  obtain ⟨out, hout, hmoves⟩ := handle_moves hpos hline hlog hhandle
  obtain ⟨hnext, hpos'⟩ := handle_ok hpos hhandle
  refine ⟨t', out, hhandle, hok, ?_, hmoves, hnext, hpos', hmoves.logOk hlog⟩
  rw [hevents, attachments_append, hout]

/-- No more is emitted than there is. -/
theorem length_attachments_le (hpos : 0 < t.planStart) {tap : List (List Char)}
    (hlines : ∀ line ∈ tap, IsLine line) (hlog : t.LogOk) (h : (t.events tap).2 = .ok ()) :
    (attachments (t.events tap).1).length ≤ t.log.length + (diagnostics t.state tap).length := by
  induction tap generalizing t with
  | nil =>
    rw [events, attachments_finish hlog, List.length_map]
    split <;> simp
  | cons line tap ih =>
    rw [List.forall_mem_cons] at hlines
    obtain ⟨t', out, -, hok, hevents, hmoves, hnext, hpos', hlog'⟩ :=
      events_cons_moves hpos hlines.1 hlog h
    have hih := ih hpos' hlines.2 hlog' hok
    have hmoved : out.length + t'.log.length
        ≤ t.log.length + (diagnostic t.state line).toList.length := by
      cases hmoves with
      | kept hout' hlog' hkept hskip =>
        have hlen := congrArg List.length (append_log_of_kept hout' hlog')
        rw [List.length_append, List.length_append] at hlen
        omega
      | skipped text hskip hdiagnostic hout' hlog' hkept =>
        simp [hdiagnostic, hout', hlog', Nat.add_comm]
      | lost text hdiagnostic hout' hlog' hlost => simp [hdiagnostic, hout', hlog']
    rw [hnext] at hih
    rw [hevents, diagnostics]
    simp only [List.length_append, List.length_map]
    omega

/-- Behind the first stage it is emitted in order. -/
theorem attachments_sublist (hpos : 0 < t.planStart) {tap : List (List Char)}
    (hlines : ∀ line ∈ tap, IsLine line) (hlog : t.LogOk) (hstate : t.state ≠ .beforePlan)
    (h : (t.events tap).2 = .ok ()) :
    (attachments (t.events tap).1).Sublist
      ((t.log ++ diagnostics t.state tap).map Utf8.encode) := by
  induction tap generalizing t with
  | nil =>
    rw [events, attachments_finish hlog, diagnostics, List.append_nil]
    split <;> simp
  | cons line tap ih =>
    rw [List.forall_mem_cons] at hlines
    obtain ⟨t', out, -, hok, hevents, hmoves, hnext, hpos', hlog'⟩ :=
      events_cons_moves hpos hlines.1 hlog h
    have hih := ih hpos' hlines.2 hlog' (by rw [hnext]; exact next_ne_beforePlan hstate _) hok
    rw [hnext] at hih
    rw [hevents, diagnostics]
    cases hmoves with
    | kept hout' hlog' hkept hskip =>
      rw [← List.append_assoc, ← append_log_of_kept hout' hlog', List.append_assoc, List.map_append]
      exact hih.append_left _
    | skipped text hskip hdiagnostic hout' hlog' hkept =>
      rw [skipComment_eq_none hstate] at hskip
      cases hskip
    | lost text hdiagnostic hout' hlog' hlost =>
      rw [hlog'] at hih
      rw [hout', List.map_nil, List.nil_append]
      refine hih.trans (List.Sublist.map _ (List.Sublist.append_left ?_ _))
      exact List.sublist_append_right _ _

/-- A text that may stand on either side. -/
theorem cons_append_eq_iff {log rest : List (List Char)} {text : List Char} :
    text :: (log ++ rest) = log ++ text :: rest ↔ ∀ entry ∈ log, entry = text := by
  induction log with
  | nil => simp
  | cons entry log ih =>
    rw [List.forall_mem_cons, ← ih, List.cons_append, List.cons_append, List.cons.injEq]
    constructor
    · intro h
      obtain ⟨rfl, h⟩ := h
      exact ⟨rfl, h⟩
    · intro h
      obtain ⟨rfl, h⟩ := h
      exact ⟨rfl, h⟩

theorem logInOrder_cons {line : List Char} {tap : List (List Char)} {t' : Locals}
    (h : (t.handle line).2 = .ok t') :
    t.LogInOrder (line :: tap) ↔
      (∀ text, (readLine t.state line).skipComment = some text → ∀ entry ∈ t.log, entry = text)
      ∧ t'.LogInOrder tap := by
  simp [LogInOrder, h]

theorem hasTest_cons (hpos : 0 < t.planStart) {line : List Char} {tap : List (List Char)}
    {t' : Locals} (h : (t.handle line).2 = .ok t') :
    t.HasTest (line :: tap) ↔ t'.HasTest tap := by
  have hname := handle_testName hpos h
  rw [HasTest, HasTest, readings, ← (handle_ok hpos h).1, ← Option.isSome_iff_ne_none,
    ← Option.isSome_iff_ne_none, hname, Bool.or_eq_true]
  simp only [List.mem_cons, exists_eq_or_imp, or_assoc, or_left_comm]

/-- A line that is kept changes nothing about what it takes. -/
theorem conserves_cons_kept (hpos : 0 < t.planStart) {line : List Char} {tap : List (List Char)}
    {t' : Locals} (h : (t.handle line).2 = .ok t') (hline : IsLine line)
    (hlog : t'.log = (if t.emits line then [] else t.log) ++ (diagnostic t.state line).toList)
    (hkept : LineKept line) (hskip : (readLine t.state line).skipComment = none) :
    t.Conserves (line :: tap) ↔ t'.Conserves tap := by
  have hdelivered : (t.HasTest (line :: tap) ∨ (t.log = [] ∧ ∀ l ∈ line :: tap, ¬ IsComment l))
      ↔ (t'.HasTest tap ∨ (t'.log = [] ∧ ∀ l ∈ tap, ¬ IsComment l)) := by
    rw [hasTest_cons hpos h]
    by_cases htest : t'.HasTest tap
    · simp [htest]
    · have hname : t'.testName.isSome = false := by
        by_contra hname
        exact htest (Or.inl (by simpa using hname))
      rw [handle_testName hpos h, Bool.or_eq_false_iff] at hname
      have hemits : t.emits line = false := by simp [emits, hname]
      have hcomment : diagnostic t.state line = none ↔ ¬ IsComment line := by
        constructor
        · intro hnone hcomment
          rw [diagnostic, if_pos hcomment] at hnone
          cases hnone
        · intro hcomment
          by_contra hne
          obtain ⟨text, htext⟩ := Option.ne_none_iff_exists'.mp hne
          exact hcomment (isComment_of_diagnostic hline hkept hname.1 hskip htext)
      rw [or_iff_right htest, or_iff_right htest, List.forall_mem_cons, hlog, hemits,
        if_neg (by simp), List.append_eq_nil_iff, Option.toList_eq_nil_iff, hcomment, and_assoc]
  constructor
  · intro hc
    exact ⟨hdelivered.mp hc.hasTest, fun l hl => hc.kept l (List.mem_cons_of_mem line hl),
      ((logInOrder_cons h).mp hc.logInOrder).2⟩
  · intro hc
    exact ⟨hdelivered.mpr hc.hasTest, List.forall_mem_cons.mpr ⟨hkept, hc.kept⟩,
      (logInOrder_cons h).mpr ⟨by simp [hskip], hc.logInOrder⟩⟩

/-- The plan for no tests must find no other diagnostic in the log. -/
theorem conserves_cons_skipped (hpos : 0 < t.planStart) {line text : List Char}
    {tap : List (List Char)} {t' : Locals} (h : (t.handle line).2 = .ok t')
    (hskip : (readLine t.state line).skipComment = some text) (hlog : t'.log = t.log)
    (hcomment : ¬ IsComment line) (hkept : LineKept line) :
    t.Conserves (line :: tap) ↔ (∀ entry ∈ t.log, entry = text) ∧ t'.Conserves tap := by
  have hdelivered : (t.HasTest (line :: tap) ∨ (t.log = [] ∧ ∀ l ∈ line :: tap, ¬ IsComment l))
      ↔ (t'.HasTest tap ∨ (t'.log = [] ∧ ∀ l ∈ tap, ¬ IsComment l)) := by
    rw [hasTest_cons hpos h, hlog, List.forall_mem_cons, and_iff_right hcomment]
  constructor
  · intro hc
    obtain ⟨hsame, horder⟩ := (logInOrder_cons h).mp hc.logInOrder
    exact ⟨hsame text hskip, hdelivered.mp hc.hasTest,
      fun l hl => hc.kept l (List.mem_cons_of_mem line hl), horder⟩
  · intro hand
    obtain ⟨hsame, hc⟩ := hand
    refine ⟨hdelivered.mpr hc.hasTest, List.forall_mem_cons.mpr ⟨hkept, hc.kept⟩,
      (logInOrder_cons h).mpr ⟨?_, hc.logInOrder⟩⟩
    intro text' htext'
    rw [hskip] at htext'
    cases htext'
    exact hsame

/-- A comment that is put ahead of the log. -/
theorem overtakes_iff {emitted : List Bytes} {log rest : List (List Char)} {text : List Char}
    (hsub : emitted.Sublist ((log ++ rest).map Utf8.encode)) :
    Utf8.encode text :: emitted = (log ++ text :: rest).map Utf8.encode
      ↔ (∀ entry ∈ log, entry = text) ∧ emitted = (log ++ rest).map Utf8.encode := by
  constructor
  · intro heq
    have hall : emitted = (log ++ rest).map Utf8.encode := by
      refine hsub.eq_of_length ?_
      have hlen := congrArg List.length heq
      simp only [List.length_cons, List.length_map, List.length_append] at hlen ⊢
      omega
    rw [hall, ← List.map_cons] at heq
    have hinj : Function.Injective Utf8.encode := fun _ _ => Utf8.encode_injective
    exact ⟨cons_append_eq_iff.mp (List.map_injective_iff.mpr hinj heq), hall⟩
  · intro hand
    rw [hand.2, ← List.map_cons, cons_append_eq_iff.mpr hand.1]

/-- What it takes for a script, line by line. -/
theorem attachments_events_iff (hpos : 0 < t.planStart) {tap : List (List Char)}
    (hlines : ∀ line ∈ tap, IsLine line) (hlog : t.LogOk) (h : (t.events tap).2 = .ok ()) :
    attachments (t.events tap).1 = (t.log ++ diagnostics t.state tap).map Utf8.encode
      ↔ t.Conserves tap := by
  induction tap generalizing t with
  | nil =>
    rw [events, attachments_finish hlog, diagnostics, List.append_nil]
    have hall : t.Conserves [] ↔ t.testName ≠ none ∨ t.log = [] := by
      constructor
      · intro h
        simpa [HasTest, readings] using h.hasTest
      · intro h
        exact ⟨by simpa [HasTest, readings] using h, by simp, trivial⟩
    rw [hall]
    cases t.testName with
    | none =>
      rw [Option.isSome_none, if_neg (by simp), List.map_nil, eq_comm, List.map_eq_nil_iff]
      simp
    | some testName => simp
  | cons line tap ih =>
    rw [List.forall_mem_cons] at hlines
    obtain ⟨t', out, hline, hok, hevents, hmoves, hnext, hpos', hlog'⟩ :=
      events_cons_moves hpos hlines.1 hlog h
    have hih := ih hpos' hlines.2 hlog' hok
    rw [hevents, diagnostics, ← hnext]
    cases hmoves with
    | kept hout' hlog'' hkept hskip =>
      rw [conserves_cons_kept hpos hline hlines.1 hlog'' hkept hskip, ← hih, ← List.append_assoc,
        ← append_log_of_kept hout' hlog'', List.append_assoc, List.map_append,
        List.append_cancel_left_eq]
    | skipped text hskip hdiagnostic hout' hlog'' hkept =>
      have hends := Reading.ends_of_skipComment hskip
      have hcomment : ¬ IsComment line := ((readLine_matches t.state line).ends hends).1
      have hstate : t'.state ≠ .beforePlan := by
        rw [hnext]
        exact Reading.next_ne hends
      have hsub := attachments_sublist hpos' hlines.2 hlog' hstate hok
      rw [hlog''] at hih hsub
      rw [conserves_cons_skipped hpos hline hskip hlog'' hcomment hkept, ← hih, ← overtakes_iff hsub,
        hout', hdiagnostic]
      rfl
    | lost text hdiagnostic hout' hlog'' hlost =>
      refine iff_of_false ?_ fun hc => hlost (hc.kept line List.mem_cons_self)
      intro heq
      have hlen := congrArg List.length heq
      have hle := length_attachments_le hpos' hlines.2 hlog' hok
      simp only [hout', hlog'', hdiagnostic, List.length_append, List.length_map, List.length_nil,
        Option.toList_some, List.length_singleton] at hlen hle
      omega

/-! ## Ahead of the plan -/

/-- What is held back is the log. -/
theorem log_hold (hpos : 0 < t.planStart) (hstate : t.state = .beforePlan) {line : List Char}
    {t' : Locals} (h : (t.handle line).2 = .ok t') (hline : IsLine line) (hlog : t.LogOk)
    (hkept : LineKept line) (hends : (readLine .beforePlan line).ends = false) :
    hold (t.testName.isSome, t.log) line = (t'.testName.isSome, t'.log) := by
  obtain ⟨out, -, hmoves⟩ := handle_moves hpos hline hlog h
  have hname := handle_testName hpos h
  rw [hstate] at hname
  cases hmoves with
  | kept hout hlog' hline' hskip =>
    rw [hold, hname, hlog', emits, hstate]
    cases (readLine .beforePlan line).isTest <;> simp
  | skipped text hskip hdiagnostic hout hlog' hline' =>
    rw [hstate] at hskip
    rw [Reading.ends_of_skipComment hskip] at hends
    cases hends
  | lost text hdiagnostic hout hlog' hlost => exact absurd hkept hlost

theorem logInOrder_of_state (hpos : 0 < t.planStart) (hstate : t.state ≠ .beforePlan)
    (tap : List (List Char)) : t.LogInOrder tap := by
  induction tap generalizing t with
  | nil => trivial
  | cons line tap ih =>
    refine ⟨by simp [skipComment_eq_none hstate], ?_⟩
    intro t' h
    obtain ⟨hnext, hpos'⟩ := handle_ok hpos h
    exact ih hpos' (by rw [hnext]; exact next_ne_beforePlan hstate _)

theorem inOrderFrom_cons {held : Bool × List (List Char)} {line : List Char}
    {tap : List (List Char)} :
    InOrderFrom held (line :: tap) ↔
      (∀ text, (readLine .beforePlan line).skipComment = some text → ∀ entry ∈ held.2, entry = text)
      ∧ ((readLine .beforePlan line).ends = false → InOrderFrom (hold held line) tap) := by
  constructor
  · intro h
    refine ⟨fun text hskip => h [] line tap text rfl (by simp) hskip, ?_⟩
    intro hends front plan behind text hsplit hfront hskip
    exact h (line :: front) plan behind text (by rw [hsplit]; rfl)
      (List.forall_mem_cons.mpr ⟨hends, hfront⟩) hskip
  · intro h front plan behind text hsplit hfront hskip
    cases front with
    | nil =>
      obtain ⟨rfl, rfl⟩ := List.cons.inj hsplit
      exact h.1 text hskip
    | cons l front =>
      obtain ⟨rfl, hsplit'⟩ := List.cons.inj hsplit
      rw [List.forall_mem_cons] at hfront
      exact h.2 hfront.1 front plan behind text hsplit' hfront.2 hskip

theorem logInOrder_iff (hpos : 0 < t.planStart) (hstate : t.state = .beforePlan)
    {tap : List (List Char)} (hlines : ∀ line ∈ tap, IsLine line) (hlog : t.LogOk)
    (hkept : ∀ line ∈ tap, LineKept line) (hok : (t.events tap).2 = .ok ()) :
    t.LogInOrder tap ↔ InOrderFrom (t.testName.isSome, t.log) tap := by
  induction tap generalizing t with
  | nil => simp [LogInOrder, InOrderFrom]
  | cons line tap ih =>
    rw [List.forall_mem_cons] at hlines hkept
    obtain ⟨t', h, hok', -⟩ := events_cons hok
    obtain ⟨hnext, hpos'⟩ := handle_ok hpos h
    obtain ⟨out, -, hmoves⟩ := handle_moves hpos hlines.1 hlog h
    rw [logInOrder_cons h, inOrderFrom_cons, hstate]
    refine and_congr_right fun _ => ?_
    by_cases hends : (readLine .beforePlan line).ends = true
    · have hstate' : t'.state ≠ .beforePlan := by
        rw [hnext, hstate]
        exact Reading.next_ne hends
      simp [logInOrder_of_state hpos' hstate', hends]
    · have hends' : (readLine .beforePlan line).ends = false := by simpa using hends
      have hstate' : t'.state = .beforePlan := by
        rw [hnext, hstate, Reading.next_eq hends']
      rw [ih hpos' hstate' hlines.2 (hmoves.logOk hlog) hkept.2 hok',
        log_hold hpos hstate h hlines.1 hlog hkept.1 hends', imp_iff_right hends']

end Locals

/-- **When the diagnostics are conserved.** Some test is read or no comment line,
every comment line has its newline, every result line with the comment of a directive is
recognisable, and the plan for no tests does not overtake another diagnostic. -/
theorem diagnosticsConserved_iff {w : PartialWrites} {out : OutputStream} {tap : List (List Char)}
    (hok : (tap2SubUnit w out tap).1 = .ok 0) (hlines : ∀ line ∈ tap, IsLine line) :
    attachments (emitted tap) = (diagnostics .beforePlan tap).map Utf8.encode
      ↔ ((∃ r ∈ readings .beforePlan tap, r.isTest = true) ∨ ∀ line ∈ tap, ¬ IsComment line)
        ∧ (∀ line ∈ tap, LineKept line) ∧ PlanInOrder tap := by
  have hlog : Locals.LogOk {} := by simp [Locals.LogOk]
  have hrun := ((tap2SubUnit_ok_iff w out tap).mp hok).2
  have hiff := Locals.attachments_events_iff Nat.one_pos hlines hlog hrun
  have horder : (∀ line ∈ tap, LineKept line) → (Locals.LogInOrder {} tap ↔ PlanInOrder tap) :=
    fun hkept => Locals.logInOrder_iff Nat.one_pos rfl hlines hlog hkept hrun
  rw [emitted_of_ok hok]
  refine hiff.trans ⟨fun h => ⟨?_, h.kept, (horder h.kept).mp h.logInOrder⟩,
    fun h => ⟨?_, h.2.1, (horder h.2.1).mpr h.2.2⟩⟩
  · simpa [Locals.HasTest] using h.hasTest
  · simpa [Locals.HasTest] using h.1

theorem diagnosticsConserved_todo :
    let tap := ["1..2\n".toList, "# a\n".toList, "ok 1 # TODO b\n".toList, "ok\n".toList,
      "# c\n".toList]
    (tap2SubUnit byteByByte {} tap).1 = .ok 0 ∧ (∀ line ∈ tap, IsLine line)
    ∧ ((∃ r ∈ readings .beforePlan tap, r.isTest = true) ∨ ∀ line ∈ tap, ¬ IsComment line)
    ∧ (∀ line ∈ tap, LineKept line) ∧ PlanInOrder tap := by
  intro tap
  have hok : (tap2SubUnit byteByByte {} tap).1 = .ok 0 := by
    rw [tap2SubUnit_ok_iff]
    exact ⟨by decide +kernel, by decide +kernel⟩
  have hlines : ∀ line ∈ tap, IsLine line := by simp [tap, IsLine]
  have hconserved : attachments (emitted tap) = (diagnostics .beforePlan tap).map Utf8.encode := by
    rw [emitted_eq]
    decide +kernel
  exact ⟨hok, hlines, (diagnosticsConserved_iff hok hlines).mp hconserved⟩

/-- A comment without a test. -/
theorem comment_without_test_lost :
    (tap2SubUnit byteByByte {} ["# a\n".toList]).1 = .ok 0
    ∧ attachments (emitted ["# a\n".toList])
      ≠ (diagnostics .beforePlan ["# a\n".toList]).map Utf8.encode := by
  rw [tap2SubUnit_ok_iff, emitted_eq]
  exact ⟨⟨by decide +kernel, by decide +kernel⟩, by decide +kernel⟩

end Pysubunit.Tap
