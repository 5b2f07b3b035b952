/-
Pysubunit.V1.DirectiveTheorems — which lines are directives.

`DirectiveForm` is what a directive looks like: a keyword in column 0, at most
one colon, whitespace and an argument. A server looks at the first word without
the colons at its end (`bareWord`), so it also takes a `Lookalike` for a
directive: a word with more colons, or a part of `skip`. What such a line then
does depends on the state (`Acts`), and two states trip over outcome directives
(`Trips`). `directive_recognised_iff` says that this is all that goes wrong.
-/
import Pysubunit.V1.PassthroughTheorems

namespace Pysubunit.V1

open ByteLib

/-! ## What a directive looks like -/

/-- The keywords of outcome directives. -/
def outcomeKeywords : List Bytes :=
  [ascii "success", ascii "successful", ascii "failure", ascii "error", ascii "skip",
    ascii "xfail", ascii "uxsuccess"]

/-- The keywords. -/
def keywords : List Bytes :=
  [ascii "test", ascii "testing"] ++ outcomeKeywords
    ++ [ascii "progress", ascii "tags", ascii "time"]

/-- The line begins in column 0 with `keyword`, and goes on with at most one
colon, whitespace and `argument`. -/
def KeywordLine (line keyword argument : Bytes) : Prop :=
  ∃ colon sep, (colon = [] ∨ colon = [58]) ∧ isSpace sep = true ∧ NotBlank argument
    ∧ line = keyword ++ colon ++ sep :: argument

/-- The form of a directive. -/
def DirectiveForm (line : Bytes) : Prop :=
  ∃ keyword ∈ keywords, ∃ argument, KeywordLine line keyword argument

/-- The text of an outcome directive is the description of the running test, or
that and the beginning of a region. -/
def Matches (s : Server) (argument : Bytes) : Prop :=
  ∃ description text, s.currentTestDescription = .some description
    ∧ decodeLine argument = .ok text
    ∧ (text = description ∨ text = description ++ " [" ∨ text = description ++ " [ multipart")

/-- An outcome directive outside a test, or one whose label does not match the
running test. -/
def Unmatched (s : Server) (line : Bytes) : Prop :=
  ∃ keyword ∈ outcomeKeywords, ∃ argument, KeywordLine line keyword argument
    ∧ (s.state = .outsideTest ∨ ¬ Matches s argument)

/-- A line that is no directive, and an outcome directive without its test, are
passed through unchanged, and nothing else happens. -/
def Recognised (parseDate : Bytes → Except Error DateTime) (s : Server) (line : Bytes) : Prop :=
  ¬ DirectiveForm line ∨ Unmatched s line →
    s.lineReceived parseDate line = s.stdOutLineReceived line

/-! ## What a server takes for one -/

/-- `cmd.rstrip(b':')` -/
def bareWord (first : Bytes) : Bytes := first.rdropWhile fun b => b == 58

/-- A first word that is a proper part of `skip`, or has more than one colon at
its end. -/
def Lookalike (first : Bytes) : Prop :=
  (bareWord first <:+: ascii "skip" ∧ bareWord first ≠ ascii "skip")
    ∨ bareWord first ++ [58, 58] <+: first

/-- In state `s` the command does more than to pass the line through. -/
def Acts (s : Server) (argument : Bytes) : Command → Prop
  | .startTest => s.state = .outsideTest
  | .outcome _ => s.state = .inTest ∧ Matches s argument
  | .progress => True
  | .tags => True
  | .time => True

/-- In state `s` the command raises for want of a method or of a running
test. -/
def Trips (s : Server) (command : Command) : Prop :=
  (command = .outcome .uxsuccess ∧ s.state = .outsideTest)
    ∨ ∃ label, command = .outcome label ∧ s.state = .inTest
      ∧ ∀ description, s.currentTestDescription ≠ .some description

/-- The line has a first word that is taken for a directive without being one,
in a state where it is acted on, or for one that the state trips over. -/
def Misread (s : Server) (line : Bytes) : Prop :=
  ∃ first sep argument command, FirstWord line first sep argument
    ∧ commandOf (bareWord first) = some command
    ∧ ((Lookalike first ∧ Acts s argument command) ∨ Trips s command)

/-- A directive is a first word that names a command. -/
theorem directive_eq_some {line : Bytes} {command : Command} {offset : Nat} :
    directive line = some (command, offset)
      ↔ ∃ first sep argument, FirstWord line first sep argument
        ∧ commandOf (bareWord first) = some command ∧ offset = first.length + 1 := by
  unfold directive
  constructor
  · intro h
    split at h
    · rename_i first rest hsplit
      split at h
      · rename_i hcol
        obtain ⟨command', hcommand, hpair⟩ := Option.map_eq_some_iff.mp h
        cases hpair
        obtain ⟨sep, argument, hfirst⟩ := splitFirst_firstWord hsplit hcol
        exact ⟨first, sep, argument, hfirst, hcommand, rfl⟩
      · cases h
    · cases h
  · rintro ⟨first, sep, argument, hfirst, hcommand, rfl⟩
    have hcol : first <+: line := by
      rw [hfirst.line_eq]
      exact List.prefix_append _ _
    rw [hfirst.line_eq,
      splitFirst_word hfirst.nonempty hfirst.noSpace hfirst.separates hfirst.notBlank,
      ← hfirst.line_eq]
    dsimp only
    rw [if_pos hcol]
    exact congrArg (Option.map _) hcommand

/-! ## Keywords -/

/-- Is the command an outcome? -/
def Command.isOutcome : Command → Bool
  | .outcome _ => true
  | _ => false

theorem isOutcome_iff {command : Command} :
    command.isOutcome = true ↔ ∃ label, command = .outcome label := by
  cases command <;> simp [Command.isOutcome]

/-- A keyword is a name, and no proper part of `skip`; it names a command, which
is an outcome for the keywords of outcomes. -/
structure IsKeyword (keyword : Bytes) : Prop where
  name : IsName keyword
  whole : keyword <:+: ascii "skip" → keyword = ascii "skip"
  named : (commandOf keyword).isSome = true
  outcome : decide (keyword ∈ outcomeKeywords) = (commandOf keyword).any Command.isOutcome

instance (keyword : Bytes) : Decidable (IsKeyword keyword) :=
  decidable_of_iff (IsName keyword ∧ (keyword <:+: ascii "skip" → keyword = ascii "skip")
      ∧ (commandOf keyword).isSome = true
      ∧ decide (keyword ∈ outcomeKeywords) = (commandOf keyword).any Command.isOutcome)
    ⟨fun ⟨a, b, c, d⟩ => ⟨a, b, c, d⟩, fun ⟨a, b, c, d⟩ => ⟨a, b, c, d⟩⟩

theorem isKeyword {keyword : Bytes} (h : keyword ∈ keywords) : IsKeyword keyword := by
  have hall : keywords.all (fun keyword => decide (IsKeyword keyword)) = true := by decide
  exact of_decide_eq_true (List.all_eq_true.mp hall keyword h)

theorem outcomeKeywords_subset {keyword : Bytes} (h : keyword ∈ outcomeKeywords) :
    keyword ∈ keywords :=
  List.mem_append_left _ (List.mem_append_right _ h)

/-- What names a command is a keyword or a part of `skip`. -/
theorem keyword_of_commandOf {word : Bytes} {command : Command}
    (h : commandOf word = some command) : word ∈ keywords ∨ word <:+: ascii "skip" := by
  by_contra hno
  rw [not_or] at hno
  obtain ⟨hkeyword, hskip⟩ := hno
  simp only [keywords, outcomeKeywords, List.mem_append, List.mem_cons, List.not_mem_nil,
    or_false, not_or] at hkeyword
  simp [commandOf, hkeyword, hskip] at h

/-! ## First words -/

/-- A keyword with at most one colon is a first word. -/
theorem KeywordLine.firstWord {line keyword argument : Bytes} (hkeyword : keyword ∈ keywords)
    (h : KeywordLine line keyword argument) :
    ∃ first sep, FirstWord line first sep argument ∧ bareWord first = keyword
      ∧ (first = keyword ∨ first = keyword ++ [58]) := by
  obtain ⟨colon, sep, hcolon, hsep, hargument, hline⟩ := h
  have hname := (isKeyword hkeyword).name
  have hword : NoSpace (keyword ++ colon) ∧ bareWord (keyword ++ colon) = keyword := by
    rcases hcolon with rfl | rfl
    · rw [List.append_nil]
      exact ⟨hname.2.1, hname.rdropWhile_colon⟩
    · refine ⟨hname.noSpace_colon, ?_⟩
      rw [bareWord, List.rdropWhile_concat_pos _ _ _ (by decide), hname.rdropWhile_colon]
  refine ⟨keyword ++ colon, sep, ⟨hline, by simp [hname.1], hword.1, hsep, hargument⟩, hword.2, ?_⟩
  rcases hcolon with rfl | rfl
  · exact .inl (List.append_nil _)
  · exact .inr rfl

/-- Behind the bare word there are colons. -/
theorem bareWord_append (first : Bytes) : ∃ n, first = bareWord first ++ List.replicate n 58 := by
  refine ⟨(first.rtakeWhile fun b => b == 58).length, ?_⟩
  have hcolons : first.rtakeWhile (fun b => b == 58)
      = List.replicate (first.rtakeWhile fun b => b == 58).length 58 := by
    rw [List.eq_replicate_iff]
    exact ⟨rfl, fun b hb => by simpa using List.mem_rtakeWhile_imp hb⟩
  rw [← hcolons, bareWord, List.rdropWhile_append_rtakeWhile]

section FirstWords

variable {line first argument : Bytes} {sep : UInt8} {command : Command}

/-- A first word that names a command and is no lookalike makes a directive. -/
theorem keywordLine_of_firstWord (hfirst : FirstWord line first sep argument)
    (hcommand : commandOf (bareWord first) = some command) (hlooks : ¬ Lookalike first) :
    bareWord first ∈ keywords ∧ KeywordLine line (bareWord first) argument := by
  obtain ⟨n, hn⟩ := bareWord_append first
  rw [Lookalike, not_or] at hlooks
  have hskip : ascii "skip" ∈ keywords := by decide
  have hkeyword : bareWord first ∈ keywords := by
    rcases keyword_of_commandOf hcommand with hkeyword | hpart
    · exact hkeyword
    · by_contra hno
      exact hlooks.1 ⟨hpart, fun heq => hno (heq ▸ hskip)⟩
  refine ⟨hkeyword, List.replicate n 58, sep, ?_, hfirst.separates, hfirst.notBlank, ?_⟩
  · match n with
    | 0 => exact .inl rfl
    | 1 => exact .inr rfl
    | n + 2 =>
      refine absurd ⟨List.replicate n 58, ?_⟩ hlooks.2
      rw [List.append_assoc]
      exact hn.symm
  · rw [← hn]
    exact hfirst.line_eq

/-- A keyword with at most one colon is no lookalike. -/
theorem not_lookalike {keyword : Bytes} (hkeyword : keyword ∈ keywords)
    (hbare : bareWord first = keyword) (hfirst : first = keyword ∨ first = keyword ++ [58]) :
    ¬ Lookalike first := by
  rintro (⟨hpart, hne⟩ | htwo)
  · rw [hbare] at hpart hne
    exact hne ((isKeyword hkeyword).whole hpart)
  · have hlen := htwo.length_le
    rw [hbare] at hlen
    rcases hfirst with h | h
    · rw [h] at hlen
      simp at hlen
    · rw [h] at hlen
      simp at hlen

/-- A directive is a first word that is no lookalike. -/
theorem directiveForm_iff (hfirst : FirstWord line first sep argument)
    (hcommand : commandOf (bareWord first) = some command) :
    DirectiveForm line ↔ ¬ Lookalike first := by
  constructor
  · rintro ⟨keyword, hkeyword, argument', hline⟩
    obtain ⟨first', sep', hfirst', hbare, hcolon⟩ := hline.firstWord hkeyword
    obtain ⟨rfl, -, -⟩ := hfirst.unique hfirst'
    exact not_lookalike hkeyword hbare hcolon
  · intro hlooks
    obtain ⟨hkeyword, hline⟩ := keywordLine_of_firstWord hfirst hcommand hlooks
    exact ⟨_, hkeyword, argument, hline⟩

/-- An outcome directive without its test. -/
theorem unmatched_iff {s : Server} (hfirst : FirstWord line first sep argument)
    (hcommand : commandOf (bareWord first) = some command) :
    Unmatched s line ↔ ¬ Lookalike first ∧ (∃ label, command = .outcome label)
      ∧ (s.state = .outsideTest ∨ ¬ Matches s argument) := by
  have houtcome : ∀ keyword ∈ keywords, commandOf keyword = some command →
      (keyword ∈ outcomeKeywords ↔ ∃ label, command = .outcome label) := by
    intro keyword hkeyword hcommand
    have hany := (isKeyword hkeyword).outcome
    rw [hcommand, Option.any_some] at hany
    rw [← isOutcome_iff, ← hany, decide_eq_true_iff]
  constructor
  · rintro ⟨keyword, hkeyword, argument', hline, hwithout⟩
    have hmem := outcomeKeywords_subset hkeyword
    obtain ⟨first', sep', hfirst', hbare, hcolon⟩ := hline.firstWord hmem
    obtain ⟨rfl, -, rfl⟩ := hfirst.unique hfirst'
    refine ⟨not_lookalike hmem hbare hcolon, ?_, hwithout⟩
    rw [hbare] at hcommand
    exact (houtcome _ hmem hcommand).mp hkeyword
  · rintro ⟨hlooks, hlabel, hwithout⟩
    obtain ⟨hkeyword, hline⟩ := keywordLine_of_firstWord hfirst hcommand hlooks
    exact ⟨_, (houtcome _ hkeyword hcommand).mpr hlabel, argument, hline, hwithout⟩

end FirstWords

/-! ## What the states do -/

/-- What stands behind a first word can be decoded if the line can. -/
theorem decodeLine_argument {text : List Char} {first argument : Bytes} {sep : UInt8}
    (hfirst : FirstWord (Utf8.encode (text ++ ['\n'])) first sep argument) :
    ∃ label, decodeLine argument = .ok label := by
  obtain ⟨cs₁, c, cs₂, htext, -, -, hcs₂⟩ :=
    Utf8.encode_split (isSpace_lt hfirst.separates) hfirst.line_eq
  rcases List.eq_nil_or_concat cs₂ with rfl | ⟨label, d, rfl⟩
  · obtain ⟨b, hb, -⟩ := hfirst.notBlank
    rw [← hcs₂] at hb
    cases hb
  · rw [List.concat_eq_append] at htext hcs₂
    rw [← List.cons_append, ← List.append_assoc] at htext
    obtain ⟨-, hd⟩ := List.append_inj' htext rfl
    rw [← List.cons.inj hd |>.1, Utf8.encode_append] at hcs₂
    refine ⟨String.ofList label, ?_⟩
    rw [← hcs₂, ← decodeLine_encode, String.toList_ofList]
    rfl

section Commands

variable {parseDate : Bytes → Except Error DateTime} {s : Server} {line argument : Bytes}
  {offset : Nat}

theorem ne_stdOut {e : Effect} (h : .stdOut line ∉ e.outputs) : e ≠ s.stdOutLineReceived line := by
  rintro rfl
  exact h (List.mem_singleton_self _)

theorem handleProgress_ne : s.handleProgress offset line ≠ s.stdOutLineReceived line := by
  refine ne_stdOut ?_
  unfold Server.handleProgress
  split <;> simp [Server.raises]

theorem handleTags_ne : s.handleTags offset line ≠ s.stdOutLineReceived line := by
  refine ne_stdOut ?_
  unfold Server.handleTags
  split <;> simp [Server.raises]

theorem handleTime_ne : s.handleTime parseDate offset line ≠ s.stdOutLineReceived line := by
  refine ne_stdOut ?_
  unfold Server.handleTime
  split <;> simp [Server.raises]

theorem startTest_ne : s.startTest offset line ≠ s.stdOutLineReceived line := by
  refine ne_stdOut ?_
  unfold Server.startTest
  split <;> simp [Server.raises]

/-- In a test, an outcome directive is passed through if its label is not that
of the running test. -/
theorem outcome_eq_stdOut {label : Outcome} {text : String}
    (htext : decodeLine (line.drop offset) = .ok text) (hs : s.state = .inTest) :
    s.outcome label offset line = s.stdOutLineReceived line
      ↔ (∃ description, s.currentTestDescription = .some description)
        ∧ ¬ Matches s (line.drop offset) := by
  have hmatches : ∀ description, s.currentTestDescription = .some description →
      (Matches s (line.drop offset) ↔ text = description ∨ text = description ++ " ["
        ∨ text = description ++ " [ multipart") := by
    intro description hdescription
    constructor
    · rintro ⟨_, _, hd, ht, hmatch⟩
      cases hdescription.symm.trans hd
      cases htext.symm.trans ht
      exact hmatch
    · intro hmatch
      exact ⟨_, _, hdescription, htext, hmatch⟩
  have hstate : ∀ {e : Effect}, e.server.state ≠ .inTest → e ≠ s.stdOutLineReceived line := by
    rintro e hne rfl
    exact hne hs
  unfold Server.outcome
  rw [htext]
  cases hdescription : s.currentTestDescription with
  | unset => exact iff_of_false (ne_stdOut (by simp [Server.raises])) (by simp)
  | none => exact iff_of_false (ne_stdOut (by simp [Server.raises])) (by simp)
  | some description =>
    rw [hmatches description hdescription]
    dsimp only
    split
    · rename_i h
      exact iff_of_false (hstate (by simp)) fun hno => hno.2 (.inl h.symm)
    · rename_i h₁
      split
      · rename_i h
        exact iff_of_false (hstate (by simp)) fun hno => hno.2 (.inr (.inl h.symm))
      · rename_i h₂
        split
        · rename_i h
          exact iff_of_false (hstate (by simp)) fun hno => hno.2 (.inr (.inr h.symm))
        · rename_i h₃
          refine iff_of_true rfl ⟨by simp, ?_⟩
          rintro (h | h | h)
          · exact h₁ h.symm
          · exact h₂ h.symm
          · exact h₃ h.symm

end Commands

/-! ## The lines that are misread -/

section Recognition

variable {parseDate : Bytes → Except Error DateTime} {s : Server} {text : List Char}
  {first argument : Bytes} {sep : UInt8} {command : Command}

/-- A line with a command is passed through unless it acts or trips. -/
theorem passes_iff (hs : s.state.inRegion = false)
    (hfirst : FirstWord (Utf8.encode (text ++ ['\n'])) first sep argument)
    (hcommand : commandOf (bareWord first) = some command) :
    s.lineReceived parseDate (Utf8.encode (text ++ ['\n']))
        = s.stdOutLineReceived (Utf8.encode (text ++ ['\n']))
      ↔ ¬ (Acts s argument command ∨ Trips s command) := by
  obtain ⟨label, hlabel⟩ := decodeLine_argument hfirst
  have hdirective := directive_eq_some.mpr ⟨first, sep, argument, hfirst, hcommand, rfl⟩
  have hdrop : (Utf8.encode (text ++ ['\n'])).drop (first.length + 1) = argument := by
    rw [hfirst.line_eq, List.append_cons, List.drop_left' (by simp)]
  rw [lineReceived_outside_region hs, Server.commandReceived, hdirective]
  cases command with
  | progress => exact iff_of_false handleProgress_ne fun hno => hno (.inl trivial)
  | tags => exact iff_of_false handleTags_ne fun hno => hno (.inl trivial)
  | time => exact iff_of_false handleTime_ne fun hno => hno (.inl trivial)
  | startTest =>
    cases hstate : s.state with
    | readingDetails outcome p =>
      rw [hstate] at hs
      cases hs
    | outsideTest => exact iff_of_false startTest_ne fun hno => hno (.inl hstate)
    | inTest =>
      refine iff_of_true rfl ?_
      rintro (hacts | ⟨htrips, -⟩ | ⟨_, htrips, -⟩)
      · exact absurd (hstate.symm.trans hacts) (by simp)
      · cases htrips
      · cases htrips
  | outcome outcome =>
    cases hstate : s.state with
    | readingDetails outcome p =>
      rw [hstate] at hs
      cases hs
    | outsideTest =>
      simp only [reduceCtorEq, decide_false, Bool.false_eq_true, if_false]
      split
      · rename_i hux
        subst hux
        refine iff_of_false (ne_stdOut (by simp [Server.raises])) fun hno => hno ?_
        exact .inr (.inl ⟨rfl, hstate⟩)
      · rename_i hux
        refine iff_of_true rfl ?_
        rintro (⟨hacts, -⟩ | ⟨htrips, -⟩ | ⟨_, -, htrips, -⟩)
        · exact absurd (hstate.symm.trans hacts) (by simp)
        · exact hux (by simpa using htrips)
        · exact absurd (hstate.symm.trans htrips) (by simp)
    | inTest =>
      simp only [decide_true, if_true]
      rw [outcome_eq_stdOut (by rw [hdrop]; exact hlabel) hstate, hdrop]
      constructor
      · rintro ⟨⟨description, hsome⟩, hmatches⟩ (⟨-, hacts⟩ | ⟨-, htrips⟩ | ⟨_, -, -, htrips⟩)
        · exact hmatches hacts
        · exact absurd (hstate.symm.trans htrips) (by simp)
        · exact htrips description hsome
      · intro hno
        rw [not_or] at hno
        refine ⟨?_, fun hmatches => hno.1 ⟨hstate, hmatches⟩⟩
        by_contra hnone
        exact hno.2 (.inr ⟨outcome, rfl, hstate, not_exists.mp hnone⟩)

/-- The line at hand is misread. -/
theorem misread_iff (hfirst : FirstWord (Utf8.encode (text ++ ['\n'])) first sep argument)
    (hcommand : commandOf (bareWord first) = some command) :
    Misread s (Utf8.encode (text ++ ['\n']))
      ↔ (Lookalike first ∧ Acts s argument command) ∨ Trips s command := by
  constructor
  · rintro ⟨first', sep', argument', command', hfirst', hcommand', hmisread⟩
    obtain ⟨rfl, -, rfl⟩ := hfirst.unique hfirst'
    cases hcommand.symm.trans hcommand'
    exact hmisread
  · intro hmisread
    exact ⟨first, sep, argument, command, hfirst, hcommand, hmisread⟩

/-- A directive that trips is one without its test. -/
theorem Trips.unmatched (h : Trips s command) :
    (∃ label, command = .outcome label) ∧ (s.state = .outsideTest ∨ ¬ Matches s argument) := by
  rcases h with ⟨hcommand, hstate⟩ | ⟨label, hcommand, -, hdescription⟩
  · exact ⟨⟨_, hcommand⟩, .inl hstate⟩
  · refine ⟨⟨_, hcommand⟩, .inr ?_⟩
    rintro ⟨description, _, hsome, -⟩
    exact hdescription description hsome

/-- An outcome directive without its test does not act. -/
theorem Acts.matched {label : Outcome} (h : Acts s argument (.outcome label)) :
    ¬ (s.state = .outsideTest ∨ ¬ Matches s argument) := by
  rintro (hstate | hmatches)
  · exact absurd (hstate.symm.trans h.1) (by simp)
  · exact hmatches h.2

/-- **Recognition.** Outside a details region a line of text is taken as it
should be exactly when it is not misread. -/
theorem directive_recognised_iff (parseDate : Bytes → Except Error DateTime) (s : Server)
    (hs : s.state.inRegion = false) (text : List Char) :
    Recognised parseDate s (Utf8.encode (text ++ ['\n']))
      ↔ ¬ Misread s (Utf8.encode (text ++ ['\n'])) := by
  cases hdirective : directive (Utf8.encode (text ++ ['\n'])) with
  | none =>
    have hline : s.lineReceived parseDate (Utf8.encode (text ++ ['\n']))
        = s.stdOutLineReceived (Utf8.encode (text ++ ['\n'])) := by
      rw [lineReceived_outside_region hs, Server.commandReceived, hdirective]
    refine iff_of_true (fun _ => hline) ?_
    rintro ⟨first, sep, argument, command, hfirst, hcommand, -⟩
    have hsome := directive_eq_some.mpr ⟨first, sep, argument, hfirst, hcommand, rfl⟩
    rw [hdirective] at hsome
    cases hsome
  | some d =>
    obtain ⟨command, offset⟩ := d
    obtain ⟨first, sep, argument, hfirst, hcommand, -⟩ := directive_eq_some.mp hdirective
    rw [Recognised, passes_iff hs hfirst hcommand, misread_iff hfirst hcommand,
      directiveForm_iff hfirst hcommand, unmatched_iff hfirst hcommand, not_not]
    constructor
    · rintro hpasses (⟨hlooks, hacts⟩ | htrips)
      · exact hpasses (.inl hlooks) (.inl hacts)
      · by_cases hlooks : Lookalike first
        · exact hpasses (.inl hlooks) (.inr htrips)
        · obtain ⟨hlabel, hwithout⟩ := @Trips.unmatched s argument command htrips
          exact hpasses (.inr ⟨hlooks, hlabel, hwithout⟩) (.inr htrips)
    · rintro hread hno (hacts | htrips)
      · rcases hno with hlooks | ⟨-, ⟨label, rfl⟩, hwithout⟩
        · exact hread (.inl ⟨hlooks, hacts⟩)
        · exact hacts.matched hwithout
      · exact hread (.inr htrips)

end Recognition

/-- A server in the test `a`. -/
def inTestA : Server := ⟨.inTest, some ⟨"a"⟩, .some "a"⟩

theorem directive_recognised_skip :
    inTestA.state.inRegion = false
    ∧ (Recognised (fun _ => .error .other) inTestA (Utf8.encode ("skip: b".toList ++ ['\n']))
      ↔ ¬ Misread inTestA (Utf8.encode ("skip: b".toList ++ ['\n']))) :=
  ⟨by decide, directive_recognised_iff _ inTestA (by decide) _⟩

/-- An empty first word is a part of `skip`: in the test `a`, a line that is a
colon and `a` skips the test. -/
theorem colon_skips_test :
    (({} : Server).linesReceived (fun _ => .error .other) [ascii "test: a\n"]).server = inTestA
    ∧ ¬ Recognised (fun _ => .error .other) inTestA (ascii ": a\n")
    ∧ received (inTestA.lineReceived (fun _ => .error .other) (ascii ": a\n")).outputs
      = [.outcome .skip ⟨"a"⟩ (some ∅), .stopTest ⟨"a"⟩] := by
  have hfirst : FirstWord (ascii ": a\n") [58] 32 (ascii "a\n") := by
    refine ⟨by decide, by decide, by decide, by decide, 97, by decide, by decide⟩
  have hcommand : commandOf (bareWord [58]) = some (.outcome .skip) := by decide
  have hlooks : Lookalike [58] := .inl (by decide)
  have houtputs : (inTestA.lineReceived (fun _ => .error .other) (ascii ": a\n")).outputs
      = [.call (.outcome .skip ⟨"a"⟩ (some ∅)), .call (.stopTest ⟨"a"⟩),
        .subunit (ascii ": a\n")] := by decide
  refine ⟨by decide, fun hrecognised => ?_, ?_⟩
  · have hpassed := hrecognised (.inl fun hform =>
      (directiveForm_iff hfirst hcommand).mp hform hlooks)
    rw [hpassed] at houtputs
    simp [Server.stdOutLineReceived] at houtputs
  · rw [houtputs]
    rfl

end Pysubunit.V1
