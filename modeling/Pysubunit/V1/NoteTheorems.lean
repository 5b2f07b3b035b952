/-
Pysubunit.V1.NoteTheorems — lines of progress and of tags.

Both are taken in every state outside a details region (`TakesCommands`) and
leave the server as it is. A progress line holds a number with or without
a sign; a line of tags holds words in an order that nothing fixes, so `TagWords`
speaks of the words as a set, and `mem_newTags` and `mem_goneTags` say what
is made of them.
-/
import Mathlib.Data.Set.List
import Pysubunit.V1.Client
import Pysubunit.V1.LineTheorems

namespace Pysubunit.V1

open ByteLib

variable {parseDate : Bytes → Except Error DateTime} {s : Server}

/-- The server is not inside a details region. -/
def TakesCommands (s : Server) : Prop := s.state = .outsideTest ∨ s.state = .inTest

theorem lineReceived_command (hs : TakesCommands s) (line : Bytes) :
    ∃ inTest, s.lineReceived parseDate line = s.commandReceived parseDate inTest line := by
  unfold Server.lineReceived
  rcases hs with hs | hs
  · rw [hs]
    exact ⟨false, rfl⟩
  · rw [hs]
    exact ⟨true, rfl⟩

/-! ## Progress -/

theorem noSpace_decimal (n : Int) : NoSpace (Client.decimal n) := by
  intro b hb
  unfold Client.decimal at hb
  split at hb
  · rcases List.mem_cons.mp hb with rfl | hb
    · decide
    · exact noSpace_numeral (by decide) (by decide) b hb
  · exact noSpace_numeral (by decide) (by decide) b hb

theorem decimal_ne_nil (n : Int) : Client.decimal n ≠ [] := by
  unfold Client.decimal
  split
  · simp
  · exact numeral_ne_nil _ _

theorem progressOf_plus {n : Int} (h : -1 < n) :
    progressOf (43 :: Client.decimal n) = .ok (some n, .cur) := by
  have hneg : ¬ n < 0 := by omega
  have hint := intOf_signed (by decide : 1 < 10) (by decide)
    (.inl rfl : (43 : UInt8) = 43 ∨ _) n.natAbs
  have habs : ((n.natAbs : Nat) : Int) = n := Int.natAbs_of_nonneg (by omega)
  rw [habs] at hint
  simp [progressOf, Client.decimal, hneg, hint, Except.map]

theorem progressOf_minus {n : Int} (h : ¬ -1 < n) :
    progressOf (Client.decimal n) = .ok (some n, .cur) := by
  have hneg : n < 0 := by omega
  have hint := intOf_signed (by decide : 1 < 10) (by decide)
    (.inr rfl : (45 : UInt8) = 43 ∨ _) n.natAbs
  have habs : -((n.natAbs : Nat) : Int) = n := by omega
  rw [habs] at hint
  simp [progressOf, Client.decimal, hneg, hint, Except.map]

theorem progressOf_set {n : Int} (h : 0 ≤ n) :
    progressOf (Client.decimal n) = .ok (some n, .set) := by
  have hneg : ¬ n < 0 := by omega
  have hint := intOf_numeral (by decide : 1 < 10) (by decide) n.natAbs
  have habs : ((n.natAbs : Nat) : Int) = n := Int.natAbs_of_nonneg h
  rw [habs] at hint
  obtain ⟨b, bs, hb⟩ := List.exists_cons_of_ne_nil (numeral_ne_nil 10 n.natAbs)
  obtain ⟨d, hd, hdigit⟩ := mem_numeral (by decide : 1 < 10) (b := b) (n := n.natAbs) (by simp [hb])
  have hfirst : b ≠ 43 ∧ b ≠ 45 ∧ b ≠ 112 := by
    have htable : ∀ e < 10, digitByte e ≠ 43 ∧ digitByte e ≠ 45 ∧ digitByte e ≠ 112 := by decide
    rw [hdigit]
    exact htable d hd
  rw [hb] at hint
  have hpush : (b :: bs) ≠ ascii "push" := fun heq => hfirst.2.2 (List.cons.inj heq).1
  have hpop : (b :: bs) ≠ ascii "pop" := fun heq => hfirst.2.2 (List.cons.inj heq).1
  simp [progressOf, Client.decimal, hneg, hb, hint, hfirst.1, hfirst.2.1, hpush, hpop, Except.map]

/-- A progress line. -/
theorem reads_progress (hs : TakesCommands s) {argument : Bytes} {delta : Option Int}
    {whence : Whence} (hne : argument ≠ []) (hspace : NoSpace argument)
    (h : progressOf argument = .ok (delta, whence)) :
    Reads parseDate s (ascii "progress: " ++ argument ++ ascii "\n")
      [.call (.progress delta whence)] s := by
  have hrest : NotBlank (argument ++ [10]) := by
    obtain ⟨b, bs, rfl⟩ := List.exists_cons_of_ne_nil hne
    exact ⟨b, by simp, hspace b (by simp)⟩
  have hdir : directive (ascii "progress: " ++ argument ++ [10]) = some (.progress, 10) := by
    rw [List.append_assoc]
    exact @directive_line (ascii "progress") _ (by decide) hrest
  have hstrip : strip ((ascii "progress: " ++ argument ++ [10]).drop 10) = argument := by
    rw [List.append_assoc, List.drop_left' (by decide)]
    exact strip_concat hspace (by decide)
  obtain ⟨inTest, hline⟩ := lineReceived_command hs (ascii "progress: " ++ argument ++ [10])
  refine Reads.line ?_ ?_
  · rw [List.mem_append, not_or]
    refine ⟨by decide, fun hmem => ?_⟩
    have := hspace 10 hmem
    cases this
  · rw [hline, Server.commandReceived, hdir]
    simp only [Server.handleProgress, hstrip, h]

/-! ## Tags -/

theorem tagsToNewGone_gone (gone : List Char) (ws : List (List Char)) :
    tagsToNewGone (('-' :: gone) :: ws)
      = ((tagsToNewGone ws).1, insert (String.ofList gone) (tagsToNewGone ws).2) := rfl

theorem tagsToNewGone_new {w : List Char} (h : w.head? ≠ some '-') (ws : List (List Char)) :
    tagsToNewGone (w :: ws)
      = (insert (String.ofList w) (tagsToNewGone ws).1, (tagsToNewGone ws).2) := by
  simp only [tagsToNewGone]
  split
  · exact absurd rfl h
  · rfl

/-- The new tags are the words that do not begin with a dash. -/
theorem mem_newTags (ws : List (List Char)) (t : String) :
    t ∈ (tagsToNewGone ws).1 ↔ t.toList ∈ ws ∧ t.toList.head? ≠ some '-' := by
  induction ws with
  | nil => simp [tagsToNewGone]
  | cons w ws ih =>
    by_cases hw : w.head? = some '-'
    · obtain ⟨gone, rfl⟩ := List.head?_eq_some_iff.mp hw
      rw [tagsToNewGone_gone, ih, List.mem_cons]
      constructor
      · intro h
        exact ⟨.inr h.1, h.2⟩
      · intro h
        exact ⟨h.1.resolve_left fun heq => h.2 (by rw [heq]; rfl), h.2⟩
    · rw [tagsToNewGone_new hw, Finset.mem_insert, ih, List.mem_cons, ← String.toList_inj,
        String.toList_ofList]
      constructor
      · intro h
        rcases h with h | h
        · exact ⟨.inl h, by rw [h]; exact hw⟩
        · exact ⟨.inr h.1, h.2⟩
      · intro h
        exact h.1.imp id fun hmem => ⟨hmem, h.2⟩

/-- The gone tags are those that do, without it. -/
theorem mem_goneTags (ws : List (List Char)) (t : String) :
    t ∈ (tagsToNewGone ws).2 ↔ '-' :: t.toList ∈ ws := by
  induction ws with
  | nil => simp [tagsToNewGone]
  | cons w ws ih =>
    by_cases hw : w.head? = some '-'
    · obtain ⟨gone, rfl⟩ := List.head?_eq_some_iff.mp hw
      rw [tagsToNewGone_gone, Finset.mem_insert, ih, List.mem_cons, List.cons.injEq]
      simp [← String.toList_inj]
    · rw [tagsToNewGone_new hw, ih, List.mem_cons]
      constructor
      · exact .inr
      · intro h
        exact h.resolve_left fun heq => hw (by rw [← heq]; rfl)

/-- The tags of a line, as they are written. -/
def tagBytes (newTags goneTags : Finset String) : Finset Bytes :=
  newTags.image (fun tag => Utf8.encode tag.toList)
    ∪ goneTags.image fun tag => 45 :: Utf8.encode tag.toList

/-- The words of a line of tags. -/
def TagWords (newTags goneTags : Finset String) (ws : List (List Char)) : Prop :=
  ∀ w, w ∈ ws ↔ (∃ t ∈ newTags, t.toList = w) ∨ ∃ t ∈ goneTags, '-' :: t.toList = w

theorem mem_tagBytes {newTags goneTags : Finset String} {b : Bytes} :
    b ∈ tagBytes newTags goneTags
      ↔ (∃ t ∈ newTags, Utf8.encode t.toList = b)
        ∨ ∃ t ∈ goneTags, Utf8.encode ('-' :: t.toList) = b := by
  rw [tagBytes, Finset.mem_union, Finset.mem_image, Finset.mem_image]
  rfl

section TagLines

variable {setOrder : Finset Bytes → List Bytes} {newTags goneTags : Finset String}

/-- In whatever order they are written, the tags of a line are its words. -/
theorem exists_tagWords (horder : ∀ tags, (setOrder tags).toFinset = tags) :
    ∃ ws, TagWords newTags goneTags ws
      ∧ setOrder (tagBytes newTags goneTags) = ws.map Utf8.encode := by
  have hmem : ∀ b, b ∈ setOrder (tagBytes newTags goneTags) ↔ b ∈ tagBytes newTags goneTags := by
    intro b
    rw [← List.mem_toFinset, horder]
  obtain ⟨ws, hmap⟩ : setOrder (tagBytes newTags goneTags) ∈ Set.range (List.map Utf8.encode) := by
    rw [Set.range_list_map]
    intro b hb
    rcases mem_tagBytes.mp ((hmem b).mp hb) with ⟨t, ht, h⟩ | ⟨t, ht, h⟩
    · exact ⟨_, h⟩
    · exact ⟨_, h⟩
  refine ⟨ws, ?_, hmap.symm⟩
  intro w
  have hw : w ∈ ws ↔ Utf8.encode w ∈ tagBytes newTags goneTags := by
    rw [← hmem, ← hmap, List.mem_map_of_injective fun _ _ => Utf8.encode_injective]
  rw [hw, mem_tagBytes]
  constructor
  · exact Or.imp (fun ⟨t, ht, h⟩ => ⟨t, ht, Utf8.encode_injective h⟩)
      (fun ⟨t, ht, h⟩ => ⟨t, ht, Utf8.encode_injective h⟩)
  · exact Or.imp (fun ⟨t, ht, h⟩ => ⟨t, ht, by rw [h]⟩) (fun ⟨t, ht, h⟩ => ⟨t, ht, by rw [h]⟩)

theorem TagWords.isWord {ws : List (List Char)} (hws : TagWords newTags goneTags ws)
    (hnew : ∀ t ∈ newTags, IsWord t.toList)
    (hgone : ∀ t ∈ goneTags, ∀ c ∈ t.toList, isSpaceChar c = false) : ∀ w ∈ ws, IsWord w := by
  intro w hw
  rcases (hws w).mp hw with ⟨t, ht, rfl⟩ | ⟨t, ht, rfl⟩
  · exact hnew t ht
  · refine ⟨by simp, ?_⟩
    intro c hc
    rcases List.mem_cons.mp hc with rfl | hc
    · decide
    · exact hgone t ht c hc

/-- The words are divided as they were put together. -/
theorem TagWords.tagsToNewGone {ws : List (List Char)} (hws : TagWords newTags goneTags ws)
    (hdash : ∀ t ∈ newTags, t.toList.head? ≠ some '-') :
    tagsToNewGone ws = (newTags, goneTags) := by
  refine Prod.ext (Finset.ext fun t => ?_) (Finset.ext fun t => ?_)
  · rw [mem_newTags, hws]
    constructor
    · intro h
      rcases h.1 with ⟨t', ht', heq⟩ | ⟨t', ht', heq⟩
      · rwa [← String.toList_inj.mp heq]
      · exact absurd (by rw [← heq]; rfl) h.2
    · intro ht
      exact ⟨.inl ⟨t, ht, rfl⟩, hdash t ht⟩
  · rw [mem_goneTags, hws]
    constructor
    · intro h
      rcases h with ⟨t', ht', heq⟩ | ⟨t', ht', heq⟩
      · exact absurd (by rw [heq]; rfl) (hdash t' ht')
      · rwa [← String.toList_inj.mp (List.cons.inj heq).2]
    · intro ht
      exact .inr ⟨t, ht, rfl⟩

end TagLines

/-- Words a blank apart are not blank, and in one line. -/
theorem intercalate_words {ws : List (List Char)} (h : ∀ w ∈ ws, IsWord w) (hne : ws ≠ []) :
    HasWord ([' '].intercalate ws) ∧ '\n' ∉ [' '].intercalate ws := by
  constructor
  · obtain ⟨w, ws', rfl⟩ := List.exists_cons_of_ne_nil hne
    have hw := h w (by simp)
    obtain ⟨c, cs, rfl⟩ := List.exists_cons_of_ne_nil hw.1
    refine ⟨c, ?_, hw.2 c (by simp)⟩
    cases ws' with
    | nil => simp
    | cons v ws' => simp [List.intercalate_cons_cons]
  · intro hmem
    rcases mem_intercalate hmem with hblank | ⟨w, hw, hmem⟩
    · cases hblank
    · have := (h w hw).2 _ hmem
      cases this

/-- A line of tags. -/
theorem reads_tags (hs : TakesCommands s) {setOrder : Finset Bytes → List Bytes}
    (horder : ∀ tags, (setOrder tags).toFinset = tags) {newTags goneTags : Finset String}
    (hne : ¬ (newTags = ∅ ∧ goneTags = ∅)) (hnew : ∀ t ∈ newTags, IsWord t.toList)
    (hdash : ∀ t ∈ newTags, t.toList.head? ≠ some '-')
    (hgone : ∀ t ∈ goneTags, ∀ c ∈ t.toList, isSpaceChar c = false) :
    ∃ line, Reads parseDate s (Client.tags setOrder newTags goneTags)
      [.call (.tags newTags goneTags), .subunit line] s := by
  obtain ⟨ws, htags, hmap⟩ := @exists_tagWords setOrder newTags goneTags horder
  have hws := htags.isWord hnew hgone
  have hsplit := htags.tagsToNewGone hdash
  have hwsne : ws ≠ [] := by
    intro hnil
    rw [hnil] at hsplit
    exact hne ⟨(congrArg Prod.fst hsplit).symm, (congrArg Prod.snd hsplit).symm⟩
  obtain ⟨hword, hnewline⟩ := intercalate_words hws hwsne
  generalize htext : [' '].intercalate ws = text at hword hnewline
  have hwritten : Client.tags setOrder newTags goneTags
      = ascii "tags: " ++ Utf8.encode text ++ [10] := by
    rw [tagBytes] at hmap
    simp only [Client.tags, if_neg hne, hmap, ← htext, Utf8.encode_intercalate]
    rfl
  have hdir : directive (ascii "tags: " ++ Utf8.encode text ++ [10]) = some (.tags, 6) := by
    obtain ⟨b, hb, hspace⟩ := hword.notBlank
    rw [List.append_assoc]
    exact @directive_line (ascii "tags") _ (by decide) ⟨b, by simp [hb], hspace⟩
  have hdecode : Utf8.decodeString ((ascii "tags: " ++ Utf8.encode text ++ [10]).drop 6)
      = some (String.ofList (text ++ ['\n'])) := by
    have hbytes : Utf8.encode text ++ [10]
        = Utf8.encode (String.ofList (text ++ ['\n'])).toList := by
      rw [String.toList_ofList, Utf8.encode_append]
      rfl
    rw [List.append_assoc, List.drop_left' (by decide), hbytes, Utf8.decodeString_encode]
  have hwords : words (text ++ ['\n']) = ws := by
    rw [← htext]
    exact words_intercalate hws (by decide)
  obtain ⟨inTest, hline⟩ := lineReceived_command hs (ascii "tags: " ++ Utf8.encode text ++ [10])
  refine ⟨ascii "tags: " ++ Utf8.encode text ++ [10], ?_⟩
  rw [hwritten]
  refine Reads.line ?_ ?_
  · rw [List.mem_append, not_or]
    exact ⟨by decide, newline_not_mem_encode hnewline⟩
  · rw [hline, Server.commandReceived, hdir]
    simp only [Server.handleTags, hdecode, String.toList_ofList, hwords, hsplit]

end Pysubunit.V1
