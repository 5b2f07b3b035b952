/-
Pysubunit.V1.HeaderTheorems — when the headers of a multipart region are read as
they were written.

Names and types are written in Latin-1 and read as UTF-8, a type is split at its
slash, and parameters are written but never read. What is read of a part is worked
out from the bytes of its two lines (`part_readAs`). The names that are read are
then the names that were written, in some order; as a text that is not ASCII is
read as a shorter one, that is only so if all of them are ASCII.
-/
import Pysubunit.V1.SimpleRegionTheorems

namespace Pysubunit.V1

open ByteLib

/-- What is written for a details dict is parsed, up to the line that ends it, into
a dict with the same names and content types. -/
def HeadersSurvive (details : Details) : Prop :=
  ∃ parts p, Client.writeDetails details = .ok (ascii " [ multipart\n" ++ parts)
    ∧ Feeds .newMultipart (lines parts) p ∧ p.lineReceived endMarker = ⟨p, .ok true⟩
    ∧ ∀ name, ((p.getDetails none).lookup name).map Content.contentType
        = (details.lookup name).map Content.contentType

/-! ## Feeding in parts -/

theorem Feeds.split {p p'' : DetailsParser} {region : List Bytes} (h : Feeds p region p'')
    {a b : List Bytes} (hregion : region = a ++ b) : ∃ p', Feeds p a p' ∧ Feeds p' b p'' := by
  induction h generalizing b with
  | nil =>
    obtain ⟨rfl, rfl⟩ := List.append_eq_nil_iff.mp hregion.symm
    exact ⟨p, .nil, .nil⟩
  | @snoc p' p'' region line h hline ih =>
    rcases List.eq_nil_or_concat b with rfl | ⟨b', last, rfl⟩
    · rw [List.append_nil] at hregion
      exact ⟨p'', hregion ▸ h.snoc hline, .nil⟩
    · rw [List.concat_eq_append, ← List.append_assoc] at hregion
      obtain ⟨hregion', hlast⟩ := List.append_inj' hregion rfl
      obtain ⟨m, ha, hb⟩ := ih hregion'
      rw [List.concat_eq_append, ← (List.cons.inj hlast).1]
      exact ⟨m, ha, hb.snoc hline⟩

theorem Feeds.of_one {p p' : DetailsParser} {line : Bytes} (h : Feeds p [line] p') :
    p.lineReceived line = ⟨p', .ok false⟩ := by
  generalize hregion : [line] = region at h
  cases h with
  | nil => cases hregion
  | @snoc q p' region' line' h hline =>
    have hnil : region' = [] ∧ line = line' := by
      cases region' with
      | nil => exact ⟨rfl, (List.cons.inj hregion).1⟩
      | cons x xs => simp at hregion
    obtain ⟨rfl, rfl⟩ := hnil
    generalize hempty : ([] : List Bytes) = empty at h
    cases h with
    | nil => exact hline
    | snoc h hline => simp at hempty

theorem Feeds.unique {p q q' : DetailsParser} {region : List Bytes} (h : Feeds p region q)
    (h' : Feeds p region q') : q = q' := by
  induction h generalizing q' with
  | nil =>
    generalize hempty : ([] : List Bytes) = empty at h'
    cases h' with
    | nil => rfl
    | snoc h hline => simp at hempty
  | @snoc p' p'' region line h hline ih =>
    obtain ⟨m, hm, hlast⟩ := h'.split rfl
    have hstep := hlast.of_one
    rw [← ih hm, hline] at hstep
    exact congrArg DetailsParser.Received.parser hstep

/-! ## What can be read -/

/-- A content type that a parser can read. -/
structure ReadType (t : ContentType) : Prop where
  parameters : t.parameters = []
  type : '/' ∉ t.type.toList ∧ '\n' ∉ t.type.toList
  subtype : '/' ∉ t.subtype.toList ∧ '\n' ∉ t.subtype.toList

/-- Two pieces lie on the two sides of one slash. -/
theorem splitOnP_slash {value main sub : List Char}
    (h : value.splitOnP (fun c => c == '/') = [main, sub]) :
    value = main ++ '/' :: sub ∧ '/' ∉ main ∧ '/' ∉ sub := by
  have hplain : ∀ {cs : List Char}, '/' ∉ cs → ∀ c ∈ cs, (c == '/') = false := by
    intro cs hcs c hc
    have hne : c ≠ '/' := fun heq => hcs (heq ▸ hc)
    simpa using hne
  by_cases hslash : '/' ∈ value
  · obtain ⟨pre, post, rfl, hpre⟩ := List.eq_append_cons_of_mem hslash
    rw [List.splitOnP_append_cons_of_forall_mem (hplain hpre) _ (by decide)] at h
    obtain ⟨rfl, hpost⟩ := List.cons.inj h
    by_cases hmore : '/' ∈ post
    · obtain ⟨pre', post', rfl, hpre'⟩ := List.eq_append_cons_of_mem hmore
      rw [List.splitOnP_append_cons_of_forall_mem (hplain hpre') _ (by decide)] at hpost
      exact absurd (List.cons.inj hpost).2 (List.splitOnP_ne_nil _ _)
    · rw [List.splitOnP_eq_singleton (hplain hmore)] at hpost
      obtain ⟨rfl, -⟩ := List.cons.inj hpost
      exact ⟨rfl, hpre, hmore⟩
  · rw [List.splitOnP_eq_singleton (hplain hslash)] at h
    simp at h

/-- What the line of a content type says. -/
theorem contentTypeOf_eq_ok {line : Bytes} {t : ContentType}
    (h : DetailsParser.contentTypeOf line = .ok t) :
    t.parameters = [] ∧ '/' ∉ t.type.toList ∧ '/' ∉ t.subtype.toList
      ∧ ∃ front, ' ' ∉ front ∧ Utf8.encode (front ++ ' ' :: (t.type.toList ++ '/' :: t.subtype.toList))
          = dropLastBytes line 1 := by
  unfold DetailsParser.contentTypeOf at h
  cases hdecode : decodeLine line with
  | error e =>
    rw [hdecode] at h
    cases h
  | ok text =>
    rw [hdecode] at h
    dsimp only at h
    have htext := List.takeWhile_append_dropWhile (p := fun c => c != ' ') (l := text.toList)
    cases hvalue : text.toList.dropWhile (fun c => c != ' ') with
    | nil =>
      rw [hvalue] at h
      cases h
    | cons blank value =>
      have hblank : blank = ' ' := by
        have hhead := List.head_dropWhile_not (fun c => c != ' ') (l := text.toList)
          (by simp [hvalue])
        simpa [hvalue] using hhead
      rw [hvalue] at h htext
      dsimp only at h
      split at h
      · rename_i main sub hsplit
        obtain ⟨rfl, hmain, hsub⟩ := splitOnP_slash hsplit
        cases h
        refine ⟨rfl, by simpa using hmain, by simpa using hsub,
          text.toList.takeWhile fun c => c != ' ', ?_, ?_⟩
        · intro hmem
          exact absurd (List.mem_takeWhile_imp hmem) (by simp)
        · rw [hblank] at htext
          rw [String.toList_ofList, String.toList_ofList, htext]
          exact encode_of_decodeLine hdecode
      · cases h

theorem readType_of_contentTypeOf {line : Bytes} {t : ContentType}
    (hline : 10 ∉ dropLastBytes line 1) (h : DetailsParser.contentTypeOf line = .ok t) :
    ReadType t := by
  obtain ⟨hparameters, htype, hsub, front, -, hencode⟩ := contentTypeOf_eq_ok h
  have hnewline : '\n' ∉ front ++ ' ' :: (t.type.toList ++ '/' :: t.subtype.toList) := by
    intro hmem
    rw [← hencode] at hline
    refine hline (List.mem_flatMap.mpr ⟨'\n', hmem, ?_⟩)
    rw [Utf8.encodeChar_ascii (by decide)]
    decide
  simp only [List.mem_append, List.mem_cons, not_or] at hnewline
  exact ⟨hparameters, ⟨htype, hnewline.2.2.1⟩, hsub, hnewline.2.2.2.2⟩

/-- All types that a multipart parser has read. -/
def ReadTypes : DetailsParser → Prop
  | .simple _ => False
  | .multipart details state =>
    (∀ name content, details.lookup name = some content → ReadType content.contentType)
      ∧ match state with
        | .lookForContent => True
        | .getName t => ReadType t
        | .feedChunks t _ _ _ => ReadType t

theorem readTypes_insert {details : Details}
    (h : ∀ name content, details.lookup name = some content → ReadType content.contentType)
    {t : ContentType} (ht : ReadType t) (name : String) (pieces : List Bytes) :
    ∀ n content, (details.insert name ⟨t, pieces⟩).lookup n = some content →
      ReadType content.contentType := by
  intro n content hlookup
  by_cases hname : n = name
  · subst hname
    rw [Finmap.lookup_insert] at hlookup
    cases hlookup
    exact ht
  · rw [Finmap.lookup_insert_of_ne _ hname] at hlookup
    exact h n content hlookup

/-- A line adds to them. -/
theorem readTypes_lineReceived {p p' : DetailsParser} (h : ReadTypes p) {line : Bytes}
    (hline : 10 ∉ dropLastBytes line 1) (hp : p.lineReceived line = ⟨p', .ok false⟩) :
    ReadTypes p' := by
  cases p with
  | simple message => exact absurd h (by simp [ReadTypes])
  | multipart details state =>
    cases state with
    | lookForContent =>
      simp only [DetailsParser.lineReceived, DetailsParser.lookForContent] at hp
      split at hp
      · cases hp
      · split at hp
        · cases hp
        · rename_i t ht
          cases hp
          exact ⟨h.1, readType_of_contentTypeOf hline ht⟩
    | getName t =>
      simp only [DetailsParser.lineReceived, DetailsParser.getName] at hp
      split at hp
      · cases hp
      · cases hp
        exact h
    | feedChunks t name body decoder =>
      simp only [DetailsParser.lineReceived, DetailsParser.feedChunks] at hp
      split at hp
      · cases hp
      · cases hp
        exact h
      · split at hp
        · cases hp
        · split at hp
          · cases hp
          · cases hp
            exact ⟨readTypes_insert h.1 h.2 name _, trivial⟩

theorem readTypes_feeds {p q : DetailsParser} {region : List Bytes} (h : Feeds p region q)
    (hp : ReadTypes p) (hregion : ∀ line ∈ region, 10 ∉ dropLastBytes line 1) : ReadTypes q := by
  induction h with
  | nil => exact hp
  | @snoc p' p'' region line h hline ih =>
    have hbefore := ih fun l hl => hregion l (List.mem_append_left _ hl)
    exact readTypes_lineReceived hbefore (hregion line (by simp)) hline

/-! ## What is read of a part -/

/-- What is written of a part with a type that can be read. -/
theorem writePart_eq_ok {name : String} {content : Content} {part : Bytes}
    (hparameters : content.contentType.parameters = [])
    (h : Client.writePart name content = .ok part) :
    IsLatin1 (contentTypeText content.contentType) ∧ IsLatin1 name
      ∧ part = ascii (contentTypeText content.contentType)
          ++ 10 :: (ascii name ++ 10 :: Encoder.encode {} content.iterBytes) := by
  obtain ⟨typeLine, htype, h⟩ := bind_eq_ok.mp h
  obtain ⟨parameters, hwritten, h⟩ := bind_eq_ok.mp h
  obtain ⟨nameLine, hname, h⟩ := bind_eq_ok.mp h
  rw [hparameters] at hwritten
  cases hwritten
  obtain ⟨hlatin, htypeLine⟩ := latin1_eq_ok.mp htype
  obtain ⟨hlatinName, hnameLine⟩ := latin1_eq_ok.mp hname
  rw [isLatin1_append, isLatin1_append] at hlatinName
  cases h
  refine ⟨hlatin, hlatinName.1.2, ?_⟩
  rw [htypeLine, hnameLine]
  rw [ascii_append, ascii_append]
  simp [toList_contentTypeText, ascii]

/-- What an item is read as. -/
structure ReadAs (item read : String × Content) : Prop where
  latin1 : IsLatin1 item.1 ∧ IsLatin1 (contentTypeText item.2.contentType)
  type : DetailsParser.contentTypeOf (ascii (contentTypeText item.2.contentType) ++ [10])
    = .ok read.2.contentType
  name : decodeLine (ascii item.1 ++ [10]) = .ok read.1

theorem newline_not_mem_contentTypeText {t : ContentType} (h : ReadType t) :
    '\n' ∉ (contentTypeText t).toList := by
  have hstart : '\n' ∉ "Content-Type: ".toList ∧ '\n' ∉ "/".toList := by decide
  simp only [toList_contentTypeText, List.mem_append, not_or]
  exact ⟨⟨⟨hstart.1, h.type.2⟩, hstart.2⟩, h.subtype.2⟩

/-- **A part** is read somehow, if it is read. -/
theorem part_readAs {name : String} {content : Content} {part : Bytes}
    (htype : ReadType content.contentType) (hname : '\n' ∉ name.toList)
    (h : Client.writePart name content = .ok part) :
    Terminated part
      ∧ ∀ details q, Feeds (.multipart details .lookForContent) (lines part) q →
          ∃ read, ReadAs (name, content) read
            ∧ q = .multipart (details.insert read.1 read.2.joined) .lookForContent := by
  obtain ⟨hlatin, hlatinName, rfl⟩ := writePart_eq_ok htype.parameters h
  obtain ⟨chunks, hchunks, hencode, hflat⟩ :=
    Encoder.encode_stream Encoder.ready_empty content.iterBytes
  rw [hencode]
  constructor
  · have hparts : ascii (contentTypeText content.contentType) ++ 10 :: (ascii name ++ 10 :: stream chunks)
        = (ascii (contentTypeText content.contentType) ++ 10 :: ascii name) ++ [10] ++ stream chunks := by
      simp
    rw [hparts]
    exact (terminated_concat _).append (terminated_stream chunks)
  · intro details q hfeeds
    rw [lines_line (newline_not_mem_ascii hlatin (newline_not_mem_contentTypeText htype)),
      lines_line (newline_not_mem_ascii hlatinName hname)] at hfeeds
    obtain ⟨p, hfirst, hfeeds⟩ := hfeeds.split (List.singleton_append ..).symm
    obtain ⟨p', hsecond, hbody⟩ := hfeeds.split (List.singleton_append ..).symm
    -- the line of the type
    have htypeLine := hfirst.of_one
    simp only [DetailsParser.lineReceived, DetailsParser.lookForContent] at htypeLine
    split at htypeLine
    · cases htypeLine
    · split at htypeLine
      · cases htypeLine
      · rename_i t ht
        cases htypeLine
        -- the line of the name
        have hnameLine := hsecond.of_one
        simp only [DetailsParser.lineReceived, DetailsParser.getName] at hnameLine
        split at hnameLine
        · cases hnameLine
        · rename_i n hn
          cases hnameLine
          have hawaits : Decoder.Awaits {} (lines (stream chunks)).flatten chunks.flatten := by
            rw [lines_flatten]
            exact Decoder.awaits_stream true hchunks
          have hread := feeds_stream details t n (fun p hp => ne_nil_of_mem_lines hp) hawaits []
          refine ⟨(n, ⟨t, content.iterBytes⟩), ⟨⟨hlatinName, hlatin⟩, ht, hn⟩, ?_⟩
          rw [hbody.unique hread, hflat]
          rfl

/-- All parts are, in their order. -/
theorem parts_readAs {items : List (String × Content)} {parts : Bytes}
    (htype : ∀ item ∈ items, ReadType item.2.contentType)
    (hname : ∀ item ∈ items, '\n' ∉ item.1.toList) (h : Client.writeParts items = .ok parts) :
    Terminated parts
      ∧ ∀ details q, Feeds (.multipart details .lookForContent) (lines parts) q →
          ∃ reads, List.Forall₂ ReadAs items reads
            ∧ q = .multipart (insertAll details reads) .lookForContent := by
  induction items generalizing parts with
  | nil =>
    cases h
    refine ⟨by simp [Terminated], fun details q hfeeds => ⟨[], .nil, ?_⟩⟩
    exact hfeeds.unique .nil
  | cons item items ih =>
    obtain ⟨name, content⟩ := item
    rw [List.forall_mem_cons] at htype hname
    obtain ⟨part, hpart, h⟩ := bind_eq_ok.mp h
    obtain ⟨rest, hrest, h⟩ := bind_eq_ok.mp h
    cases h
    obtain ⟨hterm, hfirst⟩ := part_readAs htype.1 hname.1 hpart
    obtain ⟨hterms, hall⟩ := ih htype.2 hname.2 hrest
    refine ⟨hterm.append hterms, fun details q hfeeds => ?_⟩
    rw [lines_append hterm] at hfeeds
    obtain ⟨p, hbefore, hbehind⟩ := hfeeds.split rfl
    obtain ⟨read, hread, rfl⟩ := hfirst details p hbefore
    obtain ⟨reads, hreads, rfl⟩ := hall _ q hbehind
    exact ⟨read :: reads, .cons hread hreads, rfl⟩

theorem exists_of_forall₂ {α β : Type} {R : α → β → Prop} {as : List α} {bs : List β}
    (h : List.Forall₂ R as bs) {a : α} (ha : a ∈ as) : ∃ b ∈ bs, R a b := by
  induction h with
  | nil => simp at ha
  | @cons x y xs ys hxy _ ih =>
    rcases List.mem_cons.mp ha with rfl | ha
    · exact ⟨y, List.mem_cons_self, hxy⟩
    · obtain ⟨b, hb, hab⟩ := ih ha
      exact ⟨b, List.mem_cons_of_mem y hb, hab⟩

/-! ## Names -/

/-- How many characters are not ASCII. -/
def beyondAscii (s : String) : Nat := s.toList.countP fun c => 0x80 ≤ c.toNat

theorem beyondAscii_eq_zero {s : String} : beyondAscii s = 0 ↔ IsAscii s := Utf8.countP_eq_zero_iff

/-- The octets of a name are the octets of what is read of it. -/
theorem ReadAs.encode {item read : String × Content} (h : ReadAs item read) :
    Utf8.encode read.1.toList = ascii item.1 := by
  rw [encode_of_decodeLine h.name]
  exact dropLastBytes_append _ [10]

/-- Read as UTF-8, a name is shorter by its characters beyond ASCII. -/
theorem ReadAs.length_le {item read : String × Content} (h : ReadAs item read) :
    read.1.toList.length + beyondAscii read.1 ≤ item.1.toList.length := by
  have hlength := Utf8.length_encode read.1.toList
  rw [h.encode, ascii, List.length_map] at hlength
  exact hlength

theorem sum_length_le {items reads : List (String × Content)} (h : List.Forall₂ ReadAs items reads) :
    (reads.map fun read => read.1.toList.length + beyondAscii read.1).sum
      ≤ (items.map fun item => item.1.toList.length).sum := by
  induction h with
  | nil => simp
  | cons hread _ ih =>
    have hle := hread.length_le
    simp only [List.map_cons, List.sum_cons]
    omega

/-- If the names that are read are the names that were written, all are ASCII. -/
theorem isAscii_of_perm {items reads : List (String × Content)} (h : List.Forall₂ ReadAs items reads)
    (hperm : (items.map Prod.fst).Perm (reads.map Prod.fst)) :
    ∀ name ∈ items.map Prod.fst, IsAscii name := by
  have hsum := sum_length_le h
  have hlengths := (hperm.map fun name => name.toList.length).sum_eq
  rw [List.map_map, List.map_map] at hlengths
  rw [List.sum_map_add] at hsum
  have hzero : (reads.map fun read => beyondAscii read.1).sum = 0 := by
    have hsame : (items.map fun item => item.1.toList.length).sum
        = (reads.map fun read => read.1.toList.length).sum := hlengths
    omega
  intro name hname
  obtain ⟨read, hread, rfl⟩ := List.mem_map.mp (hperm.subset hname)
  rw [List.sum_eq_zero_iff] at hzero
  exact beyondAscii_eq_zero.mp (hzero _ (List.mem_map.mpr ⟨read, hread, rfl⟩))

/-- ASCII names are read as they are. -/
theorem names_of_isAscii {items reads : List (String × Content)} (h : List.Forall₂ ReadAs items reads)
    (hascii : ∀ name ∈ items.map Prod.fst, IsAscii name) :
    List.Forall₂ (fun item read => ReadAs item read ∧ read.1 = item.1) items reads := by
  induction h with
  | nil => exact .nil
  | @cons item read items reads hread _ ih =>
    rw [List.map_cons, List.forall_mem_cons] at hascii
    refine .cons ⟨hread, ?_⟩ (ih hascii.2)
    have hencode := hread.encode
    rw [← Utf8.encode_ascii hascii.1] at hencode
    exact String.toList_injective (Utf8.encode_injective hencode)

/-! ## Types -/

/-- A type that is read as itself is ASCII. -/
theorem isAscii_of_contentTypeOf {t : ContentType} (hlatin : IsLatin1 (contentTypeText t))
    (h : DetailsParser.contentTypeOf (ascii (contentTypeText t) ++ [10]) = .ok t) :
    IsAscii t.type ∧ IsAscii t.subtype := by
  obtain ⟨-, -, -, front, -, hencode⟩ := contentTypeOf_eq_ok h
  have hline : dropLastBytes (ascii (contentTypeText t) ++ [10]) 1 = ascii (contentTypeText t) :=
    dropLastBytes_append _ [10]
  have hle := Utf8.two_mul_countP_le (front ++ ' ' :: (t.type.toList ++ '/' :: t.subtype.toList))
  rw [hencode, hline, countP_ascii hlatin] at hle
  have hstart : beyondAscii "Content-Type: " = 0 ∧ beyondAscii "/" = 0 := by decide
  simp only [toList_contentTypeText, List.countP_append, List.countP_cons] at hle
  simp only [beyondAscii] at hstart
  rw [← beyondAscii_eq_zero, ← beyondAscii_eq_zero, beyondAscii, beyondAscii]
  omega

/-! ## Dicts -/

theorem sortedItems_names (details : Details) :
    (Client.sortedItems details).map Prod.fst = details.keys.sort := by
  have hall : ∀ name ∈ details.keys.sort,
      ((details.lookup name).map fun content => (name, content)).map Prod.fst = some name := by
    intro name hname
    rw [Finset.mem_sort, Finmap.mem_keys, Finmap.mem_iff] at hname
    obtain ⟨content, hlookup⟩ := hname
    rw [hlookup]
    rfl
  rw [Client.sortedItems, List.map_filterMap, List.filterMap_congr hall, List.filterMap_some]

theorem mem_insertAll {details : Details} {items : List (String × Content)} {name : String} :
    name ∈ insertAll details items ↔ name ∈ details ∨ name ∈ items.map Prod.fst := by
  induction items generalizing details with
  | nil => simp [insertAll]
  | cons item items ih =>
    rw [insertAll, List.foldl_cons, ← insertAll, ih, Finmap.mem_insert, List.map_cons,
      List.mem_cons]
    tauto

theorem lookup_insertAll_of_not_mem {items : List (String × Content)} {name : String}
    (h : name ∉ items.map Prod.fst) (details : Details) :
    (insertAll details items).lookup name = details.lookup name := by
  induction items generalizing details with
  | nil => rfl
  | cons item items ih =>
    rw [List.map_cons, List.mem_cons, not_or] at h
    rw [insertAll, List.foldl_cons, ← insertAll, ih h.2, Finmap.lookup_insert_of_ne _ h.1]

/-- Names that differ do not cover each other up. -/
theorem lookup_insertAll_of_mem {details : Details} {items : List (String × Content)}
    (h : (items.map Prod.fst).Nodup) {item : String × Content} (hitem : item ∈ items) :
    (insertAll details items).lookup item.1 = some item.2.joined := by
  induction items generalizing details with
  | nil => simp at hitem
  | cons first items ih =>
    rw [List.map_cons, List.nodup_cons] at h
    rw [insertAll, List.foldl_cons, ← insertAll]
    rcases List.mem_cons.mp hitem with rfl | hitem
    · rw [lookup_insertAll_of_not_mem h.1, Finmap.lookup_insert]
    · exact ih h.2 hitem

/-! ## When headers survive -/

/-- The names that are read are those that were written, in some order. -/
theorem names_perm {details : Details} {reads : List (String × Content)}
    (h : List.Forall₂ ReadAs (Client.sortedItems details) reads)
    (hsame : ∀ name, name ∈ details → name ∈ reads.map Prod.fst) :
    ((Client.sortedItems details).map Prod.fst).Perm (reads.map Prod.fst) := by
  have hnodup : ((Client.sortedItems details).map Prod.fst).Nodup := by
    rw [sortedItems_names]
    exact Finset.sort_nodup _ _
  have hsubset : (Client.sortedItems details).map Prod.fst ⊆ reads.map Prod.fst := by
    intro name hname
    rw [sortedItems_names, Finset.mem_sort, Finmap.mem_keys] at hname
    exact hsame name hname
  have hlength : (reads.map Prod.fst).length ≤ ((Client.sortedItems details).map Prod.fst).length := by
    rw [List.length_map, List.length_map, h.length_eq]
  exact (List.subperm_of_subset hnodup hsubset).perm_of_length_le hlength

/-- Headers that survive are plain. -/
theorem detailsOk_of_survive {details : Details} (hnames : ∀ name ∈ details, '\n' ∉ name.toList)
    (h : HeadersSurvive details) : DetailsOk details := by
  obtain ⟨parts, p, hwrite, hfeeds, -, hsame⟩ := h
  obtain ⟨written, hparts, hwritten⟩ := bind_eq_ok.mp hwrite
  have hwritten' : written = parts := List.append_cancel_left (Except.ok.inj hwritten)
  subst hwritten'
  -- all types that have been read are types that can be
  have hread : ReadTypes p := readTypes_feeds hfeeds ⟨by simp, trivial⟩ fun line hline =>
    newline_not_mem_line hline
  have hitems : ∀ item ∈ Client.sortedItems details,
      ReadType item.2.contentType ∧ '\n' ∉ item.1.toList := by
    intro item hitem
    have hlookup := mem_sortedItems.mp hitem
    refine ⟨?_, hnames _ (Finmap.mem_of_lookup_eq_some hlookup)⟩
    have hgot := hsame item.1
    rw [hlookup, Option.map_some, Option.map_eq_some_iff] at hgot
    obtain ⟨content, hcontent, htype⟩ := hgot
    cases p with
    | simple message => exact absurd hread (by simp [ReadTypes])
    | multipart got state =>
      rw [← htype]
      exact hread.1 _ _ hcontent
  obtain ⟨-, hreads⟩ := parts_readAs (fun item hitem => (hitems item hitem).1)
    (fun item hitem => (hitems item hitem).2) hparts
  obtain ⟨reads, hforall, rfl⟩ := hreads ∅ p hfeeds
  have hsame' : ∀ name, ((insertAll ∅ reads).lookup name).map Content.contentType
      = (details.lookup name).map Content.contentType := hsame
  -- the names are ASCII, so that they are read as they are
  have hperm := names_perm hforall fun name hname => by
    obtain ⟨content, hlookup⟩ := Finmap.mem_iff.mp hname
    have hgot := hsame' name
    rw [hlookup, Option.map_some, Option.map_eq_some_iff] at hgot
    obtain ⟨got, hgot, -⟩ := hgot
    have hmem := mem_insertAll.mp (Finmap.mem_of_lookup_eq_some hgot)
    exact hmem.resolve_left Finmap.notMem_empty
  have hascii := isAscii_of_perm hforall hperm
  have hnamed := names_of_isAscii hforall hascii
  have hnodup : (reads.map Prod.fst).Nodup := by
    rw [← hperm.nodup_iff, sortedItems_names]
    exact Finset.sort_nodup _ _
  intro name content hlookup
  have hitem : (name, content) ∈ Client.sortedItems details := mem_sortedItems.mpr hlookup
  have hname : IsAscii name := hascii name (List.mem_map.mpr ⟨_, hitem, rfl⟩)
  obtain ⟨read, hmem, hreadAs, hsameName⟩ := exists_of_forall₂ hnamed hitem
  -- and so are the types
  have htype : read.2.contentType = content.contentType := by
    have hgot := hsame' name
    have hfound := @lookup_insertAll_of_mem ∅ _ hnodup _ hmem
    rw [hsameName] at hfound
    rw [hfound, hlookup] at hgot
    exact Option.some.inj hgot
  have hline := hreadAs.type
  rw [htype] at hline
  obtain ⟨htypeAscii, hsubAscii⟩ := isAscii_of_contentTypeOf hreadAs.latin1.2 hline
  have hplain := (hitems _ hitem).1
  refine ⟨fun c hc => ⟨hname c hc, ?_⟩, fun c hc => ⟨htypeAscii c hc, ?_⟩,
    fun c hc => ⟨hsubAscii c hc, ?_⟩, hplain.type.1, hplain.subtype.1, hplain.parameters⟩
  · exact fun heq => (hitems _ hitem).2 (heq ▸ hc)
  · exact fun heq => hplain.type.2 (heq ▸ hc)
  · exact fun heq => hplain.subtype.2 (heq ▸ hc)

/-- **When the headers of a region survive.** Names and types are ASCII, no type
holds a slash or a newline, and there are no parameters. -/
theorem headersSurvive_iff {details : Details} (hnames : ∀ name ∈ details, '\n' ∉ name.toList) :
    HeadersSurvive details ↔ DetailsOk details := by
  constructor
  · exact detailsOk_of_survive hnames
  · intro hok
    obtain ⟨parts, hparts, -, hfeeds⟩ := @parts_read (Client.sortedItems details)
      fun item hitem => hok item.1 item.2 (mem_sortedItems.mp hitem)
    refine ⟨parts, _, ?_, hfeeds ∅, rfl, ?_⟩
    · rw [Client.writeDetails, hparts]
      rfl
    · intro name
      have hsame := sameDetails_insertAll details name
      rw [DetailsParser.getDetails, hsame, Option.map_map]
      rfl

/-- One detail. -/
def oneDetail (name : String) (t : ContentType) (content : Bytes) : Details :=
  Finmap.singleton name ⟨t, [content]⟩

theorem lookup_oneDetail {name n : String} {t : ContentType} {bytes : Bytes} {content : Content}
    (h : (oneDetail name t bytes).lookup n = some content) : n = name ∧ content = ⟨t, [bytes]⟩ := by
  have hname : n = name := (Finmap.mem_singleton _ _ _).mp (Finmap.mem_of_lookup_eq_some h)
  subst hname
  rw [oneDetail, Finmap.lookup_singleton_eq] at h
  exact ⟨rfl, (Option.some.inj h).symm⟩

/-- A log, an image in two pieces with blanks in its name, and an empty text. -/
def threeDetails : Details :=
  ((oneDetail "log" ⟨"text", "plain", []⟩ (ascii "foo\n")).insert "a screen shot"
    ⟨⟨"image", "x-raw", []⟩, [[0xFF, 0x00], [0xB3]]⟩).insert "none" ⟨⟨"text", "plain", []⟩, []⟩

theorem headersSurvive_log : HeadersSurvive threeDetails := by
  have hall : ∀ name content, threeDetails.lookup name = some content →
      (name, content) ∈ [("none", ⟨⟨"text", "plain", []⟩, []⟩),
        ("a screen shot", ⟨⟨"image", "x-raw", []⟩, [[0xFF, 0x00], [0xB3]]⟩),
        ("log", ⟨⟨"text", "plain", []⟩, [ascii "foo\n"]⟩)] := by
    intro name content hlookup
    by_cases hnone : name = "none"
    · subst hnone
      rw [threeDetails, Finmap.lookup_insert] at hlookup
      cases hlookup
      simp
    · rw [threeDetails, Finmap.lookup_insert_of_ne _ hnone] at hlookup
      by_cases hshot : name = "a screen shot"
      · subst hshot
        rw [Finmap.lookup_insert] at hlookup
        cases hlookup
        simp
      · rw [Finmap.lookup_insert_of_ne _ hshot] at hlookup
        obtain ⟨rfl, rfl⟩ := lookup_oneDetail hlookup
        simp
  apply (headersSurvive_iff ?_).mpr
  · intro name content hlookup
    have hmem := hall name content hlookup
    simp only [List.mem_cons, Prod.mk.injEq, List.not_mem_nil, or_false] at hmem
    rcases hmem with ⟨rfl, rfl⟩ | ⟨rfl, rfl⟩ | ⟨rfl, rfl⟩ <;> exact ⟨by decide, by decide⟩
  · intro name hname
    obtain ⟨content, hlookup⟩ := Finmap.mem_iff.mp hname
    have hmem := hall name content hlookup
    simp only [List.mem_cons, Prod.mk.injEq, List.not_mem_nil, or_false] at hmem
    rcases hmem with ⟨rfl, rfl⟩ | ⟨rfl, rfl⟩ | ⟨rfl, rfl⟩ <;> decide

/-- The type of a traceback has a parameter, which is read as part of the subtype. -/
theorem parameters_lost :
    ¬ HeadersSurvive
      (oneDetail "traceback" ⟨"text", "x-traceback", [("charset", "utf8")]⟩ (ascii "foo\n")) := by
  intro h
  have hok := detailsOk_of_survive (by
    intro name hname
    obtain ⟨content, hlookup⟩ := Finmap.mem_iff.mp hname
    obtain ⟨rfl, rfl⟩ := lookup_oneDetail hlookup
    decide) h
  obtain ⟨-, hplain⟩ := hok "traceback" _ (Finmap.lookup_singleton_eq)
  exact absurd hplain.2.2.2.2 (by simp)

end Pysubunit.V1
