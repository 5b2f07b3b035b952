/-
Pysubunit.V1.RegionTheorems — a multipart region is read as it was written.

A part is a line with its content type, a line with its name and its body in
chunks; cut into lines, the body goes through the chunk decoder piece by piece
(`feeds_stream`). `part_read` is one part, `parts_read` all of them, in the
order of their names, and `sameDetails_insertAll` says that the dict read is the
dict written.
-/
import Pysubunit.V1.ChunkedTheorems
import Pysubunit.V1.Client
import Pysubunit.V1.LineTheorems

namespace Pysubunit.V1

open ByteLib

/-! ## Details that can be sent -/

/-- ASCII without newline. -/
def AsciiLine (s : String) : Prop := ∀ c ∈ s.toList, c.toNat < 0x80 ∧ c ≠ '\n'

instance (s : String) : Decidable (AsciiLine s) := List.decidableBAll _ _

/-- A plain type/subtype pair. -/
def PlainType (t : ContentType) : Prop :=
  AsciiLine t.type ∧ AsciiLine t.subtype ∧ '/' ∉ t.type.toList ∧ '/' ∉ t.subtype.toList
    ∧ t.parameters = []

instance (t : ContentType) : Decidable (PlainType t) := inferInstanceAs (Decidable (_ ∧ _))

/-- Details with plain names and types; the contents are arbitrary. -/
def DetailsOk (details : Details) : Prop :=
  ∀ name content, details.lookup name = some content →
    AsciiLine name ∧ PlainType content.contentType

/-- The content with its pieces put together. -/
def Content.joined (c : Content) : Content := { c with iterBytes := [c.iterBytes.flatten] }

/-- The same names with the same types and bytes. -/
def SameDetails (sent got : Details) : Prop :=
  ∀ name, got.lookup name = (sent.lookup name).map Content.joined

/-! ## Feeding a parser -/

theorem Feeds.trans {p p' p'' : DetailsParser} {a b : List Bytes} (ha : Feeds p a p')
    (hb : Feeds p' b p'') : Feeds p (a ++ b) p'' := by
  induction hb with
  | nil => simpa using ha
  | snoc hb hline ih =>
    rw [← List.append_assoc]
    exact ih.snoc hline

theorem Feeds.one {p p' : DetailsParser} {line : Bytes}
    (h : p.lineReceived line = ⟨p', .ok false⟩) : Feeds p [line] p' :=
  Feeds.snoc .nil h

open Decoder (Awaits)

/-- **The body of a part**, cut in any way. -/
theorem feeds_stream (details : Details) (contentType : ContentType) (name : String)
    {pieces : List Bytes} (hpieces : ∀ p ∈ pieces, p ≠ []) {d : Decoder} {content : Bytes}
    (h : Awaits d pieces.flatten content) (body : Bytes) :
    Feeds (.multipart details (.feedChunks contentType name body d)) pieces
      (.multipart (details.insert name ⟨contentType, [body ++ content]⟩) .lookForContent) := by
  induction pieces generalizing d content body with
  | nil => exact absurd rfl h.ne_nil
  | cons piece pieces ih =>
    have hpiece := hpieces piece (by simp)
    have hmore : ∀ p ∈ pieces, p ≠ [] := fun p hp => hpieces p (by simp [hp])
    have htakes := Decoder.write_takes h hpiece (.inl ⟨pieces.flatten, rfl⟩)
    generalize hw : d.write piece = written at htakes
    cases htakes with
    | @part d' wire' output content' hwire hcontent hnext =>
      have hwire' : pieces.flatten = wire' := List.append_cancel_left hwire
      subst hwire' hcontent
      have hline : DetailsParser.lineReceived
          (.multipart details (.feedChunks contentType name body d)) piece
          = ⟨.multipart details (.feedChunks contentType name (body ++ output) d'), .ok false⟩ := by
        simp [DetailsParser.lineReceived, DetailsParser.feedChunks, hw]
      have := (Feeds.one hline).trans (ih hmore hnext (body ++ output))
      simpa using this
    | @whole d' behind hwhole hstate hbuf =>
      have hflat : pieces.flatten ++ behind = [] := by
        rw [List.flatten_cons, List.append_assoc] at hwhole
        exact List.append_right_eq_self.mp hwhole.symm
      obtain ⟨hnil, rfl⟩ := List.append_eq_nil_iff.mp hflat
      have hend : pieces = [] := by
        cases pieces with
        | nil => rfl
        | cons p ps => exact absurd (List.append_eq_nil_iff.mp hnil).1 (hmore p (by simp))
      subst hend
      have hline : DetailsParser.lineReceived
          (.multipart details (.feedChunks contentType name body d)) piece
          = ⟨.multipart (details.insert name ⟨contentType, [body ++ content]⟩) .lookForContent,
            .ok false⟩ := by
        simp [DetailsParser.lineReceived, DetailsParser.feedChunks, hw, Decoder.close, hstate]
      exact Feeds.one hline

/-! ## Parts -/

theorem latin1_ascii {s : String} (h : ∀ c ∈ s.toList, c.toNat < 0x80) :
    Client.latin1 s = .ok (Utf8.encode s.toList) := by
  have hall : (s.toList.all fun c => decide (c.toNat < 256)) = true := by
    rw [List.all_eq_true]
    intro c hc
    have := h c hc
    simp
    omega
  rw [Client.latin1, if_pos hall, Utf8.encode_ascii h]

/-- The line that announces a content type. -/
def contentTypeText (t : ContentType) : String := "Content-Type: " ++ t.type ++ "/" ++ t.subtype

theorem toList_contentTypeText (t : ContentType) :
    (contentTypeText t).toList
      = "Content-Type: ".toList ++ t.type.toList ++ "/".toList ++ t.subtype.toList := by
  have htext : contentTypeText t = "Content-Type: " ++ t.type ++ "/" ++ t.subtype := rfl
  rw [htext, String.toList_append, String.toList_append, String.toList_append]

theorem contentTypeText_ascii {t : ContentType} (h : PlainType t) :
    ∀ c ∈ (contentTypeText t).toList, c.toNat < 0x80 ∧ c ≠ '\n' := by
  obtain ⟨htype, hsub, -⟩ := h
  intro c hc
  simp only [toList_contentTypeText, List.mem_append] at hc
  rcases hc with ((hc | hc) | hc) | hc
  · have hall : AsciiLine "Content-Type: " := by decide
    exact hall c hc
  · exact htype c hc
  · have hall : AsciiLine "/" := by decide
    exact hall c hc
  · exact hsub c hc

theorem contentTypeOf_text {t : ContentType} (h : PlainType t) :
    DetailsParser.contentTypeOf (Utf8.encode (contentTypeText t).toList ++ [10]) = .ok t := by
  obtain ⟨-, -, htype, hsub, hparams⟩ := h
  have hdrop : (contentTypeText t).toList.dropWhile (fun c => c != ' ')
      = ' ' :: (t.type.toList ++ '/' :: t.subtype.toList) := by
    have hchars : (contentTypeText t).toList
        = "Content-Type:".toList ++ ' ' :: (t.type.toList ++ '/' :: t.subtype.toList) := by
      simp only [toList_contentTypeText, List.append_assoc]
      rfl
    rw [hchars, List.dropWhile_append_of_pos (List.all_eq_true.mp (by decide))]
    simp
  have hsplit : (t.type.toList ++ '/' :: t.subtype.toList).splitOnP (fun c => c == '/')
      = [t.type.toList, t.subtype.toList] := by
    rw [List.splitOnP_append_cons _ _ (by decide), List.splitOnP_eq_singleton,
      List.splitOnP_eq_singleton]
    · rfl
    · intro c hc
      have : c ≠ '/' := fun heq => hsub (heq ▸ hc)
      simpa using this
    · intro c hc
      have : c ≠ '/' := fun heq => htype (heq ▸ hc)
      simpa using this
  unfold DetailsParser.contentTypeOf
  rw [decodeLine_encode]
  simp only [hdrop, hsplit, String.ofList_toList]
  rw [← hparams]

theorem terminated_concat (b : Bytes) : Terminated (b ++ [10]) := by
  intro x hx
  simpa using hx.symm

theorem terminated_stream (chunks : List Bytes) : Terminated (stream chunks) := by
  have hend : stream chunks = chunks.flatMap chunk ++ ascii "0\r" ++ [10] := by
    rw [stream, List.append_assoc]
    rfl
  rw [hend]
  exact terminated_concat _

/-- The bytes of a part. -/
def partBytes (name : String) (t : ContentType) (chunks : List Bytes) : Bytes :=
  Utf8.encode (contentTypeText t).toList ++ 10 :: (Utf8.encode name.toList ++ 10 :: stream chunks)

theorem writePart_plain {name : String} {content : Content} {chunks : List Bytes}
    (hname : AsciiLine name) (htype : PlainType content.contentType)
    (h : Encoder.encode {} content.iterBytes = stream chunks) :
    Client.writePart name content = .ok (partBytes name content.contentType chunks) := by
  have htypeLine : Client.latin1 ("Content-Type: " ++ content.contentType.type ++ "/"
      ++ content.contentType.subtype) = .ok (Utf8.encode (contentTypeText content.contentType).toList) :=
    latin1_ascii fun c hc => (contentTypeText_ascii htype c hc).1
  have hnameLine : Client.latin1 ("\n" ++ name ++ "\n")
      = .ok (10 :: Utf8.encode name.toList ++ [10]) := by
    have hchars : ("\n" ++ name ++ "\n").toList = '\n' :: (name.toList ++ ['\n']) := by
      simp only [String.toList_append]
      rfl
    rw [latin1_ascii, hchars, Utf8.encode_cons, Utf8.encode_append]
    · rfl
    · rw [hchars]
      intro c hc
      rcases List.mem_cons.mp hc with rfl | hc
      · decide
      · rcases List.mem_append.mp hc with hc | hc
        · exact (hname c hc).1
        · rw [List.mem_singleton] at hc
          subst hc
          decide
  unfold Client.writePart
  rw [htypeLine, htype.2.2.2.2, hnameLine, h]
  simp [Client.writeParameters, partBytes, bind, Except.bind, pure, Except.pure]

theorem terminated_part (name : String) (t : ContentType) (chunks : List Bytes) :
    Terminated (partBytes name t chunks) := by
  have hparts : partBytes name t chunks
      = (Utf8.encode (contentTypeText t).toList ++ 10 :: Utf8.encode name.toList) ++ [10]
        ++ stream chunks := by simp [partBytes]
  rw [hparts]
  exact (terminated_concat _).append (terminated_stream chunks)

theorem feeds_contentType {t : ContentType} (h : PlainType t) (details : Details) :
    Feeds (.multipart details .lookForContent)
      [Utf8.encode (contentTypeText t).toList ++ [10]] (.multipart details (.getName t)) := by
  have hne : Utf8.encode (contentTypeText t).toList ++ [10] ≠ endMarker := by
    intro heq
    have hfirst : (Utf8.encode (contentTypeText t).toList ++ [10]).head? = some 67 := by
      rw [toList_contentTypeText]
      rfl
    rw [heq] at hfirst
    cases hfirst
  refine Feeds.one ?_
  simp [DetailsParser.lineReceived, DetailsParser.lookForContent, hne, contentTypeOf_text h]

theorem feeds_name (details : Details) (t : ContentType) (name : String) :
    Feeds (.multipart details (.getName t)) [Utf8.encode name.toList ++ [10]]
      (.multipart details (.feedChunks t name [] {})) := by
  refine Feeds.one ?_
  simp [DetailsParser.lineReceived, DetailsParser.getName, decodeLine_encode]

/-- A part is read line by line. -/
theorem feeds_part {name : String} {content : Content} {chunks : List Bytes}
    (hname : AsciiLine name) (htype : PlainType content.contentType)
    (hchunks : ∀ c ∈ chunks, c ≠ []) (hflat : chunks.flatten = content.iterBytes.flatten)
    (details : Details) :
    Feeds (.multipart details .lookForContent)
      (lines (partBytes name content.contentType chunks))
      (.multipart (details.insert name content.joined) .lookForContent) := by
  have htypeLine : 10 ∉ Utf8.encode (contentTypeText content.contentType).toList :=
    newline_not_mem_encode fun h => (contentTypeText_ascii htype _ h).2 rfl
  have hnameLine : 10 ∉ Utf8.encode name.toList :=
    newline_not_mem_encode fun h => (hname _ h).2 rfl
  have hawaits : Awaits {} (lines (stream chunks)).flatten content.iterBytes.flatten := by
    rw [lines_flatten, ← hflat]
    exact Decoder.awaits_stream true hchunks
  have hbody := feeds_stream details content.contentType name
    (fun p hp => ne_nil_of_mem_lines hp) hawaits []
  rw [partBytes, lines_line htypeLine, lines_line hnameLine]
  exact ((feeds_contentType htype details).trans (feeds_name _ _ _)).trans hbody

/-- **A part** is written and read again. -/
theorem part_read {name : String} {content : Content} (hname : AsciiLine name)
    (htype : PlainType content.contentType) :
    ∃ part, Client.writePart name content = .ok part ∧ Terminated part
      ∧ ∀ details, Feeds (.multipart details .lookForContent) (lines part)
          (.multipart (details.insert name content.joined) .lookForContent) := by
  obtain ⟨chunks, hchunks, hencode, hflat⟩ :=
    Encoder.encode_stream Encoder.ready_empty content.iterBytes
  exact ⟨_, writePart_plain hname htype hencode, terminated_part _ _ _,
    feeds_part hname htype hchunks (by simpa using hflat)⟩

/-! ## All parts -/

/-- What a parser has read after some items. -/
def insertAll (details : Details) (items : List (String × Content)) : Details :=
  items.foldl (fun d item => d.insert item.1 item.2.joined) details

theorem parts_read {items : List (String × Content)}
    (h : ∀ item ∈ items, AsciiLine item.1 ∧ PlainType item.2.contentType) :
    ∃ parts, Client.writeParts items = .ok parts ∧ Terminated parts
      ∧ ∀ details, Feeds (.multipart details .lookForContent) (lines parts)
          (.multipart (insertAll details items) .lookForContent) := by
  induction items with
  | nil => exact ⟨[], rfl, by simp [Terminated], fun details => .nil⟩
  | cons item items ih =>
    obtain ⟨name, content⟩ := item
    obtain ⟨hname, htype⟩ := h (name, content) (by simp)
    obtain ⟨part, hpart, hterm, hfeeds⟩ := part_read hname htype
    obtain ⟨parts, hparts, hterms, hfeedsAll⟩ := ih fun item hitem => h item (by simp [hitem])
    refine ⟨part ++ parts, ?_, hterm.append hterms, ?_⟩
    · rw [Client.writeParts, hpart, hparts]
      rfl
    · intro details
      rw [lines_append hterm]
      exact (hfeeds details).trans (hfeedsAll _)

theorem mem_sortedItems {details : Details} {item : String × Content} :
    item ∈ Client.sortedItems details ↔ details.lookup item.1 = some item.2 := by
  obtain ⟨name, content⟩ := item
  simp only [Client.sortedItems, List.mem_filterMap, Finset.mem_sort, Finmap.mem_keys,
    Option.map_eq_some_iff, Prod.mk.injEq]
  constructor
  · intro h
    obtain ⟨n, -, c, hlookup, hn, hc⟩ := h
    rw [← hn, ← hc, hlookup]
  · intro h
    exact ⟨name, Finmap.mem_of_lookup_eq_some h, content, h, rfl, rfl⟩

theorem lookup_insertAll {sent : Details} {items : List (String × Content)}
    (h : ∀ item ∈ items, sent.lookup item.1 = some item.2) (details : Details) (name : String) :
    (insertAll details items).lookup name =
      if name ∈ items.map Prod.fst then (sent.lookup name).map Content.joined
      else details.lookup name := by
  induction items generalizing details with
  | nil => simp [insertAll]
  | cons item items ih =>
    obtain ⟨n, c⟩ := item
    have hn := h (n, c) (by simp)
    have hrest := ih (fun item hitem => h item (by simp [hitem])) (details.insert n c.joined)
    rw [insertAll, List.foldl_cons, ← insertAll, hrest]
    by_cases hmem : name ∈ items.map Prod.fst
    · simp [hmem]
    · by_cases hname : name = n
      · subst hname
        simp [hmem, hn, Finmap.lookup_insert]
      · simp [hmem, hname, Finmap.lookup_insert_of_ne]

/-- The items of a dict, put in one after the other, are the dict. -/
theorem sameDetails_insertAll (sent : Details) :
    SameDetails sent (insertAll ∅ (Client.sortedItems sent)) := by
  intro name
  rw [lookup_insertAll fun item hitem => mem_sortedItems.mp hitem]
  split
  · rfl
  · rename_i hmem
    have hnone : sent.lookup name = none := by
      cases hlookup : sent.lookup name with
      | none => rfl
      | some content =>
        exact absurd (List.mem_map.mpr ⟨(name, content), mem_sortedItems.mpr hlookup, rfl⟩) hmem
    rw [hnone]
    simp

end Pysubunit.V1
