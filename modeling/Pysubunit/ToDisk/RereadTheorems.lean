/-
Pysubunit.ToDisk.RereadTheorems — what an export says, read again.

The summary of a test is JSON, and `json.loads` reads it as the fields that `json.dumps` was
given, whatever characters are in them (`loads_dumps`). It names the attachments. So a test is
read back from its directory (`reread_record`), as long as each attachment is in the file of
its name, and not in one with a number because it is called as the summary. The directories
that an export has made hold the tests it was given, in their order, and there are no others
(`exportAll_reread`).
-/
import Pysubunit.ByteLib.Json
import Pysubunit.ToDisk.ExportTheorems

namespace Pysubunit.ToDisk

open ByteLib
open ByteLib.Json (Value Escapes Reads ReadsField quoted reads_null reads_quoted reads_array
  reads_object readsField_quoted loads_of_reads)

/-! ## The summary -/

/-- What is read of a value. -/
def Json.value : Json → Value
  | .null => .null
  | .string s => .string s
  | .list items => .array (items.map .string)

theorem hexDigit_digitChar {n : Nat} (h : n < 16) :
    ByteLib.Json.hexDigit (Nat.digitChar n) = some n := by
  have hall : ∀ n < 16, ByteLib.Json.hexDigit (Nat.digitChar n) = some n := by decide
  exact hall n h

theorem escapes_escapeJson : Escapes escapeJson := by
  intro c t stack
  have hnull : ByteLib.Json.hexDigit '0' = some 0 := by decide
  unfold escapeJson
  split_ifs with hquote hslash hn hr ht hb hf hcontrol
  · subst hquote
    rfl
  · subst hslash
    rfl
  · subst hn
    rfl
  · subst hr
    rfl
  · subst ht
    rfl
  · obtain rfl : c = '\x08' := Char.ext (UInt32.toNat_inj.mp hb)
    rfl
  · obtain rfl : c = '\x0c' := Char.ext (UInt32.toNat_inj.mp hf)
    rfl
  · -- four digits, of which the last two are not zero
    have hhigh := hexDigit_digitChar (show c.toNat / 16 < 16 by omega)
    have hlow := hexDigit_digitChar (show c.toNat % 16 < 16 by omega)
    have hvalue : c.toNat / 16 * 16 + c.toNat % 16 = c.toNat := Nat.div_add_mod' _ _
    simp [ByteLib.Json.Reader.step, hnull, hhigh, hlow, hvalue]
  · simp [ByteLib.Json.Reader.step, hquote, hslash, hcontrol]

theorem reads_value (v : Json) : Reads v.dumps v.value := by
  cases v with
  | null => exact reads_null
  | string s => exact reads_quoted escapes_escapeJson s
  | list items =>
    refine reads_array ?_
    induction items with
    | nil => exact .nil
    | cons item items ih => exact .cons (reads_quoted escapes_escapeJson item) ih

/-- **The summary is read** as what was written. -/
theorem loads_dumps (fields : List (String × Json)) :
    ByteLib.Json.loads (dumps fields)
      = some (.object (fields.map fun field => (field.1, field.2.value))) := by
  refine loads_of_reads (reads_object ?_)
  induction fields with
  | nil => exact .nil
  | cons field fields ih =>
    exact .cons (readsField_quoted escapes_escapeJson field.1 (reads_value field.2)) ih

/-! ## Reading a test -/

/-- What there is to read of a test. -/
structure Record where
  id : String
  tags : List String
  details : List (String × Bytes)
  status : String
  start : Option String
  stop : Option String
  deriving DecidableEq

def asString : Value → Option String
  | .string s => some s
  | _ => none

def asStrings : Value → Option (List String)
  | .array items => items.mapM asString
  | _ => none

/-- `null` is no time. -/
def asTime : Value → Option (Option String)
  | .null => some none
  | v => (asString v).map some

/-- `open(path, 'rb').read()` -/
def contentAt (d : Disk) (p : RealPath) : Option Bytes :=
  match d.lookup p with
  | some (.file content) => some content
  | _ => none

/-- The test in a directory: its summary, and the attachments that this names. -/
def reread (d : Disk) (root : RealPath) : Option Record := do
  let content ← contentAt d (candidateOf root "test.json".toList)
  let text ← Utf8.decodeString content
  let summary ← ByteLib.Json.loads text.toList
  let id ← (summary.get "id").bind asString
  let tags ← (summary.get "tags").bind asStrings
  let names ← (summary.get "details").bind asStrings
  let details ← names.mapM fun name =>
    (contentAt d (candidateOf root name.toList)).map fun content => (name, content)
  let status ← (summary.get "status").bind asString
  let start ← (summary.get "start").bind asTime
  let stop ← (summary.get "stop").bind asTime
  return { id, tags, details, status, start, stop }

section Tests

variable {Time : Type} (str : Time → String)

/-- The names of the attachments, as the summary has them. -/
def TestDict.detailNames (t : TestDict Time) : List String :=
  t.details.keyList.mergeSort fun a b => decide (a ≤ b)

/-- What is to be read of a test. -/
def TestDict.record (t : TestDict Time) : Record where
  id := t.id
  tags := sorted t.tags
  details := t.detailNames.map fun name => (name, ((t.details.lookup name).getD []).flatten)
  status := t.status
  start := t.timestamps.1.map str
  stop := t.timestamps.2.map str

/-- Each of the files is in the directory under its own name. -/
def HasFiles (root : RealPath) (d : Disk) (files : List (String × List Bytes)) : Prop :=
  ∀ file ∈ files, d.lookup (candidateOf root file.1.toList) = some (.file file.2.flatten)

theorem HasFiles.grows {root : RealPath} {d d' : Disk} {files : List (String × List Bytes)}
    (h : HasFiles root d files) (hgrows : Grows d d') : HasFiles root d' files :=
  fun file hfile => hgrows _ _ (h file hfile)

/-- The summary is in a directory. -/
theorem HasFiles.directory {t : TestDict Time} {root : RealPath} {d : Disk}
    (h : HasFiles root d (t.files str)) : d.lookup root = some .directory := by
  have hfile := h _ List.mem_cons_self
  rw [candidateOf_testJson] at hfile
  have hparent := Disk.lookup_parent (d := d) (p := testJson root) (by simp [testJson])
    (by simp [hfile])
  rwa [testJson, RealPath.parent_child] at hparent

theorem mapM_eq_some {α β : Type} {f : α → Option β} {g : α → β} {xs : List α}
    (h : ∀ x ∈ xs, f x = some (g x)) : xs.mapM f = some (xs.map g) := by
  induction xs with
  | nil => rfl
  | cons x xs ih =>
    rw [List.forall_mem_cons] at h
    simp [h.1, ih h.2]

theorem asStrings_array (items : List String) :
    asStrings (.array (items.map .string)) = some items := by
  have hmap : (items.map Value.string).mapM asString = (items.mapM some : Option (List String)) :=
    List.mapM_map
  rw [asStrings, hmap, mapM_eq_some fun _ _ => rfl, List.map_id']

theorem asTime_jsonTime (time : Option Time) :
    asTime (jsonTime str time).value = some (time.map str) := by
  cases time <;> rfl

theorem mem_detailItems {details : Dict String (List Bytes)} {name : String}
    (h : name ∈ details.keyList) :
    (name, (details.lookup name).getD []) ∈ detailItems details := by
  obtain ⟨chunks, hchunks⟩ := Option.isSome_iff_exists.mp (Dict.mem_keyList.mp h)
  rw [hchunks, Option.getD_some, detailItems, List.mem_map]
  exact ⟨⟨name, chunks⟩, List.mem_reverse.mpr (AList.mem_lookup_iff.mp hchunks), rfl⟩

theorem contentAt_of_file {d : Disk} {p : RealPath} {content : Bytes}
    (h : d.lookup p = some (.file content)) : contentAt d p = some content := by
  rw [contentAt, h]

/-- The fields of a summary. -/
def TestDict.fields (t : TestDict Time) : List (String × Json) :=
  [("details", .list t.detailNames), ("id", .string t.id), ("start", jsonTime str t.timestamps.1),
    ("status", .string t.status), ("stop", jsonTime str t.timestamps.2),
    ("tags", .list (sorted t.tags))]

theorem decodeString_summary (t : TestDict Time) :
    Utf8.decodeString (t.summary str) = some (String.ofList (dumps (t.fields str))) := by
  have hsummary : t.summary str = Utf8.encode (String.ofList (dumps (t.fields str))).toList := by
    rw [String.toList_ofList]
    rfl
  rw [hsummary, Utf8.decodeString_encode]

/-- **A test is read back** from its files. -/
theorem reread_record {t : TestDict Time} {root : RealPath} {d : Disk}
    (h : HasFiles root d (t.files str)) : reread d root = some (t.record str) := by
  have hsummary : contentAt d (candidateOf root "test.json".toList) = some (t.summary str) := by
    have hfile := h ("test.json", [t.summary str]) List.mem_cons_self
    rw [List.flatten_singleton] at hfile
    exact contentAt_of_file hfile
  have hdetails : (t.detailNames.mapM fun name =>
        (contentAt d (candidateOf root name.toList)).map fun content => (name, content))
      = some (t.record str).details := by
    refine mapM_eq_some fun name hname => ?_
    have hmem := mem_detailItems (List.mem_mergeSort.mp hname)
    rw [contentAt_of_file (h _ (List.mem_cons_of_mem _ hmem))]
    rfl
  obtain ⟨summary, hloads⟩ : ∃ summary, summary = Value.object ((t.fields str).map fun field =>
    (field.1, field.2.value)) := ⟨_, rfl⟩
  have hid : summary.get "id" = some (.string t.id) := by rw [hloads]; rfl
  have htags : summary.get "tags" = some (.array ((sorted t.tags).map .string)) := by
    rw [hloads]; rfl
  have hnames : summary.get "details" = some (.array (t.detailNames.map .string)) := by
    rw [hloads]; rfl
  have hstatus : summary.get "status" = some (.string t.status) := by rw [hloads]; rfl
  have hstart : summary.get "start" = some (jsonTime str t.timestamps.1).value := by
    rw [hloads]; rfl
  have hstop : summary.get "stop" = some (jsonTime str t.timestamps.2).value := by
    rw [hloads]; rfl
  simp only [reread, hsummary, decodeString_summary, String.toList_ofList, loads_dumps, ← hloads,
    hid, htags, hnames, hstatus, hstart, hstop, asStrings_array, asTime_jsonTime, hdetails, asString,
    Option.bind_eq_bind, Option.bind_some]
  rfl

/-! ## Every file under its own name -/

section Named

variable (depth : Nat) {d : Disk} {directory root : RealPath}

/-- **Files with different names** come into a directory under them, if nothing is there; nothing
that is not in the directory, or on the way to it, is touched. -/
theorem writeFiles_named {files : List (String × List Bytes)}
    (hnames : ∀ file ∈ files, IsName file.1.toList) (hnodup : (files.map Prod.fst).Nodup)
    (hclear : d.Clear root)
    (hfree : ∀ file ∈ files, d.lookup (candidateOf root file.1.toList) = none) :
    ∃ d', writeFiles (depth + 1) root d files = (d', none) ∧ Grows d d'
      ∧ HasFiles root d' files
      ∧ ∀ q : RealPath, ¬ q.OnWay root → ¬ root.OnWay q → d'.lookup q = d.lookup q := by
  induction files generalizing d with
  | nil => exact ⟨d, rfl, Grows.refl d, by simp [HasFiles], fun _ _ _ => rfl⟩
  | cons file files ih =>
    obtain ⟨sub, chunks⟩ := file
    obtain ⟨hsub, hrest⟩ := List.forall_mem_cons.mp hnames
    obtain ⟨hnone, hfree⟩ := List.forall_mem_cons.mp hfree
    rw [List.map_cons, List.nodup_cons] at hnodup
    obtain ⟨hfits, hclear'⟩ := writeFile_of_isName depth hsub hclear chunks
    obtain ⟨p, d₁, hwrite, hwrote, -, hcandidate⟩ :=
      writeFile_fits depth (isRelative_of_isName hsub) hfits chunks
    obtain rfl := hcandidate hnone
    have hparent : (candidateOf root sub.toList).parent = root := by
      rw [candidateOf_name root hsub, RealPath.parent_child]
    rw [hwrite] at hclear'
    have hfree' : ∀ file ∈ files, d₁.lookup (candidateOf root file.1.toList) = none := by
      intro file hfile
      have hname := hrest file hfile
      have hne : file.1 ≠ sub := fun heq => hnodup.1 (List.mem_map.mpr ⟨file, hfile, heq⟩)
      have hchild := hwrote.child hname
      rw [hparent, ← candidateOf_name root hname] at hchild
      rw [hchild ?_, hfree file hfile]
      rw [candidateOf_name root hname, candidateOf_name root hsub]
      intro heq
      have hlast := congrArg (fun p : RealPath => p.names.getLast?) heq
      simp only [RealPath.child_names, List.getLast?_concat, Option.some.injEq] at hlast
      exact hne (String.toList_inj.mp hlast)
    obtain ⟨d', hwrites, hgrows, hfiles, hframe⟩ := ih hrest hnodup.2 hclear' hfree'
    refine ⟨d', (forEach_cons hwrite files).trans hwrites, hwrote.grows.trans hgrows,
      List.forall_mem_cons.mpr ⟨hgrows _ _ hwrote.file, hfiles⟩, fun q hway hbelow => ?_⟩
    have hne : q ≠ candidateOf root sub.toList := by
      rintro rfl
      have hway := RealPath.parent_onWay (candidateOf root sub.toList)
      rw [hparent] at hway
      exact hbelow hway
    rw [hframe q hway hbelow, hwrote.lookup, if_neg hne, hparent, if_neg hway]

/-- The names of a test's files differ, if no attachment is called as the summary. -/
theorem nodup_files {t : TestDict Time} (h : "test.json" ∉ t.details.keys) :
    ((t.files str).map Prod.fst).Nodup := by
  have hnames : (detailItems t.details).map Prod.fst = t.details.keys.reverse := by
    simp only [detailItems, List.map_map, List.map_reverse]
    rfl
  rw [TestDict.files, List.map_cons, hnames, List.nodup_cons, List.mem_reverse,
    List.nodup_reverse]
  exact ⟨h, t.details.keys_nodup⟩

/-- **A test** comes into a new directory with its files under their names, and nothing else is
touched. -/
theorem exportTest_named {t : TestDict Time} (hflat : t.Flat)
    (hsummary : "test.json" ∉ t.details.keys) (hdirectory : d.lookup directory = some .directory) :
    ∃ root d', exportTest str (depth + 1) directory d t = (d', none) ∧ Grows d d'
      ∧ HasFiles root d' (t.files str) ∧ d.lookup root = none ∧ root.parent = directory
      ∧ ∀ q : RealPath, ¬ root.OnWay q → d'.lookup q = d.lookup q := by
  obtain ⟨root, hallocate, hfresh, hne, hparent, -⟩ :=
    allocate_relative depth d directory hflat.relative.1
  rw [candidateOf_name directory hflat.1, RealPath.parent_child] at hparent
  have hclear := Disk.clear_of_missing hfresh (hparent ▸ hdirectory)
  obtain ⟨d', hwrites, hgrows, hfiles, hframe⟩ :=
    writeFiles_named depth (hflat.files str) (nodup_files str hsummary) hclear fun file hfile => by
      rw [candidateOf_name root (hflat.files str file hfile)]
      exact Disk.lookup_child hfresh _
  refine ⟨root, d', ?_, hgrows, hfiles, hfresh, hparent, fun q hbelow => ?_⟩
  · simp only [exportTest, hallocate, hwrites]
  · -- on the way to the new directory is the one of the export, which was there
    by_cases hway : q.OnWay root
    · have hwayParent : q.OnWay directory := by
        rcases (RealPath.onWay_iff hne).mp hway with rfl | hway
        · exact absurd (RealPath.onWay_refl q) hbelow
        · exact hparent ▸ hway
      have hq := Disk.directory_of_onWay hdirectory hwayParent
      rw [hq, hgrows _ _ hq]
    · exact hframe q hway hbelow

/-- In one directory the way to none leads through another. -/
theorem eq_of_onWay {p q : RealPath} (hparent : p.parent = q.parent) (hp : p.names ≠ [])
    (hq : q.names ≠ []) (hway : p.OnWay q) : p = q := by
  rcases (RealPath.onWay_iff hq).mp hway with heq | hway
  · exact heq
  · rw [← hparent] at hway
    exact absurd hway (RealPath.not_onWay_parent hp)

/-- **The tests are in the new directories**, one in each. -/
theorem exportAll_named {tests : List (TestDict Time)} (hflat : ∀ t ∈ tests, t.Flat)
    (hsummary : ∀ t ∈ tests, "test.json" ∉ t.details.keys)
    (hdirectory : d.lookup directory = some .directory) :
    ∃ roots d', exportAll str (depth + 1) directory d tests = (d', none) ∧ Grows d d'
      ∧ List.Forall₂ (fun t root => HasFiles root d' (t.files str)) tests roots ∧ roots.Nodup
      ∧ ∀ p, p ∈ roots ↔ p.parent = directory ∧ d.lookup p = none ∧ d'.lookup p ≠ none := by
  induction tests generalizing d with
  | nil => exact ⟨[], d, rfl, Grows.refl d, .nil, List.nodup_nil, by simp⟩
  | cons t tests ih =>
    obtain ⟨ht, htests⟩ := List.forall_mem_cons.mp hflat
    obtain ⟨hs, hsummary⟩ := List.forall_mem_cons.mp hsummary
    obtain ⟨root, d₁, hexport, hgrows, hfiles, hfresh, hparent, hframe⟩ :=
      exportTest_named str depth ht hs hdirectory
    obtain ⟨roots, d', hexports, hgrows', hall, hnodup, hroots⟩ :=
      ih htests hsummary (hgrows _ _ hdirectory)
    have hroot := hfiles.directory str
    refine ⟨root :: roots, d', (forEach_cons hexport tests).trans hexports, hgrows.trans hgrows',
      .cons (hfiles.grows hgrows') hall, List.nodup_cons.mpr ⟨?_, hnodup⟩, fun p => ?_⟩
    · intro hmem
      have hnone := ((hroots root).mp hmem).2.1
      rw [hroot] at hnone
      cases hnone
    · rw [List.mem_cons, hroots]
      constructor
      · rintro (rfl | ⟨hp, hnone, hnode⟩)
        · exact ⟨hparent, hfresh, by simp [hgrows' _ _ hroot]⟩
        · exact ⟨hp, hgrows.fresh hnone, hnode⟩
      · rintro ⟨hp, hnone, hnode⟩
        by_cases hbelow : root.OnWay p
        · left
          refine (eq_of_onWay (hparent.trans hp.symm) ?_ ?_ hbelow).symm
          · exact Disk.names_ne_nil (d := d) (by simp [hfresh])
          · exact Disk.names_ne_nil (d := d) (by simp [hnone])
        · right
          exact ⟨hp, by rw [hframe p hbelow, hnone], hnode⟩

end Named

/-- **An export can be read again.** Whatever tests are exported into a directory, with whatever
texts, if their ids and the names of their attachments are names of files and no attachment is
called as the summary: nothing raises, there is one new directory in it for each of the tests, and
what is read there is the test, with its id, tags, status, times and attachments. -/
theorem exportAll_reread (depth : Nat) {d : Disk} {directory : RealPath}
    {tests : List (TestDict Time)} (hdirectory : d.lookup directory = some .directory)
    (hflat : ∀ t ∈ tests, t.Flat) (hsummary : ∀ t ∈ tests, "test.json" ∉ t.details.keys) :
    ∃ (roots : List RealPath) (d' : Disk),
      exportAll str (depth + 1) directory d tests = (d', none) ∧ roots.Nodup
      ∧ (∀ p, p ∈ roots ↔ p.parent = directory ∧ d.lookup p = none ∧ d'.lookup p ≠ none)
      ∧ roots.map (reread d') = tests.map fun t => some (t.record str) := by
  obtain ⟨roots, d', hexport, -, hfiles, hnodup, hroots⟩ :=
    exportAll_named str depth hflat hsummary hdirectory
  refine ⟨roots, d', hexport, hnodup, hroots, ?_⟩
  clear hexport hnodup hroots hflat hsummary
  induction hfiles with
  | nil => rfl
  | cons hfile _ ih => rw [List.map_cons, List.map_cons, reread_record str hfile, ih]

/-- A test with texts that have to be escaped, twice. -/
def escaped : List (TestDict Nat) :=
  let test : TestDict Nat := {
    id := "foo"
    tags := {"a\"b", "\x01"}
    details := Dict.set ∅ "test.log" [[1], [2, 3]]
    status := "line\\\n"
    timestamps := (some 7, none) }
  [test, test]

theorem flat_escaped : ∀ t ∈ escaped, t.Flat := by
  have hlog : IsName "test.log".toList := ⟨by decide, by decide, by decide, by decide⟩
  have hdetails : ∀ t : TestDict Nat, t.id = "foo" → t.details.keys = ["test.log"] → t.Flat := by
    intro t hid hkeys
    rw [TestDict.Flat, hid, hkeys, List.forall_mem_singleton]
    exact ⟨isName_foo, hlog⟩
  rw [escaped, List.forall_mem_cons, List.forall_mem_singleton]
  exact ⟨hdetails _ rfl rfl, hdetails _ rfl rfl⟩

theorem exportAll_reread_escaped :
    ∃ (roots : List RealPath) (d' : Disk),
      exportAll Nat.repr 1000 outRoot outDisk escaped = (d', none) ∧ roots.Nodup
      ∧ (∀ p, p ∈ roots ↔ p.parent = outRoot ∧ outDisk.lookup p = none ∧ d'.lookup p ≠ none)
      ∧ roots.map (reread d') = escaped.map fun t => some (t.record Nat.repr) := by
  refine exportAll_reread Nat.repr 999 lookup_outDisk flat_escaped ?_
  have hkeys : ∀ t ∈ escaped, t.details.keys = ["test.log"] := by
    rw [escaped, List.forall_mem_cons, List.forall_mem_singleton]
    exact ⟨rfl, rfl⟩
  intro t ht
  rw [hkeys t ht]
  decide

end Tests

end Pysubunit.ToDisk
