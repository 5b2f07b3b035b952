/-
Pysubunit.ToDisk.ExportTheorems — what an export leaves on the disk.

A file that is opened is new (`allocate_relative`), and opening it changes nothing but
the directories that were missing on its way (`Wrote`). So whatever is written stays, and
the one thing that goes wrong is a file on the way. `Fits` says that there is none;
`openPath_fits` and `openPath_blocked` are the two cases, and `exported_iff` is what they
come to for whole histories.
-/
import Pysubunit.ToDisk.DiskExporter

namespace Pysubunit.ToDisk

open ByteLib

/-! ## Where a file is put -/

/-- The path that a relative path is a candidate for. -/
theorem candidateOf_relative (root : RealPath) {sub : List Char} (h : IsRelative sub) :
    (candidateOf root sub).names = root.names ++ parts sub := resolveNames_relative root h

/-- A name is put into the directory itself. -/
theorem candidateOf_name (root : RealPath) {sub : List Char} (h : IsName sub) :
    candidateOf root sub = root.child sub h := by
  refine RealPath.ext ?_
  have hnames := resolveNames_joinPath root h.slash_not_mem
  rw [resolveName, if_neg (by simp [h.ne_nil, h.ne_dot]), if_neg h.ne_dots] at hnames
  exact hnames

theorem mem_fileSystem (d : Disk) (p : RealPath) :
    p.toPath ∈ (fileSystem d).paths ↔ d.lookup p ≠ none := by
  have hmem : p.toPath ∈ (fileSystem d).paths ↔ p ∈ d.nodes.keys := by
    simp only [fileSystem, Finset.mem_image]
    constructor
    · rintro ⟨q, hq, heq⟩
      rwa [← RealPath.toPath_injective heq]
    · intro hp
      exact ⟨p, hp, rfl⟩
  rw [hmem, Finmap.mem_keys, ← Finmap.lookup_isSome, Option.isSome_iff_ne_none]
  rfl

/-- An attempt is a path beside the candidate. -/
theorem probe_path {p : RealPath} (h : p.names ≠ []) (n : Nat) :
    ∃ q : RealPath, probe p.toPath n = q.toPath ∧ q.parent = p.parent ∧ q.names ≠ [] := by
  cases n with
  | zero => exact ⟨p, rfl, rfl, h⟩
  | succ n =>
    obtain ⟨names, name, hnames, hname⟩ := eq_concat_of_ne_nil h
    have hnumbered := isName_suffix name (n + 1) hname.slash_not_mem
    refine ⟨p.parent.child _ hnumbered, ?_, by simp, by simp⟩
    rw [probe, RealPath.toPath, if_neg h, RealPath.toPath, if_neg (by simp), RealPath.child_names,
      RealPath.parent_names, hnames, List.dropLast_concat, slashed_concat, slashed_concat]
    simp

/-- **The path that is allocated** is new, and where the candidate would be; it is the candidate
if nothing is there. -/
theorem allocate_relative (depth : Nat) (d : Disk) (root : RealPath) {sub : String}
    (h : IsRelative sub.toList) :
    ∃ p, allocate (depth + 1) d root sub = some p ∧ d.lookup p = none ∧ p.names ≠ []
      ∧ p.parent = (candidateOf root sub.toList).parent
      ∧ (d.lookup (candidateOf root sub.toList) = none → p = candidateOf root sub.toList) := by
  have hnames := candidateOf_relative root h
  have hne : (candidateOf root sub.toList).names ≠ [] := by simp [hnames, parts_ne_nil h]
  have hbegins : root.toPath <+: (candidateOf root sub.toList).toPath :=
    RealPath.toPath_isPrefix ⟨_, hnames.symm⟩
  obtain ⟨n, hfree, hnot⟩ := firstFree_spec (fileSystem d) (candidateOf root sub.toList).toPath
  obtain ⟨p, hprobe, hparent, hp⟩ := probe_path hne n
  have hallocate : allocate (depth + 1) d root sub = some p := by
    rw [allocate, allocatePath_succ, if_pos hbegins, hfree, hprobe, Option.map_some,
      resolve_toPath]
  have hnode : d.lookup p = none := by
    by_contra hnode
    exact hnot (hprobe ▸ (mem_fileSystem d p).mpr hnode)
  refine ⟨p, hallocate, hnode, hp, hparent, fun hnone => ?_⟩
  have hfirst : firstFree (fileSystem d) (candidateOf root sub.toList).toPath
      = (candidateOf root sub.toList).toPath := by
    refine firstFree_of_not_mem fun hmem => ?_
    exact (mem_fileSystem d _).mp hmem hnone
  exact RealPath.toPath_injective (hprobe.symm.trans (hfree.symm.trans hfirst))

/-! ## One file -/

/-- What was on the disk is there as it was. -/
def Grows (d d' : Disk) : Prop := ∀ p node, d.lookup p = some node → d'.lookup p = some node

theorem Grows.refl (d : Disk) : Grows d d := fun _ _ h => h

theorem Grows.trans {d d' d'' : Disk} (h : Grows d d') (h' : Grows d' d'') : Grows d d'' :=
  fun p node hnode => h' p node (h p node hnode)

/-- A path that is new is new on what the disk has grown from. -/
theorem Grows.fresh {d d' : Disk} (h : Grows d d') {p : RealPath} (hp : d'.lookup p = none) :
    d.lookup p = none := by
  cases hlookup : d.lookup p with
  | none => rfl
  | some node => exact (hp.symm.trans (h p node hlookup)).symm

/-- A new file, and directories on its way, are all that a disk has more. -/
structure Wrote (d : Disk) (p : RealPath) (content : Bytes) (d' : Disk) : Prop where
  fresh : d.lookup p = none
  clear : d.Clear p.parent
  lookup : ∀ q, d'.lookup q = if q = p then some (.file content)
    else if q.OnWay p.parent then some .directory else d.lookup q

theorem Wrote.file {d d' : Disk} {p : RealPath} {content : Bytes} (h : Wrote d p content d') :
    d'.lookup p = some (.file content) := by
  rw [h.lookup, if_pos rfl]

theorem Wrote.grows {d d' : Disk} {p : RealPath} {content : Bytes} (h : Wrote d p content d') :
    Grows d d' := by
  intro q node hnode
  have hne : q ≠ p := by
    rintro rfl
    rw [h.fresh] at hnode
    cases hnode
  rw [h.lookup, if_neg hne]
  split
  · rename_i hway
    have hclear : d.Clear q := fun r hr => h.clear r (hr.trans hway)
    rw [← hnode, Disk.lookup_of_clear hclear (by simp [hnode])]
  · exact hnode

/-- What a file is put into is a directory. -/
theorem Wrote.directory {d d' : Disk} {p : RealPath} {content : Bytes} (h : Wrote d p content d') :
    d'.lookup p.parent = some .directory := by
  have hp : p.names ≠ [] := Disk.names_ne_nil (d := d) (by simp [h.fresh])
  rw [h.lookup, if_neg (RealPath.parent_ne hp), if_pos p.parent.onWay_refl]

/-- What else is in the directory is as it was. -/
theorem Wrote.child {d d' : Disk} {p : RealPath} {content : Bytes} (h : Wrote d p content d')
    {name : List Char} (hname : IsName name) (hne : p.parent.child name hname ≠ p) :
    d'.lookup (p.parent.child name hname) = d.lookup (p.parent.child name hname) := by
  have hway : ¬ (p.parent.child name hname).OnWay (p.parent.child name hname).parent :=
    RealPath.not_onWay_parent (by simp)
  rw [RealPath.parent_child] at hway
  rw [h.lookup, if_neg hne, if_neg hway]

theorem Wrote.append {d d' : Disk} {p : RealPath} {content : Bytes} (h : Wrote d p content d')
    (bytes : Bytes) : Wrote d p (content ++ bytes) (d'.append p bytes) := by
  refine ⟨h.fresh, h.clear, fun q => ?_⟩
  rw [Disk.lookup_append h.file, h.lookup]
  by_cases hq : q = p
  · simp [hq]
  · simp [hq]

theorem Wrote.chunks {d d' : Disk} {p : RealPath} {content : Bytes} (h : Wrote d p content d')
    (chunks : List Bytes) :
    Wrote d p (content ++ chunks.flatten) (chunks.foldl (fun d chunk => d.append p chunk) d') := by
  induction chunks generalizing content d' with
  | nil => simpa using h
  | cons chunk chunks ih =>
    rw [List.flatten_cons, ← List.append_assoc]
    exact ih (h.append chunk)

/-- No file is on the way to where a file is to be put. -/
def Fits (d : Disk) (root : RealPath) (sub : String) : Prop :=
  d.Clear (candidateOf root sub.toList).parent

section Files

variable (depth : Nat) {d : Disk} {root : RealPath} {sub : String}

/-- **A file that fits** is opened, new and empty. -/
theorem openPath_fits (hsub : IsRelative sub.toList) (h : Fits d root sub) :
    ∃ p d', openPath (depth + 1) d root sub = (d', .ok p) ∧ Wrote d p [] d'
      ∧ p.parent = (candidateOf root sub.toList).parent
      ∧ (d.lookup (candidateOf root sub.toList) = none → p = candidateOf root sub.toList) := by
  obtain ⟨p, hallocate, hfresh, hp, hparent, hcandidate⟩ := allocate_relative depth d root hsub
  have hclear : d.Clear p.parent := hparent ▸ h
  obtain ⟨made, result, hmade, hresult, hlookup⟩ := Disk.makedirs_clear hclear
  have hnode : made.lookup p = none := by
    rw [hlookup, if_neg (RealPath.not_onWay_parent hp), hfresh]
  have hdirectory : made.lookup p.parent = some .directory := by
    rw [hlookup, if_pos p.parent.onWay_refl]
  have hopen : openPath (depth + 1) d root sub
      = (made.put p (.file []) hdirectory (by simp [hnode]), .ok p) := by
    unfold openPath
    rcases hresult with rfl | rfl <;>
      simp only [hallocate, hmade, Disk.create_eq hnode hdirectory]
  refine ⟨p, _, hopen, ⟨hfresh, hclear, fun q => ?_⟩, hparent, hcandidate⟩
  rw [Disk.lookup_put, hlookup]

/-- **A file that does not fit** is not opened. -/
theorem openPath_blocked (hsub : IsRelative sub.toList) (h : ¬ Fits d root sub) :
    ∃ d' e, openPath (depth + 1) d root sub = (d', .error e) := by
  obtain ⟨p, hallocate, hfresh, hp, hparent, -⟩ := allocate_relative depth d root hsub
  have hblocked : ¬ d.Clear p.parent := hparent ▸ h
  simp only [Disk.Clear, not_forall, not_not] at hblocked
  obtain ⟨q, hway, hfile⟩ := hblocked
  have hmade := Disk.makedirs_blocked hway hfile
  unfold openPath
  simp only [hallocate, hmade]
  by_cases hq : q = p.parent
  · have hcreate := Disk.create_blocked hfresh (hq ▸ hfile)
    simp only [if_pos hq, hcreate]
    exact ⟨_, _, rfl⟩
  · simp only [if_neg hq]
    exact ⟨_, _, rfl⟩

theorem writeFile_fits (hsub : IsRelative sub.toList) (h : Fits d root sub) (chunks : List Bytes) :
    ∃ p d', writeFile (depth + 1) d root sub chunks = (d', none) ∧ Wrote d p chunks.flatten d'
      ∧ p.parent = (candidateOf root sub.toList).parent
      ∧ (d.lookup (candidateOf root sub.toList) = none → p = candidateOf root sub.toList) := by
  obtain ⟨p, d', hopen, hwrote, hparent, hcandidate⟩ := openPath_fits depth hsub h
  refine ⟨p, _, ?_, hwrote.chunks chunks, hparent, hcandidate⟩
  simp only [writeFile, hopen]

theorem writeFile_blocked (hsub : IsRelative sub.toList) (h : ¬ Fits d root sub)
    (chunks : List Bytes) : (writeFile (depth + 1) d root sub chunks).2 ≠ none := by
  obtain ⟨d', e, hopen⟩ := openPath_blocked depth hsub h
  simp [writeFile, hopen]

/-! ## The files of a test -/

/-- A file of a test is on the disk, in the directory where its name leads, with all its bytes. -/
def FileAt (root : RealPath) (d : Disk) (file : String × List Bytes) (p : RealPath) : Prop :=
  p.parent = (candidateOf root file.1.toList).parent ∧ d.lookup p = some (.file file.2.flatten)

theorem FileAt.grows {d d' : Disk} {file : String × List Bytes} {p : RealPath}
    (h : FileAt root d file p) (hgrows : Grows d d') : FileAt root d' file p :=
  ⟨h.1, hgrows p _ h.2⟩

/-- Each of the files fits where it comes. -/
def AllFit (root : RealPath) : Disk → List (String × List Bytes) → Prop :=
  Each (fun d (sub, chunks) => writeFile depth d root sub chunks) fun d file => Fits d root file.1

/-- **Files that fit** are all written, each to a new path; the first of them to its own, if
nothing is there. -/
theorem writeFiles_fit {files : List (String × List Bytes)}
    (hrel : ∀ file ∈ files, IsRelative file.1.toList) (h : AllFit (depth + 1) root d files) :
    ∃ paths d', writeFiles (depth + 1) root d files = (d', none) ∧ Grows d d'
      ∧ List.Forall₂ (FileAt root d') files paths ∧ paths.Nodup
      ∧ (∀ p ∈ paths, d.lookup p = none)
      ∧ ∀ file ∈ files.head?, d.lookup (candidateOf root file.1.toList) = none →
        paths.head? = some (candidateOf root file.1.toList) := by
  induction files generalizing d with
  | nil => exact ⟨[], d, rfl, Grows.refl d, .nil, List.nodup_nil, by simp, by simp⟩
  | cons file files ih =>
    obtain ⟨sub, chunks⟩ := file
    obtain ⟨hsub, hrest⟩ := List.forall_mem_cons.mp hrel
    obtain ⟨p, d₁, hwrite, hwrote, hparent, hcandidate⟩ := writeFile_fits depth hsub h.1 chunks
    obtain ⟨-, hall⟩ := (each_cons hwrite files).mp h
    obtain ⟨paths, d', hwrites, hgrows, hfiles, hnodup, hfresh, -⟩ := ih hrest hall
    have hnew : p ∉ paths := fun hmem => by
      have hnone := hfresh p hmem
      rw [hwrote.file] at hnone
      cases hnone
    have hat : FileAt root d₁ (sub, chunks) p := ⟨hparent, hwrote.file⟩
    refine ⟨p :: paths, d', ?_, hwrote.grows.trans hgrows, .cons (hat.grows hgrows) hfiles,
      List.nodup_cons.mpr ⟨hnew, hnodup⟩, List.forall_mem_cons.mpr ⟨hwrote.fresh, ?_⟩, ?_⟩
    · exact (forEach_cons hwrite files).trans hwrites
    · intro q hq
      exact hwrote.grows.fresh (hfresh q hq)
    · rintro file ⟨⟩ hnone
      rw [List.head?_cons, hcandidate hnone]

/-- Files of which one does not fit are not all written. -/
theorem writeFiles_blocked {files : List (String × List Bytes)}
    (hrel : ∀ file ∈ files, IsRelative file.1.toList) (h : ¬ AllFit (depth + 1) root d files) :
    (writeFiles (depth + 1) root d files).2 ≠ none := by
  refine forEach_raises (fun d file hfile hblocked => ?_) h
  exact writeFile_blocked depth (hrel file hfile) hblocked file.2

end Files

/-! ## Tests -/

theorem isName_testJson : IsName "test.json".toList :=
  ⟨by decide, by decide, by decide, by decide⟩

theorem isRelative_of_isName {sub : List Char} (h : IsName sub) : IsRelative sub := by
  refine ⟨h.ne_nil, fun hhead => h.slash_not_mem (List.mem_of_mem_head? hhead), ?_⟩
  rw [List.splitOn_eq_singleton h.slash_not_mem, List.forall_mem_singleton]
  exact ⟨h.ne_dot, h.ne_dots⟩

theorem isRelative_testJson : IsRelative "test.json".toList := isRelative_of_isName isName_testJson

/-- `test.json` in a directory. -/
def testJson (root : RealPath) : RealPath := root.child "test.json".toList isName_testJson

theorem candidateOf_testJson (root : RealPath) :
    candidateOf root "test.json".toList = testJson root := candidateOf_name root isName_testJson

section Tests

variable {Time : Type} (str : Time → String) (depth : Nat) {directory : RealPath} {d : Disk}

/-- A test with relative paths. -/
def TestDict.Relative (t : TestDict Time) : Prop :=
  IsRelative t.id.toList ∧ ∀ name ∈ t.details.keys, IsRelative name.toList

/-- The names of a test's files are `test.json` and those of its details. -/
theorem TestDict.forall_files (t : TestDict Time) {P : String → Prop} (hsummary : P "test.json")
    (hdetails : ∀ name ∈ t.details.keys, P name) : ∀ file ∈ t.files str, P file.1 := by
  refine List.forall_mem_cons.mpr ⟨hsummary, fun file hfile => ?_⟩
  simp only [detailItems, List.mem_map, List.mem_reverse] at hfile
  obtain ⟨entry, hentry, rfl⟩ := hfile
  exact hdetails _ (List.mem_map_of_mem hentry)

theorem TestDict.Relative.files {t : TestDict Time} (h : t.Relative) :
    ∀ file ∈ t.files str, IsRelative file.1.toList :=
  t.forall_files str isRelative_testJson h.2

/-- The files of a test fit below the directory that is allocated for it. -/
def TestFits (directory : RealPath) (d : Disk) (t : TestDict Time) : Prop :=
  ∀ root, allocate depth d directory t.id = some root → AllFit depth root d (t.files str)

/-- A test on a disk: a directory of its own, where the summary is in `test.json`, and each of the
files. -/
structure Placed (directory : RealPath) (d : Disk) (t : TestDict Time)
    (place : RealPath × List RealPath) : Prop where
  root : place.1.parent = (candidateOf directory t.id.toList).parent
  summary : place.2.head? = some (testJson place.1)
  files : List.Forall₂ (FileAt place.1 d) (t.files str) place.2

theorem Placed.grows {d d' : Disk} {t : TestDict Time} {place : RealPath × List RealPath}
    (h : Placed str directory d t place) (hgrows : Grows d d') :
    Placed str directory d' t place :=
  ⟨h.root, h.summary, h.files.imp fun _ _ hat => hat.grows hgrows⟩

theorem Placed.file_of_mem {t : TestDict Time} {place : RealPath × List RealPath}
    (h : Placed str directory d t place) {p : RealPath} (hp : p ∈ place.2) :
    Node.IsFile (d.lookup p) := by
  obtain ⟨i, hi, rfl⟩ := List.getElem_of_mem hp
  exact ⟨_, (h.files.get (h.files.length_eq ▸ hi) hi).2⟩

/-- **A test that fits** is exported. -/
theorem exportTest_fits {t : TestDict Time} (hrel : t.Relative)
    (h : TestFits str (depth + 1) directory d t) :
    ∃ place d', exportTest str (depth + 1) directory d t = (d', none) ∧ Grows d d'
      ∧ Placed str directory d' t place ∧ place.2.Nodup ∧ ∀ p ∈ place.2, d.lookup p = none := by
  obtain ⟨root, hallocate, hfresh, -, hparent, -⟩ := allocate_relative depth d directory hrel.1
  obtain ⟨paths, d', hwrites, hgrows, hfiles, hnodup, hnew, hfirst⟩ :=
    writeFiles_fit depth (hrel.files str) (h root hallocate)
  have hnone : d.lookup (testJson root) = none := Disk.lookup_child hfresh isName_testJson
  have hsummary : paths.head? = some (testJson root) := by
    rw [← candidateOf_testJson] at hnone ⊢
    exact hfirst _ rfl hnone
  refine ⟨(root, paths), d', ?_, hgrows, ⟨hparent, hsummary, hfiles⟩, hnodup, hnew⟩
  simp only [exportTest, hallocate, hwrites]

theorem exportTest_blocked {t : TestDict Time} (hrel : t.Relative)
    (h : ¬ TestFits str (depth + 1) directory d t) :
    (exportTest str (depth + 1) directory d t).2 ≠ none := by
  unfold TestFits at h
  push Not at h
  obtain ⟨root, hallocate, hblocked⟩ := h
  simp only [exportTest, hallocate]
  exact writeFiles_blocked depth (hrel.files str) hblocked

/-- Each of the tests fits where it comes. -/
def AllTestsFit (directory : RealPath) : Disk → List (TestDict Time) → Prop :=
  Each (exportTest str depth directory) (TestFits str depth directory)

/-- An export loses nothing: nothing raises; in the end each test has its summary and its files,
at paths of their own that were not there before; and what was on the disk at any moment between
two tests is there as it was. -/
def Exported (directory : RealPath) (d : Disk) (tests : List (TestDict Time)) : Prop :=
  ∃ places d', exportAll str depth directory d tests = (d', none)
    ∧ List.Forall₂ (Placed str directory d') tests places
    ∧ (places.flatMap Prod.snd).Nodup ∧ (∀ p ∈ places.flatMap Prod.snd, d.lookup p = none)
    ∧ ∀ before after, tests = before ++ after →
      ∃ d₁, exportAll str depth directory d before = (d₁, none) ∧ Grows d₁ d'

/-- Tests that fit are exported. -/
theorem exportAll_fit {tests : List (TestDict Time)} (hrel : ∀ t ∈ tests, t.Relative)
    (h : AllTestsFit str (depth + 1) directory d tests) :
    Exported str (depth + 1) directory d tests := by
  induction tests generalizing d with
  | nil =>
    refine ⟨[], d, rfl, .nil, List.nodup_nil, by simp, fun before after hsplit => ?_⟩
    rw [(List.append_eq_nil_iff.mp hsplit.symm).1]
    exact ⟨d, rfl, Grows.refl d⟩
  | cons t ts ih =>
    obtain ⟨ht, hts⟩ := List.forall_mem_cons.mp hrel
    obtain ⟨place, d₁, hexport, hgrows, hplaced, hnodup, hnew⟩ :=
      exportTest_fits str depth ht h.1
    obtain ⟨-, hall⟩ := (each_cons hexport ts).mp h
    obtain ⟨places, d', hexports, hplaces, hnodups, hnews, hbetween⟩ := ih hts hall
    obtain ⟨d₂, hnothing, hgrows'⟩ := hbetween [] ts rfl
    cases hnothing
    refine ⟨place :: places, d', ?_, .cons (hplaced.grows str hgrows') hplaces, ?_, ?_, ?_⟩
    · exact (forEach_cons hexport ts).trans hexports
    · rw [List.flatMap_cons, List.nodup_append]
      refine ⟨hnodup, hnodups, fun p hp q hq heq => ?_⟩
      obtain ⟨content, hfile⟩ := hplaced.file_of_mem str hp
      rw [heq, hnews q hq] at hfile
      cases hfile
    · intro p hp
      rw [List.flatMap_cons, List.mem_append] at hp
      exact hp.elim (hnew p) fun hp => hgrows.fresh (hnews p hp)
    · intro before after hsplit
      cases before with
      | nil => exact ⟨d, rfl, hgrows.trans hgrows'⟩
      | cons t' before =>
        obtain ⟨rfl, hrest⟩ := List.cons.inj hsplit
        obtain ⟨d₂, hbefore, hgrows₂⟩ := hbetween before after hrest
        exact ⟨d₂, (forEach_cons hexport before).trans hbefore, hgrows₂⟩

/-- An export of tests of which one does not fit raises. -/
theorem exportAll_blocked {tests : List (TestDict Time)} (hrel : ∀ t ∈ tests, t.Relative)
    (h : ¬ AllTestsFit str (depth + 1) directory d tests) :
    (exportAll str (depth + 1) directory d tests).2 ≠ none :=
  forEach_raises (fun _ t ht hblocked => exportTest_blocked str depth (hrel t ht) hblocked) h

theorem Exported.fit {tests : List (TestDict Time)} (hrel : ∀ t ∈ tests, t.Relative)
    (h : Exported str (depth + 1) directory d tests) :
    AllTestsFit str (depth + 1) directory d tests := by
  obtain ⟨places, d', hexport, -⟩ := h
  by_contra hblocked
  have hraises := exportAll_blocked str depth hrel hblocked
  rw [hexport] at hraises
  exact hraises rfl

/-! ### Names without a slash -/

/-- A file whose name has no slash fits into a directory, and leaves it one. -/
theorem writeFile_of_isName {root : RealPath} {sub : String} (hsub : IsName sub.toList)
    (h : d.Clear root) (chunks : List Bytes) :
    Fits d root sub ∧ (writeFile (depth + 1) d root sub chunks).1.Clear root := by
  have hparent : (candidateOf root sub.toList).parent = root := by
    rw [candidateOf_name root hsub, RealPath.parent_child]
  have hfits : Fits d root sub := by rwa [Fits, hparent]
  obtain ⟨p, d', hwrite, hwrote, hp, -⟩ :=
    writeFile_fits depth (isRelative_of_isName hsub) hfits chunks
  have hdirectory : d'.lookup root = some .directory := by
    rw [← hparent, ← hp]
    exact hwrote.directory
  rw [hwrite]
  exact ⟨hfits, Disk.clear_of_directory hdirectory⟩

theorem allFit_of_isName {root : RealPath} {files : List (String × List Bytes)}
    (hnames : ∀ file ∈ files, IsName file.1.toList) (h : d.Clear root) :
    AllFit (depth + 1) root d files := by
  refine each_of_invariant (I := fun d : Disk => d.Clear root) ?_ ?_ h
  · exact fun d file hfile hclear => (writeFile_of_isName depth (hnames file hfile) hclear []).1
  · exact fun d file hfile _ hclear =>
      (writeFile_of_isName depth (hnames file hfile) hclear file.2).2

/-- A test whose id and attachments are names. -/
def TestDict.Flat (t : TestDict Time) : Prop :=
  IsName t.id.toList ∧ ∀ name ∈ t.details.keys, IsName name.toList

theorem TestDict.Flat.relative {t : TestDict Time} (h : t.Flat) : t.Relative :=
  ⟨isRelative_of_isName h.1, fun name hname => isRelative_of_isName (h.2 name hname)⟩

theorem TestDict.Flat.files {t : TestDict Time} (h : t.Flat) :
    ∀ file ∈ t.files str, IsName file.1.toList :=
  t.forall_files str isName_testJson h.2

theorem testFits_of_flat {t : TestDict Time} (hflat : t.Flat)
    (h : d.lookup directory = some .directory) : TestFits str (depth + 1) directory d t := by
  intro root hallocate
  obtain ⟨p, hp, hfresh, -, hparent, -⟩ := allocate_relative depth d directory hflat.relative.1
  cases hp.symm.trans hallocate
  rw [candidateOf_name directory hflat.1, RealPath.parent_child] at hparent
  have hclear := Disk.clear_of_missing hfresh (hparent ▸ h)
  exact allFit_of_isName depth (hflat.files str) hclear

/-- **Names** always fit, however often they come. -/
theorem allTestsFit_of_flat {tests : List (TestDict Time)} (hflat : ∀ t ∈ tests, t.Flat)
    (h : d.lookup directory = some .directory) :
    AllTestsFit str (depth + 1) directory d tests := by
  refine each_of_invariant (I := fun d : Disk => d.lookup directory = some .directory) ?_ ?_ h
  · exact fun d t ht hdirectory => testFits_of_flat str depth (hflat t ht) hdirectory
  · intro d t ht hfits hdirectory
    obtain ⟨place, d', hexport, hgrows, -⟩ :=
      exportTest_fits str depth (hflat t ht).relative hfits
    rw [hexport]
    exact hgrows _ _ hdirectory

/-! ### Two histories -/

theorem outRoot_ne : outRoot ≠ .root := fun h => by
  have hnames : outRoot.names = [] := congrArg RealPath.names h
  revert hnames
  decide

theorem parent_outRoot : outRoot.parent = .root := RealPath.ext rfl

/-- A disk with an empty directory `/out`. -/
def outDisk : Disk :=
  Disk.blank.put outRoot .directory (by rw [parent_outRoot, Disk.lookup_root])
    (by simp [Disk.lookup_blank outRoot_ne])

theorem lookup_outDisk : outDisk.lookup outRoot = some .directory := by
  rw [outDisk, Disk.lookup_put, if_pos rfl]

/-- Nothing is in the directory. -/
theorem outDisk_empty {p : RealPath} (hway : outRoot.OnWay p) (hne : p ≠ outRoot) :
    outDisk.lookup p = none := by
  have hroot : p ≠ .root := by
    rintro rfl
    exact outRoot_ne (RealPath.ext (List.prefix_nil.mp hway))
  rw [outDisk, Disk.lookup_put, if_neg hne, Disk.lookup_blank hroot]

theorem isName_foo : IsName "foo".toList := ⟨by decide, by decide, by decide, by decide⟩

/-- The same test twice, with an attachment that is called as the summary. -/
def repeated : List (TestDict Nat) :=
  let details : Dict String (List Bytes) := Dict.set ∅ "test.json" [[65], [66]]
  [{ id := "foo", details := details, status := "success" },
    { id := "foo", details := details, status := "fail" }]

theorem flat_repeated : ∀ t ∈ repeated, t.Flat := by
  have hdetails : ∀ t : TestDict Nat, t.id = "foo" → t.details.keys = ["test.json"] → t.Flat := by
    intro t hid hkeys
    rw [TestDict.Flat, hid, hkeys, List.forall_mem_singleton]
    exact ⟨isName_foo, isName_testJson⟩
  rw [repeated, List.forall_mem_cons, List.forall_mem_singleton]
  exact ⟨hdetails _ rfl rfl, hdetails _ rfl rfl⟩

/-- An attachment whose name leads through another's. -/
def nested : TestDict Nat where
  id := "foo"
  details := Dict.set (Dict.set ∅ "a" [[65]]) "a/b" [[66]]
  status := "success"

theorem isName_a : IsName "a".toList := ⟨by decide, by decide, by decide, by decide⟩

theorem isRelative_below : IsRelative "a/b".toList := ⟨by decide, by decide, by decide⟩

theorem relative_nested : nested.Relative := by
  have hkeys : nested.details.keys = ["a/b", "a"] := rfl
  refine ⟨isRelative_of_isName isName_foo, ?_⟩
  rw [hkeys, List.forall_mem_cons, List.forall_mem_singleton]
  exact ⟨isRelative_below, isRelative_of_isName isName_a⟩

theorem files_nested : nested.files Nat.repr
    = [("test.json", [nested.summary Nat.repr]), ("a", [[65]]), ("a/b", [[66]])] := rfl

/-- The second attachment does not fit: its directory is the first. -/
theorem not_allFit_nested (depth : Nat) {d : Disk} {root : RealPath} (hroot : d.lookup root = none) :
    ¬ AllFit (depth + 1) root d (nested.files Nat.repr) := by
  rw [files_nested]
  intro hsummary
  obtain ⟨p, d₁, hwrite, hwrote, -, hp⟩ :=
    writeFile_fits depth isRelative_testJson hsummary.1 [nested.summary Nat.repr]
  obtain ⟨-, ha⟩ := (each_cons hwrite _).mp hsummary
  obtain ⟨q, d₂, hwrite', hwrote', -, hq⟩ :=
    writeFile_fits depth (isRelative_of_isName isName_a) ha.1 [[65]]
  obtain ⟨-, hab, -⟩ := (each_cons hwrite' _).mp ha
  rw [candidateOf_testJson] at hp
  rw [candidateOf_name root isName_a] at hq
  cases hp (Disk.lookup_child hroot isName_testJson)
  have hfree : d₁.lookup (root.child "a".toList isName_a) = none := by
    have hne : root.child "a".toList isName_a ≠ testJson root := fun heq => by
      have hnames := congrArg RealPath.names heq
      simp [testJson] at hnames
    have hchild := hwrote.child isName_a
    rw [testJson, RealPath.parent_child] at hchild
    rw [hchild hne, Disk.lookup_child hroot]
  cases hq hfree
  have hparent : (candidateOf root "a/b".toList).parent = root.child "a".toList isName_a := by
    refine RealPath.ext ?_
    have hparts : parts "a/b".toList = ["a".toList, "b".toList] := by decide
    rw [RealPath.parent_names, candidateOf_relative root isRelative_below, hparts,
      List.dropLast_append_of_ne_nil (by simp)]
    rfl
  exact hab (root.child "a".toList isName_a) (hparent ▸ RealPath.onWay_refl _) ⟨_, hwrote'.file⟩

/-- **Nothing is lost.** An export of tests with relative paths loses nothing exactly if no file
that is written is to be put where the way leads through a file. -/
theorem exported_iff {tests : List (TestDict Time)} (hrel : ∀ t ∈ tests, t.Relative) :
    Exported str (depth + 1) directory d tests ↔ AllTestsFit str (depth + 1) directory d tests :=
  ⟨Exported.fit str depth hrel, exportAll_fit str depth hrel⟩

theorem exported_repeated : Exported Nat.repr 1000 outRoot outDisk repeated := by
  refine (exported_iff Nat.repr 999 fun t ht => (flat_repeated t ht).relative).mpr ?_
  exact allTestsFit_of_flat Nat.repr 999 flat_repeated lookup_outDisk

/-- In an empty directory an attachment is lost: where it is to be put is a file. -/
theorem nested_lost :
    (∀ p : RealPath, outRoot.OnWay p → p ≠ outRoot → outDisk.lookup p = none)
      ∧ (∀ t ∈ [nested], t.Relative) ∧ ¬ Exported Nat.repr 1000 outRoot outDisk [nested] := by
  have hrel : ∀ t ∈ [nested], t.Relative := List.forall_mem_singleton.mpr relative_nested
  refine ⟨fun p hway hne => outDisk_empty hway hne, hrel, fun hexported => ?_⟩
  obtain ⟨hfits, -⟩ := Exported.fit Nat.repr 999 hrel hexported
  obtain ⟨root, hallocate, hroot, -⟩ := allocate_relative 999 outDisk outRoot relative_nested.1
  exact not_allFit_nested 999 hroot (hfits root hallocate)

end Tests

end Pysubunit.ToDisk
