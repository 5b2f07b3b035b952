/-
ByteLib.Disk — files and directories, without symbolic links.

A `Disk` maps canonical paths to nodes. That what a node lies in is a directory is part
of it, so a file has nothing below it (`lookup_of_onWay`). The operations are those of
POSIX, with the errors that come of what is on the disk, and `os.makedirs`. The last
makes the directories that are missing unless a file is in their place
(`makedirs_clear`, `makedirs_blocked`).
-/
import Mathlib.Data.Finmap
import Pysubunit.ByteLib.Bytes
import Pysubunit.ByteLib.Paths

namespace ByteLib

/-! ## The way to a path -/

namespace RealPath

/-- `/` -/
def root : RealPath := ⟨[], by simp⟩

/-- `os.path.dirname` -/
def parent (p : RealPath) : RealPath where
  names := p.names.dropLast
  isName := fun name hname => p.isName name (List.mem_of_mem_dropLast hname)

/-- One name further. -/
def child (p : RealPath) (name : List Char) (h : IsName name) : RealPath where
  names := p.names ++ [name]
  isName := by
    intro n hn
    rcases List.mem_append.mp hn with hn | hn
    · exact p.isName n hn
    · rw [List.mem_singleton.mp hn]
      exact h

@[simp] theorem parent_names (p : RealPath) : p.parent.names = p.names.dropLast := rfl

@[simp] theorem child_names (p : RealPath) (name : List Char) (h : IsName name) :
    (p.child name h).names = p.names ++ [name] := rfl

@[simp] theorem parent_child (p : RealPath) (name : List Char) (h : IsName name) :
    (p.child name h).parent = p := RealPath.ext (by simp)

/-- The path or one that it leads through. -/
def OnWay (q p : RealPath) : Prop := q.names <+: p.names

instance (q p : RealPath) : Decidable (q.OnWay p) :=
  inferInstanceAs (Decidable (q.names <+: p.names))

theorem onWay_refl (p : RealPath) : p.OnWay p := List.prefix_rfl

theorem OnWay.trans {p q r : RealPath} (hpq : p.OnWay q) (hqr : q.OnWay r) : p.OnWay r :=
  List.IsPrefix.trans hpq hqr

theorem parent_onWay (p : RealPath) : p.parent.OnWay p := List.dropLast_prefix p.names

theorem parent_length {p : RealPath} (h : p.names ≠ []) :
    p.parent.names.length < p.names.length := by
  have hpos := List.length_pos_iff.mpr h
  rw [parent_names, List.length_dropLast]
  omega

theorem parent_ne {p : RealPath} (h : p.names ≠ []) : p.parent ≠ p := fun heq => by
  have hlt := parent_length h
  rw [heq] at hlt
  exact lt_irrefl _ hlt

/-- What leads to a path leads to what it lies in, or is the path. -/
theorem onWay_iff {q p : RealPath} (h : p.names ≠ []) : q.OnWay p ↔ q = p ∨ q.OnWay p.parent := by
  have hp : p.parent.names ++ [p.names.getLast h] = p.names := List.dropLast_append_getLast h
  rw [OnWay, ← hp, List.prefix_concat_iff, hp, ← RealPath.ext_iff]
  rfl

theorem not_onWay_parent {p : RealPath} (h : p.names ≠ []) : ¬ p.OnWay p.parent := fun hway => by
  have hle := List.IsPrefix.length_le hway
  have hlt := parent_length h
  omega

end RealPath

/-! ## Disks -/

/-- What a path can lead to. -/
inductive Node where
  | directory
  | file (content : Bytes)
  deriving DecidableEq, Repr

/-- A file. -/
def Node.IsFile (node : Option Node) : Prop := ∃ content, node = some (.file content)

/-- What paths lead to. -/
structure Disk where
  nodes : Finmap fun _ : RealPath => Node
  root : nodes.lookup .root = some .directory
  parents : ∀ p : RealPath, p.names ≠ [] → nodes.lookup p ≠ none →
    nodes.lookup p.parent = some .directory

/-- The errors of the operating system. -/
inductive Errno where
  | eexist
  | enoent
  | enotdir
  | eisdir
  deriving DecidableEq, Repr

namespace Disk

/-- What a path leads to. -/
def lookup (d : Disk) (p : RealPath) : Option Node := d.nodes.lookup p

theorem lookup_root (d : Disk) : d.lookup .root = some .directory := d.root

theorem lookup_parent {d : Disk} {p : RealPath} (hp : p.names ≠ []) (h : d.lookup p ≠ none) :
    d.lookup p.parent = some .directory := d.parents p hp h

theorem names_ne_nil {d : Disk} {p : RealPath} (h : d.lookup p ≠ some .directory) :
    p.names ≠ [] := fun hnil => by
  have hroot : p = .root := RealPath.ext hnil
  exact h (hroot ▸ d.lookup_root)

/-- Nothing is in what is missing. -/
theorem lookup_child {d : Disk} {p : RealPath} (hnode : d.lookup p = none) {name : List Char}
    (h : IsName name) : d.lookup (p.child name h) = none := by
  by_contra hchild
  have hdirectory := lookup_parent (by simp) hchild
  rw [RealPath.parent_child, hnode] at hdirectory
  cases hdirectory

/-- All that leads to a path is a directory. -/
theorem lookup_of_onWay {d : Disk} {p q : RealPath} (hp : d.lookup p ≠ none) (hway : q.OnWay p)
    (hne : q ≠ p) : d.lookup q = some .directory := by
  induction hn : p.names.length using Nat.strongRecOn generalizing p with
  | ind n ih =>
  by_cases hnil : p.names = []
  · have hq : q.names = [] := List.prefix_nil.mp (hnil ▸ hway)
    exact absurd (RealPath.ext (hq.trans hnil.symm)) hne
  · have hparent := lookup_parent hnil hp
    by_cases heq : q = p.parent
    · rw [heq, hparent]
    · have hway' := ((RealPath.onWay_iff hnil).mp hway).resolve_left hne
      exact ih _ (hn ▸ RealPath.parent_length hnil) (by simp [hparent]) hway' heq rfl

/-- Put a node in a directory, where no directory is. -/
def put (d : Disk) (p : RealPath) (node : Node) (hparent : d.lookup p.parent = some .directory)
    (h : d.lookup p ≠ some .directory) : Disk where
  nodes := d.nodes.insert p node
  root := by
    have hne : RealPath.root ≠ p := fun heq => h (heq ▸ d.lookup_root)
    rw [Finmap.lookup_insert_of_ne _ hne]
    exact d.root
  parents := by
    intro q hq hnode
    by_cases heq : q = p
    · rw [Finmap.lookup_insert_of_ne _ (heq ▸ RealPath.parent_ne hq), heq]
      exact hparent
    · rw [Finmap.lookup_insert_of_ne _ heq] at hnode
      have hdirectory := d.parents q hq hnode
      have hne : q.parent ≠ p := fun heq => h (heq ▸ hdirectory)
      rw [Finmap.lookup_insert_of_ne _ hne]
      exact hdirectory

theorem lookup_put (d : Disk) (p q : RealPath) (node : Node)
    (hparent : d.lookup p.parent = some .directory) (h : d.lookup p ≠ some .directory) :
    (d.put p node hparent h).lookup q = if q = p then some node else d.lookup q := by
  unfold lookup put
  by_cases heq : q = p
  · subst heq
    rw [Finmap.lookup_insert, if_pos rfl]
  · rw [Finmap.lookup_insert_of_ne _ heq, if_neg heq]

/-- A disk with nothing on it. -/
def blank : Disk where
  nodes := Finmap.singleton .root .directory
  root := Finmap.lookup_singleton_eq
  parents := by
    intro p hp hnode
    have hroot := Finmap.lookup_isSome.mp (Option.isSome_iff_ne_none.mpr hnode)
    rw [Finmap.mem_singleton] at hroot
    exact absurd (congrArg RealPath.names hroot) hp

theorem lookup_blank {p : RealPath} (h : p ≠ .root) : blank.lookup p = none := by
  unfold lookup blank
  rw [Finmap.lookup_eq_none, Finmap.mem_singleton]
  exact h

/-- Why nothing can be put at a path: a file is in its way, or a directory is missing. -/
def unreachable (d : Disk) (p : RealPath) : Errno :=
  if ∃ q ∈ d.nodes.keys, q.OnWay p ∧ d.lookup q ≠ some .directory then .enotdir else .enoent

/-- `os.mkdir` -/
def mkdir (d : Disk) (p : RealPath) : Except Errno Disk :=
  if h : d.lookup p = none then
    if hparent : d.lookup p.parent = some .directory then
      .ok (d.put p .directory hparent (by simp [h]))
    else .error (d.unreachable p)
  else .error .eexist

/-- `os.makedirs`: the disk afterwards, and the error. -/
def makedirs (d : Disk) (p : RealPath) : Disk × Option Errno :=
  let above : Disk × Option Errno :=
    if _h : p.names = [] ∨ d.lookup p.parent ≠ none then (d, none)
    else
      match makedirs d p.parent with
      | (d', some .eexist) => (d', none)
      | made => made
  match above with
  | (d', some e) => (d', some e)
  | (d', none) =>
    match d'.mkdir p with
    | .ok d'' => (d'', none)
    | .error e => (d', some e)
termination_by p.names.length
decreasing_by
  rw [not_or] at _h
  exact RealPath.parent_length _h.1

/-- `open(path, 'wb')`: an empty file. -/
def create (d : Disk) (p : RealPath) : Except Errno Disk :=
  if h : d.lookup p = some .directory then .error .eisdir
  else if hparent : d.lookup p.parent = some .directory then .ok (d.put p (.file []) hparent h)
  else .error (d.unreachable p)

/-- `write` to a file that is open. -/
def append (d : Disk) (p : RealPath) (bytes : Bytes) : Disk :=
  match h : d.lookup p with
  | some (.file content) =>
    d.put p (.file (content ++ bytes))
      (lookup_parent (names_ne_nil (d := d) (by simp [h])) (by simp [h])) (by simp [h])
  | _ => d

/-! ### What the operations do -/

variable {d : Disk} {p : RealPath}

/-- No file is in the way of a path, or at it. -/
def Clear (d : Disk) (p : RealPath) : Prop := ∀ q : RealPath, q.OnWay p → ¬ Node.IsFile (d.lookup q)

theorem Clear.parent (h : d.Clear p) : d.Clear p.parent := fun q hway =>
  h q (hway.trans p.parent_onWay)

theorem lookup_of_clear (h : d.Clear p) (hnode : d.lookup p ≠ none) :
    d.lookup p = some .directory := by
  cases hlookup : d.lookup p with
  | none => exact absurd hlookup hnode
  | some node =>
    cases node with
    | directory => rfl
    | file content => exact absurd ⟨content, hlookup⟩ (h p p.onWay_refl)

/-- All that leads to a directory, and the directory. -/
theorem directory_of_onWay {q : RealPath} (h : d.lookup p = some .directory) (hway : q.OnWay p) :
    d.lookup q = some .directory := by
  by_cases heq : q = p
  · rw [heq, h]
  · exact lookup_of_onWay (by simp [h]) hway heq

theorem clear_of_directory (h : d.lookup p = some .directory) : d.Clear p := by
  rintro q hway ⟨content, hfile⟩
  rw [directory_of_onWay h hway] at hfile
  cases hfile

/-- The way to what is missing in a directory is clear. -/
theorem clear_of_missing (hnode : d.lookup p = none) (hparent : d.lookup p.parent = some .directory) :
    d.Clear p := by
  intro q hway
  rcases (RealPath.onWay_iff (names_ne_nil (d := d) (by simp [hnode]))).mp hway with rfl | hway
  · rintro ⟨content, hfile⟩
    rw [hnode] at hfile
    cases hfile
  · exact clear_of_directory hparent q hway

theorem mkdir_eq (hnode : d.lookup p = none) (hparent : d.lookup p.parent = some .directory) :
    d.mkdir p = .ok (d.put p .directory hparent (by simp [hnode])) := by
  rw [mkdir, dif_pos hnode, dif_pos hparent]

theorem mkdir_exists (hnode : d.lookup p ≠ none) : d.mkdir p = .error .eexist := by
  rw [mkdir, dif_neg hnode]

theorem unreachable_of_file {q : RealPath} (hway : q.OnWay p) (hfile : Node.IsFile (d.lookup q)) :
    d.unreachable p = .enotdir := by
  obtain ⟨content, hcontent⟩ := hfile
  have hmem : q ∈ d.nodes.keys := by
    have hsome : (d.lookup q).isSome := by rw [hcontent]; rfl
    exact Finmap.mem_keys.mpr (Finmap.lookup_isSome.mp hsome)
  rw [unreachable, if_pos]
  exact ⟨q, hmem, hway, by simp [hcontent]⟩

theorem makedirs_of_parent (h : p.names = [] ∨ d.lookup p.parent ≠ none) :
    d.makedirs p = match d.mkdir p with
      | .ok d' => (d', none)
      | .error e => (d, some e) := by
  rw [makedirs, dif_pos h]

theorem makedirs_of_no_parent (hp : p.names ≠ []) (h : d.lookup p.parent = none) {d' : Disk}
    (hmade : d.makedirs p.parent = (d', none) ∨ d.makedirs p.parent = (d', some .eexist)) :
    d.makedirs p = match d'.mkdir p with
      | .ok d'' => (d'', none)
      | .error e => (d', some e) := by
  rw [makedirs, dif_neg (by simp [hp, h])]
  rcases hmade with hmade | hmade <;> rw [hmade]

/-- **The way is clear**: then the directories that are missing are made. -/
theorem makedirs_clear (h : d.Clear p) :
    ∃ d' result, d.makedirs p = (d', result) ∧ (result = none ∨ result = some .eexist)
      ∧ ∀ q, d'.lookup q = if q.OnWay p then some .directory else d.lookup q := by
  induction hn : p.names.length using Nat.strongRecOn generalizing p with
  | ind n ih =>
  by_cases hnode : d.lookup p = none
  · have hp : p.names ≠ [] := names_ne_nil (d := d) (by simp [hnode])
    by_cases hparent : d.lookup p.parent = none
    · -- the parent is made first
      obtain ⟨d', result, hmade, hresult, hlookup⟩ :=
        ih _ (hn ▸ RealPath.parent_length hp) h.parent rfl
      have hparent' : d'.lookup p.parent = some .directory := by
        rw [hlookup, if_pos p.parent.onWay_refl]
      have hnode' : d'.lookup p = none := by
        rw [hlookup, if_neg (RealPath.not_onWay_parent hp), hnode]
      have hmade' : d.makedirs p.parent = (d', none) ∨ d.makedirs p.parent = (d', some .eexist) := by
        rcases hresult with rfl | rfl
        · exact .inl hmade
        · exact .inr hmade
      refine ⟨d'.put p .directory hparent' (by simp [hnode']), none, ?_, .inl rfl, fun q => ?_⟩
      · rw [makedirs_of_no_parent hp hparent hmade', mkdir_eq hnode' hparent']
      · rw [lookup_put, hlookup]
        by_cases hq : q = p
        · simp [hq, p.onWay_refl]
        · simp [hq, RealPath.onWay_iff hp]
    · have hdirectory := lookup_of_clear h.parent hparent
      refine ⟨d.put p .directory hdirectory (by simp [hnode]), none, ?_, .inl rfl, fun q => ?_⟩
      · rw [makedirs_of_parent (.inr hparent), mkdir_eq hnode hdirectory]
      · rw [lookup_put]
        by_cases hq : q = p
        · simp [hq, p.onWay_refl]
        · simp only [hq, if_false, RealPath.onWay_iff hp, false_or]
          split
          · rename_i hway
            exact directory_of_onWay hdirectory hway
          · rfl
  · have hdirectory := lookup_of_clear h hnode
    have hparent : p.names = [] ∨ d.lookup p.parent ≠ none := by
      refine Classical.or_iff_not_imp_left.mpr fun hp => ?_
      simp [lookup_parent hp hnode]
    refine ⟨d, some .eexist, ?_, .inr rfl, fun q => ?_⟩
    · rw [makedirs_of_parent hparent, mkdir_exists hnode]
    · split
      · rename_i hway
        exact directory_of_onWay hdirectory hway
      · rfl

/-- **A file is in the way**: then nothing is made. -/
theorem makedirs_blocked {q : RealPath} (hway : q.OnWay p) (hfile : Node.IsFile (d.lookup q)) :
    d.makedirs p = (d, some (if q = p then .eexist else .enotdir)) := by
  have hnot : d.lookup q ≠ some .directory := by
    obtain ⟨content, hcontent⟩ := hfile
    simp [hcontent]
  induction hn : p.names.length using Nat.strongRecOn generalizing p with
  | ind n ih =>
  by_cases hq : q = p
  · subst hq
    have hnode : d.lookup q ≠ none := by
      obtain ⟨content, hcontent⟩ := hfile
      simp [hcontent]
    have hparent := lookup_parent (names_ne_nil hnot) hnode
    rw [makedirs_of_parent (.inr (by simp [hparent])), mkdir_exists hnode, if_pos rfl]
  · have hnode : d.lookup p = none := by
      by_contra hnode
      exact hnot (lookup_of_onWay hnode hway hq)
    have hp : p.names ≠ [] := names_ne_nil (d := d) (by simp [hnode])
    have hway' := ((RealPath.onWay_iff hp).mp hway).resolve_left hq
    rw [if_neg hq]
    by_cases hparent : d.lookup p.parent = none
    · have hne : q ≠ p.parent := by
        rintro rfl
        obtain ⟨content, hcontent⟩ := hfile
        rw [hcontent] at hparent
        cases hparent
      have hmade := ih _ (hn ▸ RealPath.parent_length hp) hway' rfl
      rw [makedirs, dif_neg (by simp [hp, hparent]), hmade, if_neg hne]
    · have heq : q = p.parent := by
        by_contra hne
        exact hnot (lookup_of_onWay hparent hway' hne)
      have hmkdir : d.mkdir p = .error .enotdir := by
        rw [mkdir, dif_pos hnode, dif_neg (heq ▸ hnot), unreachable_of_file hway hfile]
      rw [makedirs_of_parent (.inr hparent), hmkdir]

theorem create_eq (hnode : d.lookup p = none) (hparent : d.lookup p.parent = some .directory) :
    d.create p = .ok (d.put p (.file []) hparent (by simp [hnode])) := by
  rw [create, dif_neg (by simp [hnode]), dif_pos hparent]

/-- A file where a directory is needed. -/
theorem create_blocked (hnode : d.lookup p = none) (hparent : Node.IsFile (d.lookup p.parent)) :
    d.create p = .error .enotdir := by
  obtain ⟨content, hcontent⟩ := hparent
  rw [create, dif_neg (by simp [hnode]), dif_neg (by simp [hcontent]),
    unreachable_of_file p.parent_onWay ⟨content, hcontent⟩]

theorem lookup_append {content : Bytes} (h : d.lookup p = some (.file content)) (bytes : Bytes)
    (q : RealPath) :
    (d.append p bytes).lookup q
      = if q = p then some (.file (content ++ bytes)) else d.lookup q := by
  unfold append
  split
  · rename_i content' hcontent
    cases h.symm.trans hcontent
    rw [lookup_put]
  · rename_i hother
    exact absurd h (hother content)

end Disk

end ByteLib
