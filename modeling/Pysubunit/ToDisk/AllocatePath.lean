/-
Pysubunit.ToDisk.AllocatePath — `_allocate_path` (`_to_disk.py`): where a test or an
attachment is put under the directory of the export.

The name comes from the stream. It is joined to the root and made canonical; what
then does not begin with the root, as a text, has its slashes squashed and is tried
again. `allocatePath` has the depth of that recursion as an argument. A path that is
there gets a number behind it (`firstFree`), which ends because the paths that were
tried are all different (`Attempts`).

The comparison of texts takes the root itself and the directories beside it whose name
begins as the root's for paths inside, and `..` is squashed to itself.
`allocatePath_safe_iff` says that nothing else goes wrong.
-/
import Mathlib.Data.Finset.Card
import Pysubunit.ByteLib.Loop
import Pysubunit.ByteLib.Paths

namespace Pysubunit.ToDisk

open ByteLib

/-! ## Free paths -/

/-- The paths that exist, `/` among them. -/
structure FileSystem where
  paths : Finset (List Char)
  slash_mem : ['/'] ∈ paths

/-- `'%s-%s' % (candidate, attempt)`, and `candidate` itself at first. -/
def probe (candidate : List Char) : Nat → List Char
  | 0 => candidate
  | attempt + 1 => candidate ++ '-' :: Nat.toDigits 10 (attempt + 1)

theorem probe_injective {candidate : List Char} {m n : Nat}
    (h : probe candidate m = probe candidate n) : m = n := by
  cases m with
  | zero =>
    cases n with
    | zero => rfl
    | succ n => simp [probe] at h
  | succ m =>
    cases n with
    | zero => simp [probe] at h
    | succ n =>
      have hdigits : Nat.toDigits 10 (m + 1) = Nat.toDigits 10 (n + 1) := by simpa [probe] using h
      have hvalue := congrArg (fun digits => Nat.ofDigitChars 10 digits 0) hdigits
      simpa [Nat.ofDigitChars_ten_toDigits] using hvalue

/-- The attempts so far, which all exist. -/
structure Attempts (fs : FileSystem) (candidate : List Char) where
  attempt : Nat := 0
  tried : ∀ n < attempt, probe candidate n ∈ fs.paths := by simp

namespace Attempts

variable {fs : FileSystem} {candidate : List Char}

/-- There are no more attempts than paths. -/
theorem attempt_le (s : Attempts fs candidate) : s.attempt ≤ fs.paths.card := by
  have hsub : (Finset.range s.attempt).image (probe candidate) ⊆ fs.paths := by
    intro path hpath
    obtain ⟨n, hn, rfl⟩ := Finset.mem_image.mp hpath
    exact s.tried n (Finset.mem_range.mp hn)
  have hcard := Finset.card_le_card hsub
  rw [Finset.card_image_of_injective _ fun _ _ => probe_injective, Finset.card_range] at hcard
  exact hcard

/-- One more that exists. -/
def next (s : Attempts fs candidate) (h : probe candidate s.attempt ∈ fs.paths) :
    Attempts fs candidate where
  attempt := s.attempt + 1
  tried := by
    intro n hn
    rcases Nat.lt_succ_iff_lt_or_eq.mp hn with hn | rfl
    · exact s.tried n hn
    · exact h

end Attempts

/-- `while os.path.exists(probe)` -/
def probeLoop (fs : FileSystem) (candidate : List Char) :
    Loop (Attempts fs candidate) Empty Empty where
  body s :=
    ([], if h : probe candidate s.attempt ∈ fs.paths then .again (s.next h) else .stop)
  size s := fs.paths.card - s.attempt
  shrinks := by
    intro s s' h
    dsimp only at h
    split at h
    · cases h
      have hle := (s.next (by assumption)).attempt_le
      simp only [Attempts.next] at hle ⊢
      omega
    · cases h

/-- The first of the attempts that does not exist. -/
def firstFree (fs : FileSystem) (candidate : List Char) : List Char :=
  match ((probeLoop fs candidate).run {}).2 with
  | .ok s => probe candidate s.attempt
  | .error _ => candidate

/-- It is one of the attempts, and free. -/
theorem firstFree_spec (fs : FileSystem) (candidate : List Char) :
    ∃ n, firstFree fs candidate = probe candidate n ∧ probe candidate n ∉ fs.paths := by
  unfold firstFree
  cases hrun : ((probeLoop fs candidate).run {}).2 with
  | error e => exact e.elim
  | ok s =>
    refine ⟨s.attempt, rfl, ?_⟩
    have hstop := (Loop.run_ok_stops hrun).2
    intro hmem
    have hbody : ((probeLoop fs candidate).body s).2 = .again (s.next hmem) := by
      simp [probeLoop, hmem]
    rw [hbody] at hstop
    cases hstop

theorem firstFree_not_mem (fs : FileSystem) (candidate : List Char) :
    firstFree fs candidate ∉ fs.paths := by
  obtain ⟨n, hfree, hnotMem⟩ := firstFree_spec fs candidate
  rwa [hfree]

/-- A candidate that does not exist is taken. -/
theorem firstFree_of_not_mem {fs : FileSystem} {candidate : List Char}
    (h : candidate ∉ fs.paths) : firstFree fs candidate = candidate := by
  have hstop : ((probeLoop fs candidate).body {}).2 = .stop := by
    have hprobe : probe candidate 0 ∉ fs.paths := h
    simp [probeLoop, hprobe]
  rw [firstFree, Loop.run_stop hstop]
  rfl

/-! ## The function -/

/-- `sub.replace('/', '_').replace('\\', '_')` -/
def squash (sub : List Char) : List Char :=
  (sub.map fun c => if c = '/' then '_' else c).map fun c => if c = '\\' then '_' else c

/-- `os.path.realpath(os.path.join(root, sub))` -/
def candidateOf (root : RealPath) (sub : List Char) : RealPath :=
  resolve (joinPath root.toPath sub)

/-- `_allocate_path(root, sub)`, as deep as the recursion may go. -/
def allocatePath (fs : FileSystem) : Nat → RealPath → List Char → Option (List Char)
  | 0, _, _ => none
  | depth + 1, root, sub =>
    let candidate := (candidateOf root sub).toPath
    let realroot := (resolve root.toPath).toPath
    if realroot <+: candidate then some (firstFree fs candidate)
    else allocatePath fs depth root (squash sub)

/-- The path lies below the root. -/
def Inside (root : RealPath) (path : List Char) : Prop :=
  ∃ more, more ≠ [] ∧ resolveNames path = root.names ++ more

/-- A directory beside the root whose name begins as the root's, or something in it. -/
def Beside (root path : RealPath) : Prop :=
  ∃ suffix more, suffix ≠ [] ∧
    path.names = root.names.dropLast ++ (root.names.getLastD [] ++ suffix) :: more

/-- A free path below the root is returned. -/
def Allocates (fs : FileSystem) (root : RealPath) (sub : List Char) : Prop :=
  ∃ depth path, allocatePath fs depth root sub = some path ∧ path ∉ fs.paths ∧ Inside root path

/-! ## Where the free path is -/

/-- A path lies below the root when the one above it leads back to the root. -/
theorem inside_iff {root : RealPath} {path : List Char} {above : List (List Char)}
    {name : List Char} (h : resolveNames path = above ++ [name]) :
    Inside root path ↔ root.names <+: above := by
  unfold Inside
  rw [h]
  constructor
  · rintro ⟨more, hmore, heq⟩
    obtain ⟨between, last, rfl⟩ := List.eq_nil_or_concat more |>.resolve_left hmore
    rw [List.concat_eq_append, ← List.append_assoc] at heq
    exact ⟨between, (List.append_inj' heq rfl).1.symm⟩
  · rintro ⟨between, rfl⟩
    exact ⟨between ++ [name], by simp, by simp⟩

theorem isName_suffix (front : List Char) (n : Nat) (h : '/' ∉ front) :
    IsName (front ++ '-' :: Nat.toDigits 10 n) where
  ne_nil := by simp
  slash_not_mem := by
    have hdigits : '/' ∉ Nat.toDigits 10 n := by
      intro hmem
      have hdigit := Nat.isDigit_of_mem_toDigits (by omega) (by omega) hmem
      revert hdigit
      decide
    simp [h, hdigits]
  ne_dot := by
    intro heq
    have hmem : '-' ∈ ['.'] := by simp [← heq]
    revert hmem
    decide
  ne_dots := by
    intro heq
    have hmem : '-' ∈ ['.', '.'] := by simp [← heq]
    revert hmem
    decide

/-- A free path is beside the candidate, or the candidate. -/
theorem resolveNames_firstFree (fs : FileSystem) (candidate : RealPath) :
    ∃ name, resolveNames (firstFree fs candidate.toPath) = candidate.names.dropLast ++ [name] := by
  obtain ⟨n, hfree, hnotMem⟩ := firstFree_spec fs candidate.toPath
  rw [hfree]
  cases n with
  | zero =>
    have hne : candidate.names ≠ [] := by
      intro hnil
      refine hnotMem ?_
      rw [probe, RealPath.toPath, if_pos hnil]
      exact fs.slash_mem
    obtain ⟨names, name, hnames, -⟩ := eq_concat_of_ne_nil hne
    exact ⟨name, by rw [probe, resolveNames_toPath, hnames, List.dropLast_concat]⟩
  | succ n =>
    have hlast : '/' ∉ candidate.names.getLastD [] := by
      by_cases hnil : candidate.names = []
      · simp [hnil]
      · obtain ⟨names, name, hnames, hname⟩ := eq_concat_of_ne_nil hnil
        rw [hnames, List.getLastD_concat]
        exact hname.slash_not_mem
    exact ⟨_, resolveNames_append candidate (isName_suffix _ _ hlast)⟩

/-- The number changes nothing about where the path is. -/
theorem inside_firstFree_iff (fs : FileSystem) (root candidate : RealPath) :
    Inside root (firstFree fs candidate.toPath)
      ↔ root.names = [] ∨ Inside root candidate.toPath := by
  obtain ⟨name, hfree⟩ := resolveNames_firstFree fs candidate
  rw [inside_iff hfree]
  by_cases hnil : candidate.names = []
  · have hout : ¬ Inside root candidate.toPath := by
      rintro ⟨more, hmore, heq⟩
      rw [resolveNames_toPath, hnil] at heq
      exact hmore (List.append_eq_nil_iff.mp heq.symm).2
    simp [hnil, hout]
  · obtain ⟨names, last, hnames, -⟩ := eq_concat_of_ne_nil hnil
    have hpath : resolveNames candidate.toPath = names ++ [last] := by
      rw [resolveNames_toPath, hnames]
    rw [inside_iff hpath, hnames, List.dropLast_concat]
    refine ⟨Or.inr, ?_⟩
    rintro (hroot | hroot)
    · rw [hroot]
      exact List.nil_prefix
    · exact hroot

/-! ## The recursion -/

/-- `realroot` is the root. -/
theorem allocatePath_succ (fs : FileSystem) (depth : Nat) (root : RealPath) (sub : List Char) :
    allocatePath fs (depth + 1) root sub
      = if root.toPath <+: (candidateOf root sub).toPath then
          some (firstFree fs (candidateOf root sub).toPath)
        else allocatePath fs depth root (squash sub) := by
  simp only [allocatePath, resolve_toPath]

theorem slash_not_mem_squash (sub : List Char) : '/' ∉ squash sub := by
  simp only [squash, List.mem_map, not_exists, not_and]
  intro c _
  grind

@[simp] theorem squash_dots : squash ['.', '.'] = ['.', '.'] := by decide

/-- Only dots are squashed to dots. -/
theorem eq_of_squash_dots {sub : List Char} (h : ∀ c ∈ squash sub, c = '.') : squash sub = sub := by
  induction sub with
  | nil => rfl
  | cons c sub ih =>
    simp only [squash, List.map_cons, List.forall_mem_cons] at h ih ⊢
    rw [ih h.2]
    grind

theorem candidateOf_dots (root : RealPath) :
    (candidateOf root ['.', '.']).names = root.names.dropLast := by
  have hparts := resolveNames_joinPath root (by decide : '/' ∉ ['.', '.'])
  exact hparts

/-- What is squashed is a name under the root, if it is not made of dots. -/
theorem candidateOf_squash (root : RealPath) {sub : List Char} (h : IsName (squash sub)) :
    (candidateOf root (squash sub)).names = root.names ++ [squash sub] := by
  have hparts := resolveNames_joinPath root h.slash_not_mem
  rw [resolveName, if_neg (by simp [h.ne_nil, h.ne_dot]), if_neg h.ne_dots] at hparts
  exact hparts

/-- A path that is squashed is not the root. -/
theorem isName_squash {root : RealPath} {sub : List Char} (hdots : sub ≠ ['.', '.'])
    (h : ¬ root.toPath <+: (candidateOf root sub).toPath) : IsName (squash sub) := by
  have hskip : ∀ dots, squash sub = dots → (∀ c ∈ dots, c = '.') → '/' ∉ dots →
      resolveName root.names dots = root.names → False := by
    intro dots hsquash hall hslash hname
    have hsub : squash sub = sub := eq_of_squash_dots (by rwa [hsquash])
    have hparts := resolveNames_joinPath root hslash
    rw [hname, ← hsquash, hsub] at hparts
    have hroot : candidateOf root sub = root := RealPath.ext hparts
    exact h (by rw [hroot])
  refine ⟨?_, slash_not_mem_squash sub, ?_, ?_⟩
  · intro hsquash
    exact hskip [] hsquash (by simp) (by simp) rfl
  · intro hsquash
    exact hskip ['.'] hsquash (by simp) (by simp) rfl
  · intro hsquash
    have hsub := eq_of_squash_dots (by simp [hsquash] : ∀ c ∈ squash sub, c = '.')
    rw [hsquash] at hsub
    exact hdots hsub.symm

/-- `..` leads above a root that is not `/`. -/
theorem not_isPrefix_dots {root : RealPath} (h : root.names ≠ []) :
    ¬ root.toPath <+: (candidateOf root ['.', '.']).toPath := by
  rw [RealPath.isPrefix_iff h, candidateOf_dots]
  rintro ⟨suffix, more, heq⟩
  simpa using congrArg List.length heq

/-- `..` is squashed for ever. -/
theorem allocatePath_dots (fs : FileSystem) {root : RealPath} (h : root.names ≠ []) (depth : Nat) :
    allocatePath fs depth root ['.', '.'] = none := by
  induction depth with
  | zero => rfl
  | succ depth ih => rw [allocatePath_succ, if_neg (not_isPrefix_dots h), squash_dots, ih]

/-- A path that does not begin with the root is a name under the root at the second try. -/
theorem allocates_of_squash (fs : FileSystem) {root : RealPath} {sub : List Char}
    (hdots : sub ≠ ['.', '.']) (h : ¬ root.toPath <+: (candidateOf root sub).toPath) :
    Allocates fs root sub := by
  have hname := candidateOf_squash root (isName_squash hdots h)
  have hbegins : root.toPath <+: (candidateOf root (squash sub)).toPath :=
    RealPath.toPath_isPrefix (by simp [hname])
  refine ⟨2, firstFree fs (candidateOf root (squash sub)).toPath, ?_, ?_, ?_⟩
  · rw [allocatePath_succ, if_neg h, allocatePath_succ, if_pos hbegins]
  · exact firstFree_not_mem fs _
  · have hpath : resolveNames (candidateOf root (squash sub)).toPath
        = root.names ++ [squash sub] := by
      rw [resolveNames_toPath, hname]
    exact (inside_firstFree_iff fs root _).mpr (.inr ((inside_iff hpath).mpr List.prefix_rfl))

/-- A path that begins with the root is taken at once. -/
theorem allocates_iff_of_isPrefix (fs : FileSystem) {root : RealPath} {sub : List Char}
    (h : root.toPath <+: (candidateOf root sub).toPath) :
    Allocates fs root sub ↔ root.names = [] ∨ Inside root (candidateOf root sub).toPath := by
  rw [← inside_firstFree_iff fs root (candidateOf root sub)]
  constructor
  · rintro ⟨depth, path, hpath, -, hinside⟩
    cases depth with
    | zero => cases hpath
    | succ depth =>
      rw [allocatePath_succ, if_pos h] at hpath
      cases hpath
      exact hinside
  · intro hinside
    refine ⟨1, _, ?_, firstFree_not_mem fs _, hinside⟩
    rw [allocatePath_succ, if_pos h]

/-! ## Safe paths -/

/-- Of the paths whose text begins with the root's, those below it. -/
theorem inside_iff_of_isPrefix {root path : RealPath} (hroot : root.names ≠ [])
    (h : root.toPath <+: path.toPath) :
    Inside root path.toPath ↔ path ≠ root ∧ ¬ Beside root path := by
  obtain ⟨suffix, more, hnames⟩ := (RealPath.isPrefix_iff hroot).mp h
  obtain ⟨above, name, hparts, -⟩ := eq_concat_of_ne_nil hroot
  rw [hparts, List.dropLast_concat, List.getLastD_concat] at hnames
  have hpath : path.names = (above ++ [name]) ++ more ∨ Beside root path := by
    by_cases hsuffix : suffix = []
    · exact .inl (by simp [hnames, hsuffix])
    · exact .inr ⟨suffix, more, hsuffix, by simp [hparts, hnames]⟩
  have hapart : Beside root path → ∀ more, path.names ≠ (above ++ [name]) ++ more := by
    rintro ⟨suffix, beyond, hsuffix, hbeside⟩ more hmore
    simp [hparts, hmore, hsuffix] at hbeside
  rcases hpath with hmore | hbeside
  · have hnot : ¬ Beside root path := fun hbeside => hapart hbeside more hmore
    simp [Inside, resolveNames_toPath, RealPath.ext_iff, hparts, hmore, hnot]
  · have hout : ¬ Inside root path.toPath := by
      rintro ⟨beyond, -, hinside⟩
      rw [resolveNames_toPath, hparts] at hinside
      exact hapart hbeside beyond hinside
    simp [hout, hbeside]

theorem not_beside {root path : RealPath} (hroot : root.names ≠ [])
    (h : ¬ root.toPath <+: path.toPath) : path ≠ root ∧ ¬ Beside root path := by
  constructor
  · intro heq
    exact h (by rw [heq])
  · rintro ⟨suffix, more, -, hnames⟩
    exact h ((RealPath.isPrefix_iff hroot).mpr ⟨suffix, more, hnames⟩)

/-- **Safe paths.** `_allocate_path` ends with a free path below the root unless the
name is `..`, or leads to the root itself or to a directory beside the root whose name
begins as the root's. -/
theorem allocatePath_safe_iff (fs : FileSystem) (root : RealPath) (sub : List Char) :
    Allocates fs root sub ↔ root.names = [] ∨
      (sub ≠ ['.', '.'] ∧ candidateOf root sub ≠ root ∧ ¬ Beside root (candidateOf root sub)) := by
  by_cases hroot : root.names = []
  · have hbegins : root.toPath <+: (candidateOf root sub).toPath :=
      RealPath.toPath_isPrefix (by simp [hroot])
    simp [allocates_iff_of_isPrefix fs hbegins, hroot]
  by_cases hdots : sub = ['.', '.']
  · subst hdots
    have hnever : ¬ Allocates fs root ['.', '.'] := by
      rintro ⟨depth, path, hpath, -⟩
      rw [allocatePath_dots fs hroot] at hpath
      cases hpath
    simp [hnever, hroot]
  by_cases hbegins : root.toPath <+: (candidateOf root sub).toPath
  · rw [allocates_iff_of_isPrefix fs hbegins, inside_iff_of_isPrefix hroot hbegins]
    simp [hroot, hdots]
  · have hout := not_beside hroot hbegins
    simp [allocates_of_squash fs hdots hbegins, hdots, hout]

/-- A disk with nothing on it. -/
def emptyDisk : FileSystem where
  paths := {['/']}
  slash_mem := Finset.mem_singleton_self _

/-- `/out` -/
def outRoot : RealPath where
  names := ["out".toList]
  isName := by
    rw [List.forall_mem_singleton]
    exact ⟨by decide, by decide, by decide, by decide⟩

/-- `/out-old` is taken for a path inside `/out`. -/
theorem allocatePath_leaves_root : ¬ Allocates emptyDisk outRoot "../out-old/log".toList := by
  have hnames : (candidateOf outRoot "../out-old/log".toList).names
      = ["out-old".toList, "log".toList] := by
    decide
  have hbegins : outRoot.toPath <+: (candidateOf outRoot "../out-old/log".toList).toPath := by
    rw [RealPath.isPrefix_iff (by decide)]
    exact ⟨"-old".toList, ["log".toList], hnames⟩
  rw [allocates_iff_of_isPrefix emptyDisk hbegins, inside_iff_of_isPrefix (by decide) hbegins]
  rintro (hroot | ⟨-, hapart⟩)
  · revert hroot
    decide
  · exact hapart ⟨"-old".toList, ["log".toList], by decide, hnames⟩

end Pysubunit.ToDisk
