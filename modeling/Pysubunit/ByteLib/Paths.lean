/-
ByteLib.Paths — POSIX paths without symbolic links.

A `RealPath` is a canonical absolute path: the names on the way down from `/`, none
of which is empty, `.` or `..` or has a `/` in it. `resolve` reads any absolute path
as one, `..` leading back up. A canonical path is read as itself (`resolve_toPath`), a
part that is joined to it is one more name (`resolveNames_joinPath`), and characters that
are put behind it belong to its last name (`resolveNames_append`). A path whose text
begins with another's need not lead through it (`RealPath.isPrefix_iff`).
-/
import Mathlib.Data.List.Infix

namespace ByteLib

/-- A name that a directory can have for something in it. -/
structure IsName (name : List Char) : Prop where
  ne_nil : name ≠ []
  slash_not_mem : '/' ∉ name
  ne_dot : name ≠ ['.']
  ne_dots : name ≠ ['.', '.']

/-- A canonical absolute path. -/
structure RealPath where
  names : List (List Char)
  isName : ∀ name ∈ names, IsName name

@[ext] theorem RealPath.ext {p q : RealPath} (h : p.names = q.names) : p = q := by
  cases p
  cases q
  cases h
  rfl

instance : DecidableEq RealPath := fun p q =>
  decidable_of_iff (p.names = q.names) RealPath.ext_iff.symm

/-- Names with a slash in front of each. -/
def slashed (names : List (List Char)) : List Char := names.flatMap fun name => '/' :: name

/-- The path as it is written. -/
def RealPath.toPath (p : RealPath) : List Char := if p.names = [] then ['/'] else slashed p.names

/-- `os.path.join(path, sub)` -/
def joinPath (path sub : List Char) : List Char :=
  if sub.head? = some '/' then sub
  else if path = [] ∨ path.getLast? = some '/' then path ++ sub
  else path ++ '/' :: sub

/-- One name further. -/
def resolveName (path : List (List Char)) (name : List Char) : List (List Char) :=
  if name = [] ∨ name = ['.'] then path
  else if name = ['.', '.'] then path.dropLast
  else path ++ [name]

/-- The names that an absolute path comes to. -/
def resolveNames (path : List Char) : List (List Char) := (path.splitOn '/').foldl resolveName []

theorem isName_foldl {names path : List (List Char)} (hnames : ∀ name ∈ names, '/' ∉ name)
    (hpath : ∀ name ∈ path, IsName name) : ∀ name ∈ names.foldl resolveName path, IsName name := by
  induction names generalizing path with
  | nil => exact hpath
  | cons name names ih =>
    rw [List.forall_mem_cons] at hnames
    refine ih hnames.2 ?_
    unfold resolveName
    split
    · exact hpath
    · rename_i hskip
      rw [not_or] at hskip
      split
      · intro x hx
        exact hpath x (List.mem_of_mem_dropLast hx)
      · rename_i hdots
        intro x hx
        rcases List.mem_append.mp hx with hx | hx
        · exact hpath x hx
        · rw [List.mem_singleton.mp hx]
          exact ⟨hskip.1, hnames.1, hskip.2, hdots⟩

theorem slash_not_mem_splitOn {path name : List Char} (h : name ∈ path.splitOn '/') :
    '/' ∉ name := by
  induction path generalizing name with
  | nil =>
    have hname : name = [] := by simpa using h
    simp [hname]
  | cons c path ih =>
    rw [List.splitOn_cons_eq_if_modifyHead] at h
    split at h
    · rcases List.mem_cons.mp h with rfl | h
      · simp
      · exact ih h
    · rename_i hc
      obtain ⟨first, rest, hsplit⟩ := List.exists_cons_of_ne_nil (List.splitOn_ne_nil '/' path)
      rw [hsplit, List.modifyHead_cons] at h
      rw [hsplit] at ih
      rcases List.mem_cons.mp h with rfl | h
      · rw [List.mem_cons, not_or]
        exact ⟨fun heq => hc (by simp [← heq]), ih List.mem_cons_self⟩
      · exact ih (List.mem_cons_of_mem first h)

/-- `os.path.realpath` of an absolute path. -/
def resolve (path : List Char) : RealPath where
  names := resolveNames path
  isName := by
    exact isName_foldl (fun name hname => slash_not_mem_splitOn hname) (by simp)

/-! ## Canonical paths -/

theorem splitOn_append_slashed {name : List Char} {names : List (List Char)} (h : '/' ∉ name)
    (hnames : ∀ n ∈ names, '/' ∉ n) : (name ++ slashed names).splitOn '/' = name :: names := by
  induction names generalizing name with
  | nil =>
    rw [slashed, List.flatMap_nil, List.append_nil]
    exact List.splitOn_eq_singleton h
  | cons n names ih =>
    rw [List.forall_mem_cons] at hnames
    have hcons : slashed (n :: names) = '/' :: (n ++ slashed names) := rfl
    rw [hcons, List.splitOn_append_cons_self_of_not_mem h, ih hnames.1 hnames.2]

theorem foldl_resolveName {names : List (List Char)} (h : ∀ n ∈ names, IsName n)
    (path : List (List Char)) : names.foldl resolveName path = path ++ names := by
  induction names generalizing path with
  | nil => simp
  | cons n names ih =>
    rw [List.forall_mem_cons] at h
    have hname : resolveName path n = path ++ [n] := by
      rw [resolveName, if_neg (by simp [h.1.ne_nil, h.1.ne_dot]), if_neg h.1.ne_dots]
    rw [List.foldl_cons, hname, ih h.2, List.append_assoc]
    rfl

theorem resolveNames_slashed {names : List (List Char)} (h : ∀ n ∈ names, IsName n) :
    resolveNames (slashed names) = names := by
  have hsplit := @splitOn_append_slashed [] names (by simp) fun n hn => (h n hn).slash_not_mem
  rw [List.nil_append] at hsplit
  rw [resolveNames, hsplit, List.foldl_cons]
  exact foldl_resolveName h []

/-- A canonical path is read as itself. -/
theorem resolveNames_toPath (p : RealPath) : resolveNames p.toPath = p.names := by
  unfold RealPath.toPath
  split
  · rename_i hnil
    rw [hnil]
    decide
  · exact resolveNames_slashed p.isName

theorem resolve_toPath (p : RealPath) : resolve p.toPath = p :=
  RealPath.ext (resolveNames_toPath p)

theorem RealPath.toPath_injective : Function.Injective RealPath.toPath := fun p q h => by
  rw [← resolve_toPath p, h, resolve_toPath]

/-- More of a path. -/
theorem resolveNames_append_slash (path more : List Char) :
    resolveNames (path ++ '/' :: more)
      = (more.splitOn '/').foldl resolveName (resolveNames path) := by
  rw [resolveNames, List.splitOn_append_cons_self, List.foldl_append]
  rfl

theorem slashed_concat (names : List (List Char)) (name : List Char) :
    slashed (names ++ [name]) = slashed names ++ '/' :: name := by
  simp [slashed]

theorem eq_concat_of_ne_nil {p : RealPath} (h : p.names ≠ []) :
    ∃ names name, p.names = names ++ [name] ∧ IsName name := by
  refine ⟨p.names.dropLast, p.names.getLast h, (List.dropLast_append_getLast h).symm, ?_⟩
  exact p.isName _ (List.getLast_mem h)

/-- Only `/` itself ends in a slash. -/
theorem RealPath.getLast_toPath {p : RealPath} (h : p.names ≠ []) :
    p.toPath.getLast? ≠ some '/' := by
  obtain ⟨names, name, hnames, hname⟩ := eq_concat_of_ne_nil h
  rw [toPath, if_neg h, hnames, slashed_concat, List.getLast?_append,
    List.getLast?_cons_of_ne_nil hname.ne_nil]
  intro hlast
  cases hname' : name.getLast? with
  | none => exact hname.ne_nil (List.getLast?_eq_none_iff.mp hname')
  | some c =>
    rw [hname', Option.some_or] at hlast
    rw [Option.some.inj hlast] at hname'
    exact hname.slash_not_mem (List.mem_of_getLast? hname')

theorem RealPath.toPath_ne_nil (p : RealPath) : p.toPath ≠ [] := by
  unfold toPath
  split
  · simp
  · rename_i h
    obtain ⟨name, names, hcons⟩ := List.exists_cons_of_ne_nil h
    simp [hcons, slashed]

/-- A relative path that is joined to a path. -/
theorem resolveNames_joinPath_relative (p : RealPath) {sub : List Char}
    (h : sub.head? ≠ some '/') :
    resolveNames (joinPath p.toPath sub) = (sub.splitOn '/').foldl resolveName p.names := by
  rw [joinPath, if_neg h]
  by_cases hnil : p.names = []
  · have hpath : p.toPath = ['/'] := by rw [RealPath.toPath, if_pos hnil]
    have hfront := resolveNames_append_slash [] sub
    rw [hpath, if_pos (by simp), hnil]
    exact hfront
  · rw [if_neg, resolveNames_append_slash, resolveNames_toPath]
    rw [not_or]
    exact ⟨p.toPath_ne_nil, RealPath.getLast_toPath hnil⟩

/-- A part that is joined to a path. -/
theorem resolveNames_joinPath (p : RealPath) {part : List Char} (h : '/' ∉ part) :
    resolveNames (joinPath p.toPath part) = resolveName p.names part := by
  have hhead : part.head? ≠ some '/' := fun hhead => h (List.mem_of_mem_head? hhead)
  rw [resolveNames_joinPath_relative p hhead, List.splitOn_eq_singleton h]
  rfl

/-- Characters behind a path belong to its last name. -/
theorem resolveNames_append (p : RealPath) {suffix : List Char}
    (h : IsName (p.names.getLastD [] ++ suffix)) :
    resolveNames (p.toPath ++ suffix) = p.names.dropLast ++ [p.names.getLastD [] ++ suffix] := by
  by_cases hnil : p.names = []
  · rw [hnil] at h ⊢
    have hpath : p.toPath ++ suffix = slashed [suffix] := by
      rw [RealPath.toPath, if_pos hnil]
      simp [slashed]
    rw [hpath]
    exact resolveNames_slashed (by simpa using h)
  · obtain ⟨names, name, hnames, hname⟩ := eq_concat_of_ne_nil hnil
    have hpath : p.toPath ++ suffix = slashed (names ++ [name ++ suffix]) := by
      rw [RealPath.toPath, if_neg hnil, hnames, slashed_concat, slashed_concat]
      simp
    rw [hnames, List.getLastD_concat] at h
    rw [hpath, hnames, List.getLastD_concat, List.dropLast_concat]
    refine resolveNames_slashed ?_
    intro n hn
    rcases List.mem_append.mp hn with hn | hn
    · exact p.isName n (by rw [hnames]; exact List.mem_append_left _ hn)
    · rw [List.mem_singleton.mp hn]
      exact h

/-- A path begins with the paths that lead to it. -/
theorem RealPath.toPath_isPrefix {p q : RealPath} (h : p.names <+: q.names) :
    p.toPath <+: q.toPath := by
  obtain ⟨more, hmore⟩ := h
  by_cases hp : p.names = []
  · rw [RealPath.toPath, if_pos hp]
    unfold toPath
    split
    · exact List.prefix_rfl
    · rename_i hq
      obtain ⟨name, names, hcons⟩ := List.exists_cons_of_ne_nil hq
      exact ⟨name ++ slashed names, by rw [hcons]; rfl⟩
  · have hq : q.names ≠ [] := by
      intro hq
      rw [hq] at hmore
      exact hp (List.append_eq_nil_iff.mp hmore).1
    rw [toPath, toPath, if_neg hp, if_neg hq, ← hmore, slashed, slashed, List.flatMap_append]
    exact List.prefix_append _ _

theorem splitOn_append_of_not_mem {front : List Char} (h : '/' ∉ front) (path : List Char) :
    ∃ suffix more, (front ++ path).splitOn '/' = (front ++ suffix) :: more := by
  induction front with
  | nil => exact List.exists_cons_of_ne_nil (List.splitOn_ne_nil '/' path)
  | cons c front ih =>
    rw [List.mem_cons, not_or] at h
    obtain ⟨suffix, more, hsplit⟩ := ih h.2
    refine ⟨suffix, more, ?_⟩
    rw [List.cons_append, List.splitOn_cons_eq_if_modifyHead, if_neg (by simpa using Ne.symm h.1),
      hsplit]
    rfl

/-- The text of a path begins the paths through it, and those where more characters
follow in its last name. -/
theorem RealPath.isPrefix_iff {p q : RealPath} (h : p.names ≠ []) :
    p.toPath <+: q.toPath ↔
      ∃ suffix more, q.names = p.names.dropLast ++ (p.names.getLastD [] ++ suffix) :: more := by
  obtain ⟨names, name, hnames, hname⟩ := eq_concat_of_ne_nil h
  have hnot : ∀ n ∈ names, '/' ∉ n := by
    intro n hn
    exact (p.isName n (by simp [hnames, hn])).slash_not_mem
  rw [toPath, if_neg h, hnames, slashed_concat, List.dropLast_concat, List.getLastD_concat]
  constructor
  · rintro ⟨rest, hrest⟩
    obtain ⟨suffix, more, hsplit⟩ := splitOn_append_of_not_mem hname.slash_not_mem rest
    refine ⟨suffix, more, ?_⟩
    have hq : q.names ≠ [] := by
      intro hq
      rw [toPath, if_pos hq] at hrest
      have hlength := congrArg List.length hrest
      have hpos := List.length_pos_of_ne_nil hname.ne_nil
      simp only [List.length_append, List.length_cons, List.length_nil] at hlength
      omega
    rw [toPath, if_neg hq, List.append_assoc, List.cons_append] at hrest
    have hparts := congrArg (fun path => path.splitOn '/') hrest
    rw [List.splitOn_append_cons_self, hsplit] at hparts
    have hfront := splitOn_append_slashed (by simp : '/' ∉ []) hnot
    have hback := splitOn_append_slashed (by simp : '/' ∉ []) fun n hn =>
      (q.isName n hn).slash_not_mem
    rw [List.nil_append] at hfront hback
    rw [hfront, hback, List.cons_append] at hparts
    exact (List.cons.inj hparts).2.symm
  · rintro ⟨suffix, more, hq⟩
    have hne : q.names ≠ [] := by simp [hq]
    rw [toPath, if_neg hne, hq]
    refine ⟨suffix ++ slashed more, ?_⟩
    simp [slashed]

/-! ## Relative paths -/

/-- A path from where one is that leads downwards. -/
structure IsRelative (sub : List Char) : Prop where
  ne_nil : sub ≠ []
  relative : sub.head? ≠ some '/'
  no_dots : ∀ part ∈ sub.splitOn '/', part ≠ ['.'] ∧ part ≠ ['.', '.']

/-- The names of a path. -/
def parts (sub : List Char) : List (List Char) := (sub.splitOn '/').filter (· ≠ [])

theorem foldl_resolveName_parts {names : List (List Char)}
    (h : ∀ n ∈ names, n ≠ ['.'] ∧ n ≠ ['.', '.']) (path : List (List Char)) :
    names.foldl resolveName path = path ++ names.filter (· ≠ []) := by
  induction names generalizing path with
  | nil => simp
  | cons n names ih =>
    rw [List.forall_mem_cons] at h
    by_cases hn : n = []
    · have hname : resolveName path n = path := by rw [resolveName, if_pos (.inl hn)]
      rw [List.foldl_cons, hname, ih h.2, List.filter_cons_of_neg (by simp [hn])]
    · have hname : resolveName path n = path ++ [n] := by
        rw [resolveName, if_neg (by simp [hn, h.1.1]), if_neg h.1.2]
      rw [List.foldl_cons, hname, ih h.2, List.filter_cons_of_pos (by simp [hn]),
        List.append_assoc]
      rfl

theorem parts_ne_nil {sub : List Char} (h : IsRelative sub) : parts sub ≠ [] := by
  obtain ⟨c, sub', rfl⟩ := List.exists_cons_of_ne_nil h.ne_nil
  have hc : c ≠ '/' := by simpa using h.relative
  obtain ⟨suffix, more, hsplit⟩ := @splitOn_append_of_not_mem [c] (by simp [Ne.symm hc]) sub'
  have hcons : (c :: sub').splitOn '/' = (c :: suffix) :: more := hsplit
  rw [parts, hcons, List.filter_cons_of_pos (by simp)]
  simp

/-- **A relative path** that is joined to a path leads down from it. -/
theorem resolveNames_relative (p : RealPath) {sub : List Char} (h : IsRelative sub) :
    resolveNames (joinPath p.toPath sub) = p.names ++ parts sub := by
  rw [resolveNames_joinPath_relative p h.relative]
  exact foldl_resolveName_parts h.no_dots p.names

end ByteLib
