/-
Pysubunit.ByteLib.Dict — dictionaries that remember the order of their keys.

A `Dict` is an association list with the newest key in front. A key that is set
again keeps its place. `keyList` is the order of insertion.
-/
import Mathlib.Data.List.AList

namespace ByteLib

/-- A dictionary, the newest key first. -/
abbrev Dict (κ α : Type) := AList fun _ : κ => α

namespace Dict

variable {κ α : Type}

/-- `list(d.keys())` -/
def keyList (d : Dict κ α) : List κ := d.keys.reverse

theorem nodup_keyList (d : Dict κ α) : d.keyList.Nodup := List.nodup_reverse.mpr d.keys_nodup

variable [DecidableEq κ]

/-- `d[key] = value` -/
def set (d : Dict κ α) (key : κ) (value : α) : Dict κ α :=
  if key ∈ d then d.replace key value else d.insert key value

theorem dlookup_ne {entries : List (Sigma fun _ : κ => α)} {key key' : κ} {value : α}
    (h : key' ≠ key) :
    List.dlookup key' (⟨key, value⟩ :: entries) = List.dlookup key' entries :=
  List.dlookup_cons_ne entries ⟨key, value⟩ h

theorem kreplace_cons (entries : List (Sigma fun _ : κ => α)) (key k : κ) (value a : α) :
    List.kreplace key value (⟨k, a⟩ :: entries)
      = if key = k then ⟨key, value⟩ :: entries
        else ⟨k, a⟩ :: List.kreplace key value entries := by
  unfold List.kreplace
  by_cases hk : key = k
  · rw [if_pos hk]
    exact List.lookmap_cons_some _ entries (if_pos hk)
  · rw [if_neg hk]
    exact List.lookmap_cons_none _ entries (if_neg hk)

theorem dlookup_kreplace {entries : List (Sigma fun _ : κ => α)} {key key' : κ} {value : α}
    (h : key ∈ entries.keys) :
    List.dlookup key' (List.kreplace key value entries)
      = if key' = key then some value else List.dlookup key' entries := by
  induction entries with
  | nil => simp at h
  | cons entry entries ih =>
    obtain ⟨k, a⟩ := entry
    rw [kreplace_cons]
    by_cases hk : key = k
    · subst hk
      rw [if_pos rfl]
      by_cases hkey : key' = key
      · subst hkey
        simp
      · rw [dlookup_ne hkey, dlookup_ne hkey, if_neg hkey]
    · have hmem : key ∈ entries.keys := by simpa [hk] using h
      rw [if_neg hk]
      by_cases hkey : key' = k
      · subst hkey
        have hne : ¬ key' = key := fun heq => hk heq.symm
        simp [hne]
      · rw [dlookup_ne hkey, dlookup_ne hkey, ih hmem]

theorem lookup_set (d : Dict κ α) (key key' : κ) (value : α) :
    (d.set key value).lookup key' = if key' = key then some value else d.lookup key' := by
  unfold set
  by_cases hmem : key ∈ d
  · rw [if_pos hmem]
    exact dlookup_kreplace hmem
  · rw [if_neg hmem]
    by_cases hkey : key' = key
    · subst hkey
      rw [AList.lookup_insert, if_pos rfl]
    · rw [AList.lookup_insert_ne hkey, if_neg hkey]

theorem lookup_erase_ite (d : Dict κ α) (key key' : κ) :
    (d.erase key).lookup key' = if key' = key then none else d.lookup key' := by
  by_cases hkey : key' = key
  · subst hkey
    rw [AList.lookup_erase, if_pos rfl]
  · rw [AList.lookup_erase_ne hkey, if_neg hkey]

theorem mem_keyList {d : Dict κ α} {key : κ} : key ∈ d.keyList ↔ (d.lookup key).isSome := by
  rw [keyList, List.mem_reverse, AList.lookup_isSome]
  rfl

end Dict

end ByteLib
