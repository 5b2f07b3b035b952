/-
Pysubunit.ToDisk.DiskExporter — tests as files (`_to_disk.py`).

A test is exported into a directory of its own: a summary in `test.json`, and a file for
each of its details. All paths come from `_allocate_path`, so none of them is there yet.
But a path may lead through a file that is. `makedirs` then fails with `ENOTDIR`, or with
the `EEXIST` that `_open_path` passes over, and the `open` behind it fails.

What the operations have done to the disk before an exception is kept. `str` gives the
text of a time stamp.
-/
import Mathlib.Data.Finset.Sort
import Mathlib.Data.String.Basic
import Pysubunit.ByteLib.Dict
import Pysubunit.ByteLib.Disk
import Pysubunit.ByteLib.ForEach
import Pysubunit.ByteLib.Utf8
import Pysubunit.ToDisk.AllocatePath

namespace Pysubunit.ToDisk

open ByteLib

/-! ## The summary -/

/-- A character in a JSON string, `ensure_ascii` being false. -/
def escapeJson (c : Char) : List Char :=
  if c = '"' then ['\\', '"']
  else if c = '\\' then ['\\', '\\']
  else if c = '\n' then ['\\', 'n']
  else if c = '\r' then ['\\', 'r']
  else if c = '\t' then ['\\', 't']
  else if c.toNat = 8 then ['\\', 'b']
  else if c.toNat = 12 then ['\\', 'f']
  else if c.toNat < 32 then
    ['\\', 'u', '0', '0', Nat.digitChar (c.toNat / 16), Nat.digitChar (c.toNat % 16)]
  else [c]

/-- A JSON value of a summary. -/
inductive Json where
  | null
  | string (s : String)
  | list (items : List String)

def jsonString (s : String) : List Char := '"' :: s.toList.flatMap escapeJson ++ ['"']

def Json.dumps : Json → List Char
  | .null => "null".toList
  | .string s => jsonString s
  | .list items => '[' :: ", ".toList.intercalate (items.map jsonString) ++ [']']

/-- `json.dumps(fields, sort_keys=True, ensure_ascii=False)`, the fields in the order of their
names. -/
def dumps (fields : List (String × Json)) : List Char :=
  let field := fun (name, value) => jsonString name ++ ": ".toList ++ Json.dumps value
  '\x7b' :: ", ".toList.intercalate (fields.map field) ++ ['\x7d']

/-- `sorted`, of a set. -/
def sorted {α : Type} [LinearOrder α] (items : Finset α) : List α := items.sort

/-- A test dict. The details have the chunks that `iter_bytes()` yields. -/
structure TestDict (Time : Type) where
  id : String
  tags : Finset String := ∅
  details : Dict String (List Bytes) := ∅
  status : String
  timestamps : Option Time × Option Time := (none, none)

section

variable {Time : Type} (str : Time → String)

/-- `_json_time` -/
def jsonTime : Option Time → Json
  | none => .null
  | some time => .string (str time)

/-- The text of `test.json`. -/
def TestDict.summary (t : TestDict Time) : Bytes :=
  Utf8.encode (dumps
    [("details", .list (t.details.keyList.mergeSort fun a b => decide (a ≤ b))),
      ("id", .string t.id),
      ("start", jsonTime str t.timestamps.1),
      ("status", .string t.status),
      ("stop", jsonTime str t.timestamps.2),
      ("tags", .list (sorted t.tags))])

end

/-! ## Files -/

/-- What can go wrong. -/
inductive ExportError where
  | recursionError
  | osError (errno : Errno)
  deriving DecidableEq, Repr

/-- The paths that exist, as `_allocate_path` asks for them. -/
def fileSystem (d : Disk) : FileSystem where
  paths := d.nodes.keys.image RealPath.toPath
  slash_mem := by
    have hroot : RealPath.root ∈ d.nodes.keys := by
      rw [Finmap.mem_keys, ← Finmap.lookup_isSome, d.root]
      rfl
    exact Finset.mem_image.mpr ⟨.root, hroot, rfl⟩

/-- `_allocate_path(root, sub)` on a disk. -/
def allocate (depth : Nat) (d : Disk) (root : RealPath) (sub : String) : Option RealPath :=
  (allocatePath (fileSystem d) depth root sub.toList).map resolve

/-- `_open_path`: the disk afterwards, and the path that is open. -/
def openPath (depth : Nat) (d : Disk) (root : RealPath) (subpath : String) :
    Disk × Except ExportError RealPath :=
  match allocate depth d root subpath with
  | none => (d, .error .recursionError)
  | some name =>
    let made := d.makedirs name.parent
    match made.2 with
    | none | some .eexist =>
      match made.1.create name with
      | .error errno => (made.1, .error (.osError errno))
      | .ok d' => (d', .ok name)
    | some errno => (made.1, .error (.osError errno))

/-- `with _open_path(root, subpath) as f:` and the chunks that are written. -/
def writeFile (depth : Nat) (d : Disk) (root : RealPath) (subpath : String) (chunks : List Bytes) :
    Disk × Option ExportError :=
  match openPath depth d root subpath with
  | (d', .error e) => (d', some e)
  | (d', .ok name) => (chunks.foldl (fun d chunk => d.append name chunk) d', none)

/-- Each of the files, up to the first that raises. -/
def writeFiles (depth : Nat) (root : RealPath) :
    Disk → List (String × List Bytes) → Disk × Option ExportError :=
  forEach fun d (subpath, chunks) => writeFile depth d root subpath chunks

/-- `details.items()` -/
def detailItems (details : Dict String (List Bytes)) : List (String × List Bytes) :=
  details.entries.reverse.map fun entry => (entry.1, entry.2)

section

variable {Time : Type} (str : Time → String)

/-- The files of a test in the order in which they are written. -/
def TestDict.files (t : TestDict Time) : List (String × List Bytes) :=
  ("test.json", [t.summary str]) :: detailItems t.details

/-- `DiskExporter(directory).export(test_dict)` -/
def exportTest (depth : Nat) (directory : RealPath) (d : Disk) (t : TestDict Time) :
    Disk × Option ExportError :=
  match allocate depth d directory t.id with
  | none => (d, some .recursionError)
  | some root => writeFiles depth root d (t.files str)

/-- `export` for each of the tests, up to the first that raises. -/
def exportAll (depth : Nat) (directory : RealPath) :
    Disk → List (TestDict Time) → Disk × Option ExportError :=
  forEach (exportTest str depth directory)

end

end Pysubunit.ToDisk
