/-
ByteLib.Json — reading JSON, as `json.loads` does.

The reader is a machine that takes one character after the other, with a stack of the arrays
and objects that are open. Numbers are left out. What a writer puts together is read piece by
piece: `Reads` says that a text is read as a value wherever one may stand, and there is a rule
for every kind of value (`reads_quoted`, `reads_array`, `reads_object`). A writer may escape
what it likes as it likes, as long as each escape is read back (`Escapes`).
-/
import Mathlib.Data.List.Basic

namespace ByteLib

namespace Json

inductive Value where
  | null
  | bool (b : Bool)
  | string (s : String)
  | array (items : List Value)
  | object (fields : List (String × Value))

/-- `value.get(key)`: of a key that comes twice the last is kept. -/
def Value.get : Value → String → Option Value
  | .object fields, key => fields.reverse.lookup key
  | _, _ => none

/-! ## The reader -/

/-- What is open; a `field` is an object with a key whose value is to come. -/
inductive Frame where
  | array (items : List Value)
  | object (fields : List (String × Value))
  | field (fields : List (String × Value)) (key : String)

/-- A string that is not at its end, in code points. -/
structure Text where
  isKey : Bool
  units : List Nat := []

def Text.add (t : Text) (unit : Nat) : Text := { t with units := t.units ++ [unit] }

/-- What is to come. -/
inductive Mode where
  | value
  | first
  | key
  | firstKey
  | colon
  | after
  | text (t : Text)
  | escape (t : Text)
  | hex (t : Text) (digits number : Nat)
  | word (left : List Char) (v : Value)
  | done (v : Value)

structure Reader where
  mode : Mode := .value
  stack : List Frame := []

def isBlank (c : Char) : Bool := c == ' ' || c == '\t' || c == '\n' || c == '\r'

/-- The character that is meant by a letter behind a backslash. -/
def unescape (c : Char) : Option Char :=
  if c = '"' ∨ c = '\\' ∨ c = '/' then some c
  else if c = 'b' then some '\x08'
  else if c = 'f' then some '\x0c'
  else if c = 'n' then some '\n'
  else if c = 'r' then some '\r'
  else if c = 't' then some '\t'
  else none

def hexDigit (c : Char) : Option Nat :=
  if '0' ≤ c ∧ c ≤ '9' then some (c.toNat - '0'.toNat)
  else if 'a' ≤ c ∧ c ≤ 'f' then some (c.toNat - 'a'.toNat + 10)
  else if 'A' ≤ c ∧ c ≤ 'F' then some (c.toNat - 'A'.toNat + 10)
  else none

def isHigh (unit : Nat) : Bool := 0xD800 ≤ unit && unit < 0xDC00

def isLow (unit : Nat) : Bool := 0xDC00 ≤ unit && unit < 0xE000

/-- Surrogates are one character in pairs, and none alone. -/
def joinUnits : List Nat → Option (List Char)
  | [] => some []
  | unit :: units =>
    if isHigh unit then
      match units with
      | [] => none
      | low :: units =>
        if isLow low then
          (joinUnits units).map
            (Char.ofNat (0x10000 + (unit - 0xD800) * 0x400 + (low - 0xDC00)) :: ·)
        else none
    else if isLow unit then none
    else (joinUnits units).map (Char.ofNat unit :: ·)

namespace Reader

/-- A value is put where it belongs. -/
def complete (v : Value) : List Frame → Option Reader
  | [] => some ⟨.done v, []⟩
  | .array items :: stack => some ⟨.after, .array (items ++ [v]) :: stack⟩
  | .field fields key :: stack => some ⟨.after, .object (fields ++ [(key, v)]) :: stack⟩
  | .object _ :: _ => none

/-- So is a key. -/
def named (key : String) : List Frame → Option Reader
  | .object fields :: stack => some ⟨.colon, .field fields key :: stack⟩
  | _ => none

def endText (t : Text) (stack : List Frame) : Option Reader :=
  (joinUnits t.units).bind fun chars =>
    if t.isKey then named (String.ofList chars) stack
    else complete (.string (String.ofList chars)) stack

def startValue (c : Char) (stack : List Frame) : Option Reader :=
  if c = '"' then some ⟨.text { isKey := false }, stack⟩
  else if c = '[' then some ⟨.first, .array [] :: stack⟩
  else if c = '\x7b' then some ⟨.firstKey, .object [] :: stack⟩
  else if c = 'n' then some ⟨.word "ull".toList .null, stack⟩
  else if c = 't' then some ⟨.word "rue".toList (.bool true), stack⟩
  else if c = 'f' then some ⟨.word "alse".toList (.bool false), stack⟩
  else none

def startKey (c : Char) (stack : List Frame) : Option Reader :=
  if c = '"' then some ⟨.text { isKey := true }, stack⟩ else none

/-- The end of an array or an object. -/
def close (c : Char) : List Frame → Option Reader
  | .array items :: stack => if c = ']' then complete (.array items) stack else none
  | .object fields :: stack => if c = '\x7d' then complete (.object fields) stack else none
  | _ => none

/-- Behind a value. -/
def onAfter (c : Char) (stack : List Frame) : Option Reader :=
  if c = ',' then
    match stack with
    | .array _ :: _ => some ⟨.value, stack⟩
    | .object _ :: _ => some ⟨.key, stack⟩
    | _ => none
  else close c stack

/-- One character; nothing comes of an error. -/
def step (r : Reader) (c : Char) : Option Reader :=
  match r.mode with
  | .value => if isBlank c then some r else startValue c r.stack
  | .first =>
    if isBlank c then some r else if c = ']' then close c r.stack else startValue c r.stack
  | .key => if isBlank c then some r else startKey c r.stack
  | .firstKey =>
    if isBlank c then some r else if c = '\x7d' then close c r.stack else startKey c r.stack
  | .colon =>
    if isBlank c then some r else if c = ':' then some { r with mode := .value } else none
  | .after => if isBlank c then some r else onAfter c r.stack
  | .text t =>
    if c = '"' then endText t r.stack
    else if c = '\\' then some { r with mode := .escape t }
    -- `strict`: a control character has to be escaped
    else if c.toNat < 32 then none
    else some { r with mode := .text (t.add c.toNat) }
  | .escape t =>
    if c = 'u' then some { r with mode := .hex t 0 0 }
    else (unescape c).map fun c => { r with mode := .text (t.add c.toNat) }
  | .hex t digits number =>
    (hexDigit c).map fun d => { r with
      mode :=
        if digits = 3 then .text (t.add (number * 16 + d)) else .hex t (digits + 1) (number * 16 + d) }
  | .word left v =>
    if left.head? = some c then
      if left.tail = [] then complete v r.stack else some { r with mode := .word left.tail v }
    else none
  | .done _ => if isBlank c then some r else none

def run (r : Reader) (text : List Char) : Option Reader := text.foldlM step r

@[simp] theorem run_nil (r : Reader) : r.run [] = some r := rfl

@[simp] theorem run_cons (r : Reader) (c : Char) (text : List Char) :
    r.run (c :: text) = (r.step c).bind fun r => r.run text := List.foldlM_cons

theorem run_append (r : Reader) (text more : List Char) :
    r.run (text ++ more) = (r.run text).bind fun r => r.run more := List.foldlM_append

end Reader

/-- `json.loads(text)` -/
def loads (text : List Char) : Option Value :=
  (Reader.run {} text).bind fun r =>
    match r.mode with
    | .done v => some v
    | _ => none

/-! ## Reading what was written -/

/-- A text is read as a value. -/
def Reads (text : List Char) (v : Value) : Prop :=
  ∀ stack, Reader.run ⟨.value, stack⟩ text = Reader.complete v stack
    ∧ Reader.run ⟨.first, stack⟩ text = Reader.complete v stack

theorem loads_of_reads {text : List Char} {v : Value} (h : Reads text v) :
    loads text = some v := by
  have hrun : Reader.run {} text = some ⟨.done v, []⟩ := (h []).1
  rw [loads, hrun]
  rfl

theorem reads_null : Reads "null".toList .null := fun stack => by
  constructor <;> simp [Reader.step, Reader.startValue, isBlank]

/-! ### Strings -/

theorem joinUnits_toNat (chars : List Char) : joinUnits (chars.map Char.toNat) = some chars := by
  induction chars with
  | nil => rfl
  | cons c chars ih =>
    have hvalid : c.toNat < 0xD800 ∨ 0xDFFF < c.toNat ∧ c.toNat < 0x110000 := c.valid
    have hhigh : isHigh c.toNat = false := by
      simp only [isHigh, Bool.and_eq_false_iff, decide_eq_false_iff_not]
      omega
    have hlow : isLow c.toNat = false := by
      simp only [isLow, Bool.and_eq_false_iff, decide_eq_false_iff_not]
      omega
    rw [List.map_cons, joinUnits.eq_def]
    simp [hhigh, hlow, ih]

/-- Whatever is written for a character in a string is read as the character. -/
def Escapes (escape : Char → List Char) : Prop :=
  ∀ (c : Char) (t : Text) (stack : List Frame),
    Reader.run ⟨.text t, stack⟩ (escape c) = some ⟨.text (t.add c.toNat), stack⟩

section Strings

variable {escape : Char → List Char}

/-- A string, as it is written. -/
def quoted (escape : Char → List Char) (s : String) : List Char :=
  '"' :: s.toList.flatMap escape ++ ['"']

theorem run_escaped (h : Escapes escape) (chars : List Char) (t : Text) (stack : List Frame) :
    Reader.run ⟨.text t, stack⟩ (chars.flatMap escape)
      = some ⟨.text { t with units := t.units ++ chars.map Char.toNat }, stack⟩ := by
  induction chars generalizing t with
  | nil => simp
  | cons c chars ih =>
    rw [List.flatMap_cons, Reader.run_append, h, Option.bind_some, ih]
    simp [Text.add]

/-- From the quote in front to the quote behind. -/
theorem run_text (h : Escapes escape) (s : String) (isKey : Bool) (stack : List Frame) :
    Reader.run ⟨.text { isKey }, stack⟩ (s.toList.flatMap escape ++ ['"'])
      = if isKey then Reader.named s stack else Reader.complete (.string s) stack := by
  rw [Reader.run_append, run_escaped h, Option.bind_some, Reader.run_cons]
  simp [Reader.step, Reader.endText, joinUnits_toNat]

theorem reads_quoted (h : Escapes escape) (s : String) : Reads (quoted escape s) (.string s) := by
  intro stack
  have htext := run_text h s false stack
  rw [quoted, List.cons_append, Reader.run_cons, Reader.run_cons]
  constructor <;> simpa [Reader.step, Reader.startValue, isBlank] using htext

theorem run_key (h : Escapes escape) (key : String) (fields : List (String × Value))
    (stack : List Frame) :
    Reader.run ⟨.key, .object fields :: stack⟩ (quoted escape key)
        = some ⟨.colon, .field fields key :: stack⟩
    ∧ Reader.run ⟨.firstKey, .object fields :: stack⟩ (quoted escape key)
        = some ⟨.colon, .field fields key :: stack⟩ := by
  have htext := run_text h key true (.object fields :: stack)
  rw [quoted, List.cons_append, Reader.run_cons, Reader.run_cons]
  constructor <;> simpa [Reader.step, Reader.startKey, Reader.named, isBlank] using htext

end Strings

/-! ### Arrays and objects -/

theorem intercalate_cons (separator text : List Char) (texts : List (List Char)) :
    separator.intercalate (text :: texts) = text ++ texts.flatMap (separator ++ ·) := by
  induction texts generalizing text with
  | nil => simp
  | cons next texts ih => simp [List.intercalate_cons_cons, ih]

/-- What is left of an array behind an item. -/
theorem run_items {texts : List (List Char)} {vs : List Value} (h : List.Forall₂ Reads texts vs)
    (items : List Value) (stack : List Frame) :
    Reader.run ⟨.after, .array items :: stack⟩ (texts.flatMap (", ".toList ++ ·) ++ [']'])
      = Reader.complete (.array (items ++ vs)) stack := by
  induction h generalizing items with
  | nil => simp [Reader.step, Reader.onAfter, Reader.close, isBlank]
  | @cons text v texts vs hv _ ih =>
    have hitem := (hv (.array items :: stack)).1
    have hseparator : Reader.run ⟨.after, .array items :: stack⟩ ", ".toList
        = some ⟨.value, .array items :: stack⟩ := by
      simp [Reader.step, Reader.onAfter, isBlank]
    rw [List.flatMap_cons, List.append_assoc, List.append_assoc, Reader.run_append, hseparator,
      Option.bind_some, Reader.run_append, hitem, Reader.complete, Option.bind_some, ih]
    simp

theorem reads_array {texts : List (List Char)} {vs : List Value}
    (h : List.Forall₂ Reads texts vs) :
    Reads ('[' :: ", ".toList.intercalate texts ++ [']']) (.array vs) := by
  intro stack
  have hstart : Reader.run ⟨.first, .array [] :: stack⟩ (", ".toList.intercalate texts ++ [']'])
      = Reader.complete (.array vs) stack := by
    cases h with
    | nil => simp [Reader.step, Reader.close, isBlank]
    | @cons text v texts vs hv hvs =>
      rw [intercalate_cons, List.append_assoc, Reader.run_append, (hv _).2, Reader.complete,
        Option.bind_some, run_items hvs]
      simp
  rw [List.cons_append, Reader.run_cons, Reader.run_cons]
  constructor <;> simpa [Reader.step, Reader.startValue, isBlank] using hstart

section Objects

variable {escape : Char → List Char}

/-- A text is read as a field. -/
def ReadsField (text : List Char) (field : String × Value) : Prop :=
  ∀ fields stack, Reader.run ⟨.key, .object fields :: stack⟩ text
      = some ⟨.after, .object (fields ++ [field]) :: stack⟩
    ∧ Reader.run ⟨.firstKey, .object fields :: stack⟩ text
      = some ⟨.after, .object (fields ++ [field]) :: stack⟩

theorem readsField_quoted (h : Escapes escape) (key : String) {text : List Char} {v : Value}
    (hv : Reads text v) : ReadsField (quoted escape key ++ ": ".toList ++ text) (key, v) := by
  intro fields stack
  have hkey := run_key h key fields stack
  have hcolon : Reader.run ⟨.colon, .field fields key :: stack⟩ ": ".toList
      = some ⟨.value, .field fields key :: stack⟩ := by
    simp [Reader.step, isBlank]
  have hvalue : Reader.run ⟨.colon, .field fields key :: stack⟩ (": ".toList ++ text)
      = some ⟨.after, .object (fields ++ [(key, v)]) :: stack⟩ := by
    rw [Reader.run_append, hcolon, Option.bind_some, (hv _).1, Reader.complete]
  constructor
  · rw [List.append_assoc, Reader.run_append, hkey.1, Option.bind_some, hvalue]
  · rw [List.append_assoc, Reader.run_append, hkey.2, Option.bind_some, hvalue]

/-- What is left of an object behind a field. -/
theorem run_fields {texts : List (List Char)} {more : List (String × Value)}
    (h : List.Forall₂ ReadsField texts more) (fields : List (String × Value))
    (stack : List Frame) :
    Reader.run ⟨.after, .object fields :: stack⟩ (texts.flatMap (", ".toList ++ ·) ++ ['\x7d'])
      = Reader.complete (.object (fields ++ more)) stack := by
  induction h generalizing fields with
  | nil => simp [Reader.step, Reader.onAfter, Reader.close, isBlank]
  | @cons text field texts more hfield _ ih =>
    have hread := (hfield fields stack).1
    have hseparator : Reader.run ⟨.after, .object fields :: stack⟩ ", ".toList
        = some ⟨.key, .object fields :: stack⟩ := by
      simp [Reader.step, Reader.onAfter, isBlank]
    rw [List.flatMap_cons, List.append_assoc, List.append_assoc, Reader.run_append, hseparator,
      Option.bind_some, Reader.run_append, hread, Option.bind_some, ih]
    simp

theorem reads_object {texts : List (List Char)} {fields : List (String × Value)}
    (h : List.Forall₂ ReadsField texts fields) :
    Reads ('\x7b' :: ", ".toList.intercalate texts ++ ['\x7d']) (.object fields) := by
  intro stack
  have hstart : Reader.run ⟨.firstKey, .object [] :: stack⟩
        (", ".toList.intercalate texts ++ ['\x7d'])
      = Reader.complete (.object fields) stack := by
    cases h with
    | nil => simp [Reader.step, Reader.close, isBlank]
    | @cons text field texts more hfield hmore =>
      rw [intercalate_cons, List.append_assoc, Reader.run_append, (hfield _ _).2,
        Option.bind_some, run_fields hmore]
      simp
  rw [List.cons_append, Reader.run_cons, Reader.run_cons]
  constructor <;> simpa [Reader.step, Reader.startValue, isBlank] using hstart

end Objects

end Json

end ByteLib
