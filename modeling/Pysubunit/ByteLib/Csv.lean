/-
ByteLib.Csv — tables as text, in the dialect `excel` of Python's `csv`.

`writeRow` is `csv.writer(stream).writerow`: a field is quoted if it holds a comma, a quote or
an end of line, or if it is empty and alone. `reader` is the machine of `csv.reader`, which is
given lines and is told where each of them ends. `read_write` is the round trip: it holds for
all rows, whatever their fields hold.
-/
import Pysubunit.ByteLib.Transducer

namespace ByteLib

namespace Csv

/-- The fields of a row. -/
abbrev Row := List (List Char)

/-! ## The writer -/

def isNewline (c : Char) : Bool := c == '\n' || c == '\r'

/-- A character for which a field is quoted. -/
def isSpecial (c : Char) : Bool := c == ',' || c == '"' || isNewline c

/-- A quote is doubled. -/
def doubled (field : List Char) : List Char :=
  field.flatMap fun c => if c = '"' then ['"', '"'] else [c]

/-- A field of a row; `alone` if the row has no other. -/
def writeField (alone : Bool) (field : List Char) : List Char :=
  if field.any isSpecial || (alone && field.isEmpty) then '"' :: doubled field ++ ['"'] else field

def writeFields (alone : Bool) : Row → List Char
  | [] => []
  | [field] => writeField alone field
  | field :: fields => writeField false field ++ ',' :: writeFields false fields

theorem writeFields_cons (alone : Bool) (field next : List Char) (fields : Row) :
    writeFields alone (field :: next :: fields)
      = writeField false field ++ ',' :: writeFields false (next :: fields) := rfl

/-- `writerow(row)` -/
def writeRow (row : Row) : List Char := writeFields true row ++ ['\r', '\n']

/-- `writerow` for each of the rows. -/
def write (rows : List Row) : List Char := rows.flatMap writeRow

@[simp] theorem write_nil : write [] = [] := rfl

theorem write_cons (row : Row) (rows : List Row) :
    write (row :: rows) = writeRow row ++ write rows := List.flatMap_cons

/-! ## The reader -/

/-- `ParserState` -/
inductive Mode where
  | startRecord
  | startField
  | inField
  | inQuotedField
  | quoteInQuotedField
  | eatCrnl
  /-- "new-line character seen in unquoted field" -/
  | failed
  deriving DecidableEq, Repr

structure Reader where
  mode : Mode := .startRecord
  field : List Char := []
  fields : Row := []
  deriving DecidableEq, Repr

namespace Reader

variable (r : Reader)

/-- `parse_save_field` -/
def save (mode : Mode) : Reader := ⟨mode, [], r.fields ++ [r.field]⟩

/-- `parse_add_char` -/
def add (mode : Mode) (c : Char) : Reader := { r with mode, field := r.field ++ [c] }

def onStartField (c : Char) : Reader :=
  if isNewline c then r.save .eatCrnl
  else if c = '"' then { r with mode := .inQuotedField }
  else if c = ',' then r.save .startField
  else r.add .inField c

/-- `parse_process_char` -/
def processChar (c : Char) : Reader :=
  match r.mode with
  | .startRecord => if isNewline c then { r with mode := .eatCrnl } else r.onStartField c
  | .startField => r.onStartField c
  | .inField =>
    if isNewline c then r.save .eatCrnl
    else if c = ',' then r.save .startField
    else r.add .inField c
  | .inQuotedField =>
    if c = '"' then { r with mode := .quoteInQuotedField } else r.add .inQuotedField c
  | .quoteInQuotedField =>
    if c = '"' then r.add .inQuotedField c
    else if c = ',' then r.save .startField
    else if isNewline c then r.save .eatCrnl
    else r.add .inField c
  | .eatCrnl => if isNewline c then r else { r with mode := .failed }
  | .failed => r

/-- `parse_process_char` at the end of a line. -/
def endLine : Reader :=
  match r.mode with
  | .startField | .inField | .quoteInQuotedField => r.save .startRecord
  | .eatCrnl => { r with mode := .startRecord }
  | _ => r

/-- A record that is complete is handed out. -/
def handOut : Reader × List Row :=
  if r.mode = .startRecord then ({}, [r.fields]) else (r, [])

end Reader

/-- `csv.reader`, on the lines of a text. Its limit on the size of a field (131072 characters
by default) and its error at a line that holds U+0000 are left out. -/
def reader : Transducer Reader Char Row where
  step r c :=
    if c = '\n' then (r.processChar c).endLine.handOut else (r.processChar c, [])

/-- The rows of a text; the last line may be cut off, and a record in it. -/
def read (text : List Char) : Option (List Row) :=
  let r := reader.run {} text
  let last :=
    if text.getLast?.getD '\n' = '\n' then (r.1, []) else r.1.endLine.handOut
  let rows := r.2 ++ last.2
  match last.1.mode with
  | .failed => none
  | .startRecord => some rows
  | _ => some (rows ++ [last.1.fields ++ [last.1.field]])

/-! ## Reading what was written -/

section

variable (fields : Row) (acc : List Char)

theorem run_doubled (field : List Char) :
    reader.run ⟨.inQuotedField, acc, fields⟩ (doubled field)
      = (⟨.inQuotedField, acc ++ field, fields⟩, []) := by
  induction field generalizing acc with
  | nil => simp [doubled]
  | cons c field ih =>
    rw [doubled, List.flatMap_cons, ← doubled, Transducer.run_append]
    have hstep : reader.run ⟨.inQuotedField, acc, fields⟩ (if c = '"' then ['"', '"'] else [c])
        = (⟨.inQuotedField, acc ++ [c], fields⟩, []) := by
      by_cases hquote : c = '"'
      · subst hquote
        rfl
      · rw [if_neg hquote, Transducer.run_singleton]
        by_cases hnl : c = '\n'
        · subst hnl
          rfl
        · simp [reader, hnl, Reader.processChar, hquote, Reader.add]
    rw [hstep, ih]
    simp

/-- A field in quotes. -/
theorem run_quoted {mode : Mode} (hmode : mode = .startRecord ∨ mode = .startField)
    (field : List Char) :
    reader.run ⟨mode, [], fields⟩ ('"' :: doubled field ++ ['"'])
      = (⟨.quoteInQuotedField, field, fields⟩, []) := by
  have hfirst : reader.step ⟨mode, [], fields⟩ '"' = (⟨.inQuotedField, [], fields⟩, []) := by
    rcases hmode with rfl | rfl <;> rfl
  rw [List.cons_append, Transducer.run_cons, hfirst, Transducer.run_append, run_doubled,
    Transducer.run_singleton]
  rfl

theorem run_plain {field : List Char} (h : field.any isSpecial = false) :
    reader.run ⟨.inField, acc, fields⟩ field = (⟨.inField, acc ++ field, fields⟩, []) := by
  induction field generalizing acc with
  | nil => simp
  | cons c field ih =>
    rw [List.any_cons, Bool.or_eq_false_iff] at h
    have hstep : reader.step ⟨.inField, acc, fields⟩ c = (⟨.inField, acc ++ [c], fields⟩, []) := by
      have hc := h.1
      simp only [isSpecial, isNewline, Bool.or_eq_false_iff, beq_eq_false_iff_ne] at hc
      simp [reader, hc, Reader.processChar, isNewline, Reader.add]
    rw [Transducer.run_cons, hstep, ih (acc ++ [c]) h.2]
    simp

/-- A field without quotes, if there is anything of it. -/
theorem run_unquoted {mode : Mode} (hmode : mode = .startRecord ∨ mode = .startField)
    {field : List Char} (hne : field ≠ []) (h : field.any isSpecial = false) :
    reader.run ⟨mode, [], fields⟩ field = (⟨.inField, field, fields⟩, []) := by
  cases field with
  | nil => exact absurd rfl hne
  | cons c field =>
    rw [List.any_cons, Bool.or_eq_false_iff] at h
    have hstep : reader.step ⟨mode, [], fields⟩ c = (⟨.inField, [c], fields⟩, []) := by
      have hc := h.1
      simp only [isSpecial, isNewline, Bool.or_eq_false_iff, beq_eq_false_iff_ne] at hc
      rcases hmode with rfl | rfl <;>
        simp [reader, hc, Reader.processChar, Reader.onStartField, isNewline, Reader.add]
    rw [Transducer.run_cons, hstep, run_plain fields [c] h.2]
    simp

/-- Where the reader is behind a field that was written. -/
inductive Behind (mode : Mode) (alone : Bool) (fields : Row) (field : List Char) :
    Reader → Prop where
  | quoted : Behind mode alone fields field ⟨.quoteInQuotedField, field, fields⟩
  | unquoted : Behind mode alone fields field ⟨.inField, field, fields⟩
  | empty (h : field = []) (halone : alone = false) :
      Behind mode alone fields field ⟨mode, [], fields⟩

/-- **A field** is read up to its end. -/
theorem run_writeField {mode : Mode} (hmode : mode = .startRecord ∨ mode = .startField)
    (alone : Bool) (field : List Char) :
    ∃ r, reader.run ⟨mode, [], fields⟩ (writeField alone field) = (r, [])
      ∧ Behind mode alone fields field r := by
  unfold writeField
  by_cases hquoted : field.any isSpecial || (alone && field.isEmpty)
  · rw [if_pos hquoted]
    exact ⟨_, run_quoted fields hmode field, .quoted⟩
  · rw [if_neg hquoted]
    obtain ⟨hplain, halone⟩ : field.any isSpecial = false ∧ (alone && field.isEmpty) = false := by
      simpa using hquoted
    by_cases hne : field = []
    · subst hne
      exact ⟨_, rfl, .empty rfl (by simpa using halone)⟩
    · exact ⟨_, run_unquoted fields hmode hne hplain, .unquoted⟩

variable {fields : Row} {field : List Char} {mode : Mode} {alone : Bool} {r : Reader}

theorem Behind.comma (h : Behind mode alone fields field r)
    (hmode : mode = .startRecord ∨ mode = .startField) :
    reader.step r ',' = (⟨.startField, [], fields ++ [field]⟩, []) := by
  cases h with
  | quoted => rfl
  | unquoted => rfl
  | empty hnil _ =>
    subst hnil
    rcases hmode with rfl | rfl <;> rfl

theorem Behind.endRow (h : Behind mode alone fields field r)
    (hmode : mode = .startField ∨ alone = true) :
    reader.run r ['\r', '\n'] = ({}, [fields ++ [field]]) := by
  cases h with
  | quoted => rfl
  | unquoted => rfl
  | empty hnil halone =>
    subst hnil
    rcases hmode with rfl | rfl
    · rfl
    · cases halone

/-- The fields of a row, from one of them to the end of the row. -/
theorem run_writeFields (mode : Mode)
    (hmode : mode = .startRecord ∧ alone = true ∨ mode = .startField)
    (fields : Row) (field : List Char) (rest : Row) :
    reader.run ⟨mode, [], fields⟩ (writeFields alone (field :: rest) ++ ['\r', '\n'])
      = ({}, [fields ++ field :: rest]) := by
  induction rest generalizing mode alone fields field with
  | nil =>
    have hstart : mode = .startRecord ∨ mode = .startField := hmode.imp_left And.left
    obtain ⟨r, hrun, hbehind⟩ := run_writeField fields hstart alone field
    have hend := hbehind.endRow (hmode.symm.imp_right And.right)
    rw [writeFields, Transducer.run_append, hrun, hend, List.nil_append]
  | cons next rest ih =>
    have hstart : mode = .startRecord ∨ mode = .startField := hmode.imp_left And.left
    obtain ⟨r, hrun, hbehind⟩ := run_writeField fields hstart false field
    have hrest := @ih false .startField (.inr rfl) (fields ++ [field]) next
    rw [writeFields_cons, List.append_assoc, Transducer.run_append, hrun, List.cons_append,
      Transducer.run_cons, hbehind.comma hstart, hrest]
    simp

/-- **A row.** -/
theorem run_writeRow (row : Row) : reader.run {} (writeRow row) = ({}, [row]) := by
  cases row with
  | nil => rfl
  | cons field rest => exact run_writeFields .startRecord (.inl ⟨rfl, rfl⟩) [] field rest

theorem run_write (rows : List Row) : reader.run {} (write rows) = ({}, rows) := by
  induction rows with
  | nil => rfl
  | cons row rows ih =>
    rw [write_cons, Transducer.run_append, run_writeRow, ih]
    rfl

theorem getLast?_write (rows : List Row) : (write rows).getLast?.getD '\n' = '\n' := by
  induction rows with
  | nil => rfl
  | cons row rows ih =>
    have hrow : (writeRow row).getLast? = some '\n' := by simp [writeRow]
    rw [write_cons, List.getLast?_append, hrow]
    cases hlast : (write rows).getLast? with
    | none => rfl
    | some c =>
      rw [hlast] at ih
      exact ih

/-- **What was written is read back**: every row, whatever its fields hold. -/
theorem read_write (rows : List Row) : read (write rows) = some rows := by
  unfold read
  rw [run_write]
  dsimp only
  rw [if_pos (getLast?_write rows)]
  simp

end

end Csv

end ByteLib
