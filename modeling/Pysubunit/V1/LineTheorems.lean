/-
Pysubunit.V1.LineTheorems — what a server does with whole lines.

`Reads` says which outputs a server makes of bytes that are whole lines, and
what it is then; such facts are put together when byte strings are
(`Reads.append`). `directive_line` and `directive_text` say how a line is taken
whose first word names a command.
-/
import Pysubunit.V1.BracketTheorems

namespace Pysubunit.V1

open ByteLib

/-- The calls that a client receives. -/
def received (outputs : List Output) : List Call :=
  outputs.filterMap fun
    | .call call => some call
    | _ => none

@[simp] theorem received_append (os os' : List Output) :
    received (os ++ os') = received os ++ received os' := List.filterMap_append

/-! ## Reading whole lines -/

section Reads

variable (parseDate : Bytes → Except Error DateTime)

/-- The server reads the lines of `bytes`, makes its `outputs` and is then
`s'`. -/
structure Reads (s : Server) (bytes : Bytes) (outputs : List Output) (s' : Server) : Prop where
  terminated : Terminated bytes
  run : s.linesReceived parseDate (lines bytes) = { server := s', outputs := outputs }

theorem Reads.nil (s : Server) : Reads parseDate s [] [] s := by
  constructor
  · simp [Terminated]
  · rfl

theorem linesReceived_append {s s' : Server} {a b : List Bytes} {os : List Output}
    (h : s.linesReceived parseDate a = { server := s', outputs := os }) :
    s.linesReceived parseDate (a ++ b) =
      { s'.linesReceived parseDate b with
        outputs := os ++ (s'.linesReceived parseDate b).outputs } := by
  induction a generalizing s os with
  | nil =>
    cases h
    rfl
  | cons line a ih =>
    have hok : (s.linesReceived parseDate (line :: a)).raised = none := by rw [h]
    obtain ⟨hfirst, hrun⟩ := linesReceived_cons parseDate hok
    rw [hrun] at h
    have hrest : (s.lineReceived parseDate line).server.linesReceived parseDate a
        = { server := s',
            outputs := ((s.lineReceived parseDate line).server.linesReceived parseDate a).outputs } := by
      have hserver := congrArg Effect.server h
      have hraised := congrArg Effect.raised h
      simp only at hserver hraised
      rw [← hserver, ← hraised]
    have hos := congrArg Effect.outputs h
    simp only at hos
    rw [List.cons_append, Server.linesReceived, hfirst, ← hos]
    simp only [ih hrest, List.append_assoc]

variable {parseDate}

theorem Reads.append {s s' s'' : Server} {a b : Bytes} {os os' : List Output}
    (ha : Reads parseDate s a os s') (hb : Reads parseDate s' b os' s'') :
    Reads parseDate s (a ++ b) (os ++ os') s'' := by
  constructor
  · exact ha.terminated.append hb.terminated
  · rw [lines_append ha.terminated, linesReceived_append parseDate ha.run, hb.run]

/-- One line. -/
theorem Reads.line {s s' : Server} {line : Bytes} {os : List Output} (hline : 10 ∉ line)
    (h : s.lineReceived parseDate (line ++ [10]) = { server := s', outputs := os }) :
    Reads parseDate s (line ++ [10]) os s' := by
  constructor
  · intro x hx
    simpa using hx.symm
  · have hlines := lines_line hline []
    rw [lines_nil] at hlines
    rw [hlines, Server.linesReceived, h]
    simp [Server.linesReceived]

/-- `readFrom`, if no line raises. -/
theorem readFrom_eq (parseDate : Bytes → Except Error DateTime) {s : Server} {pipe : Bytes}
    (h : (s.linesReceived parseDate (lines pipe)).raised = none) :
    s.readFrom parseDate pipe =
      { (s.linesReceived parseDate (lines pipe)).server.lostConnection with
        outputs := (s.linesReceived parseDate (lines pipe)).outputs
          ++ (s.linesReceived parseDate (lines pipe)).server.lostConnection.outputs } := by
  rw [Server.readFrom, h]

/-- Whole lines, outside a test. -/
theorem Reads.readFrom {s s' : Server} {bytes : Bytes} {os : List Output}
    (h : Reads parseDate s bytes os s') (hs' : s'.state = .outsideTest) :
    s.readFrom parseDate bytes = { server := s', outputs := os } := by
  simp [Server.readFrom, h.run, Server.lostConnection, hs']

end Reads

/-! ## Directives -/

/-- The name of a directive: no whitespace, no colon. -/
def IsName (name : Bytes) : Prop := name ≠ [] ∧ NoSpace name ∧ 58 ∉ name

instance (name : Bytes) : Decidable (IsName name) := inferInstanceAs (Decidable (_ ∧ _))

theorem IsName.noSpace_colon {name : Bytes} (h : IsName name) : NoSpace (name ++ [58]) := by
  intro b hb
  rcases List.mem_append.mp hb with hb | hb
  · exact h.2.1 b hb
  · rw [List.mem_singleton] at hb
    subst hb
    decide

/-- There are no colons to strip off a name. -/
theorem IsName.rdropWhile_colon {name : Bytes} (h : IsName name) :
    name.rdropWhile (fun b => b == 58) = name := by
  rw [List.rdropWhile_eq_self_iff]
  intro hne hlast
  have hcolon : name.getLast hne = 58 := by simpa using hlast
  exact h.2.2 (hcolon ▸ List.getLast_mem hne)

/-- What the client puts behind the name of a directive is recognised. -/
theorem directive_line {name rest : Bytes} (hname : IsName name) (hrest : NotBlank rest) :
    directive (name ++ [58, 32] ++ rest)
      = (commandOf name).map fun command => (command, name.length + 2) := by
  have hline : name ++ [58, 32] ++ rest = (name ++ [58]) ++ 32 :: rest := by simp
  have hstrip : (name ++ [58]).rdropWhile (fun b => b == 58) = name := by
    rw [List.rdropWhile_concat_pos _ _ _ (by decide), hname.rdropWhile_colon]
  unfold directive
  rw [hline, splitFirst_word (by simp) hname.noSpace_colon (by decide) hrest]
  simp only [List.prefix_append, if_true, hstrip]
  simp

/-- A line is read back without its newline. -/
theorem decodeLine_encode (s : String) : decodeLine (Utf8.encode s.toList ++ [10]) = .ok s := by
  unfold decodeLine
  rw [show dropLastBytes (Utf8.encode s.toList ++ [10]) 1 = Utf8.encode s.toList from
    dropLastBytes_append _ _, Utf8.decodeString_encode]

theorem encode_of_decodeLine {line : Bytes} {text : String} (h : decodeLine line = .ok text) :
    Utf8.encode text.toList = dropLastBytes line 1 := by
  unfold decodeLine at h
  split at h
  · rename_i hdecode
    cases h
    exact Utf8.encode_of_decodeString hdecode
  · cases h

/-- A line of a directive with a text behind it. -/
theorem directive_text {name : Bytes} {command : Command} (hname : IsName name)
    (hcommand : commandOf name = some command) {text : String} (htext : HasWord text.toList) :
    directive (name ++ [58, 32] ++ Utf8.encode text.toList ++ [10]) = some (command, name.length + 2)
      ∧ decodeLine ((name ++ [58, 32] ++ Utf8.encode text.toList ++ [10]).drop (name.length + 2))
        = .ok text := by
  constructor
  · have hrest : NotBlank (Utf8.encode text.toList ++ [10]) := by
      obtain ⟨b, hb, hspace⟩ := htext.notBlank
      exact ⟨b, by simp [hb], hspace⟩
    rw [List.append_assoc, directive_line hname hrest, hcommand]
    rfl
  · rw [List.append_assoc, List.drop_left' (by simp), decodeLine_encode]

end Pysubunit.V1
