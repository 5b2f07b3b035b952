/-
Pysubunit.V1.LenientTheorems — what `strict` changes in a decoder.

A strict decoder looks at the characters of a header that a lenient one ignores, and at nothing
else. `callState_relaxed` says so of one state call, `runStates_relaxed` of the calls that a
`write` leads to, and `writes_relaxed_iff` of any number of writes: the two do the same exactly
as long as the strict one rejects no header for its form.
-/
import Pysubunit.V1.ChunkedTheorems

namespace Pysubunit.V1

open ByteLib

namespace Decoder

/-- The decoder with `strict=False`. -/
def relaxed (d : Decoder) : Decoder := { d with strict := false }

/-- What is wrong with the form of a header. -/
def FormError (e : Error) : Prop :=
  ∃ header, e = .valueError (.bytes "chunk header invalid: %r" header)
    ∨ e = .valueError (.bytes "too many CRs in chunk header %r" header)

/-! ## One state call -/

theorem headerLength_lenient {countStr : Bytes} {e : Error}
    (h : headerLength false countStr = .error e) : ¬ FormError e := by
  unfold headerLength at h
  simp only [Bool.false_eq_true, false_and, if_false] at h
  split at h
  · cases h
  · cases h
    simp [FormError]

theorem headerLength_relaxed {strict : Bool} {countStr : Bytes}
    (h : ∀ e, headerLength strict countStr = .error e → ¬ FormError e) :
    headerLength false countStr = headerLength strict countStr := by
  unfold headerLength at h ⊢
  by_cases hend : strict = true ∧ lastBytes countStr 2 ≠ [13, 10]
  · rw [if_pos hend] at h
    exact absurd ⟨_, .inl rfl⟩ (h _ rfl)
  · rw [if_neg hend] at h ⊢
    by_cases hreturns : strict = true ∧ 13 ∈ dropLastBytes countStr 2
    · rw [if_pos hreturns] at h
      exact absurd ⟨_, .inr rfl⟩ (h _ rfl)
    · rw [if_neg hreturns]
      simp

theorem readLength_relaxed {d d' : Decoder} {how : StateEnd} (h : d.readLength = (d', how))
    (hform : ∀ e, how = .raises e → ¬ FormError e) : d.relaxed.readLength = (d'.relaxed, how) := by
  have hbuffered : d.relaxed.bufferedBytes = d.bufferedBytes := rfl
  unfold readLength at h ⊢
  rw [hbuffered]
  dsimp only at h ⊢
  split at h
  · rename_i hlast
    cases h
    rw [if_pos hlast]
  · rename_i hlast
    rw [if_neg hlast]
    have hlength : headerLength d.relaxed.strict (d.bufferedBytes.flatMap countChars)
        = headerLength d.strict (d.bufferedBytes.flatMap countChars) := by
      refine headerLength_relaxed fun e he => ?_
      rw [he] at h
      cases h
      exact hform e rfl
    rw [hlength]
    cases hread : headerLength d.strict (d.bufferedBytes.flatMap countChars) with
    | error e =>
      rw [hread] at h
      cases h
      rfl
    | ok n =>
      rw [hread] at h
      dsimp only at h ⊢
      split at h
      · rename_i hn
        rw [if_pos hn]
        split at h
        · rename_i hempty
          cases h
          rw [if_pos hempty]
          rfl
        · rename_i hempty
          cases h
          rw [if_neg hempty]
          rfl
      · rename_i hn
        cases h
        rw [if_neg hn]
        rfl

theorem readBodyFrom_relaxed (d : Decoder) (pieces : List Bytes) (n : Nat) :
    d.relaxed.readBodyFrom pieces n
      = ((d.readBodyFrom pieces n).1, (d.readBodyFrom pieces n).2.1.relaxed,
          (d.readBodyFrom pieces n).2.2) := by
  induction pieces generalizing d n with
  | nil => rfl
  | cons piece pieces ih =>
    rw [readBodyFrom, readBodyFrom]
    split
    · rfl
    · split
      · have hstate : (if n - piece.length = 0 then { d.relaxed with state := .readLength }
            else d.relaxed)
            = relaxed (if n - piece.length = 0 then { d with state := .readLength } else d) := by
          split <;> rfl
        dsimp only
        rw [hstate, ih]
      · rfl

/-- A form error, or the same call. -/
theorem callState_relaxed {d d' : Decoder} {os : List Bytes} {how : StateEnd}
    (h : d.callState = (os, d', how)) (hform : ∀ e, how = .raises e → ¬ FormError e) :
    d.relaxed.callState = (os, d'.relaxed, how) := by
  have hstate : d.relaxed.state = d.state := rfl
  unfold callState at h ⊢
  rw [hstate]
  cases hs : d.state with
  | readLength =>
    rw [hs] at h
    obtain ⟨rfl, hread⟩ := Prod.mk.inj h
    rw [readLength_relaxed hread hform]
  | readBody =>
    rw [hs] at h
    dsimp only at h ⊢
    rw [readBody] at h ⊢
    have hbody := readBodyFrom_relaxed d d.bufferedBytes d.bodyLength
    rw [h] at hbody
    exact hbody
  | finished =>
    rw [hs] at h
    dsimp only at h ⊢
    have hbuffered : d.relaxed.bufferedBytes = d.bufferedBytes := rfl
    unfold finished at h ⊢
    rw [hbuffered]
    split at h
    · rename_i hempty
      cases h
      rw [if_pos hempty]
    · rename_i hempty
      cases h
      rw [if_neg hempty]
      rfl

theorem readLength_lenient {d d' : Decoder} {how : StateEnd} (h : d.readLength = (d', how))
    (hlenient : d.strict = false) : d'.strict = false ∧ ∀ e, how = .raises e → ¬ FormError e := by
  unfold readLength at h
  rw [hlenient] at h
  dsimp only at h
  split at h
  · cases h
    exact ⟨hlenient, by simp⟩
  · cases hread : headerLength false (d.bufferedBytes.flatMap countChars) with
    | error e =>
      rw [hread] at h
      cases h
      exact ⟨hlenient, by simpa using headerLength_lenient hread⟩
    | ok n =>
      rw [hread] at h
      dsimp only at h
      split at h
      · split at h <;> cases h <;> exact ⟨rfl, by simp⟩
      · cases h
        exact ⟨rfl, by simp⟩

theorem readBodyFrom_lenient {d : Decoder} (h : d.strict = false) (pieces : List Bytes) (n : Nat) :
    (d.readBodyFrom pieces n).2.1.strict = false
      ∧ ∀ e, (d.readBodyFrom pieces n).2.2 ≠ .raises e := by
  induction pieces generalizing d n with
  | nil => exact ⟨h, by simp [readBodyFrom]⟩
  | cons piece pieces ih =>
    rw [readBodyFrom]
    split
    · exact ⟨h, by simp⟩
    · split
      · refine ih ?_ _
        split <;> exact h
      · exact ⟨h, by simp⟩

/-- A lenient decoder has no form errors. -/
theorem callState_lenient {d d' : Decoder} {os : List Bytes} {how : StateEnd}
    (h : d.callState = (os, d', how)) (hlenient : d.strict = false) :
    d'.strict = false ∧ ∀ e, how = .raises e → ¬ FormError e := by
  unfold callState at h
  cases hs : d.state with
  | readLength =>
    rw [hs] at h
    exact readLength_lenient (Prod.mk.inj h).2 hlenient
  | readBody =>
    rw [hs] at h
    dsimp only at h
    obtain ⟨hstrict, hraises⟩ := readBodyFrom_lenient hlenient d.bufferedBytes d.bodyLength
    rw [← readBody, h] at hstrict hraises
    exact ⟨hstrict, fun e he => absurd he (hraises e)⟩
  | finished =>
    rw [hs] at h
    dsimp only at h
    unfold finished at h
    split at h <;> cases h
    · exact ⟨hlenient, by simp [FormError]⟩
    · exact ⟨hlenient, by simp⟩

/-! ## Writes -/

/-- What a `write` does, with `strict=False` in the decoder behind it. -/
def Written.relaxed (w : Written) : Written := { w with decoder := w.decoder.relaxed }

/-- The write rejects a header for its form. -/
def Written.RejectsForm (w : Written) : Prop := ∃ e, w.result = .error e ∧ FormError e

theorem runStates_relaxed {d : Decoder} (h : ¬ d.runStates.RejectsForm) :
    d.relaxed.runStates = d.runStates.relaxed := by
  induction hn : d.buffered.length using Nat.strongRecOn generalizing d with
  | ind n ih =>
    rcases hcall : d.callState with ⟨os, d', how⟩
    cases how with
    | returns residue =>
      rw [runStates_returns hcall, runStates_returns (callState_relaxed hcall (by simp))]
      rfl
    | raises e =>
      rw [runStates_raises hcall] at h ⊢
      have hform : ¬ FormError e := fun hform => h ⟨e, rfl, hform⟩
      rw [runStates_raises (callState_relaxed hcall (by simpa using hform))]
      rfl
    | calls =>
      have hshorter := callState_calls hcall
      rw [runStates_calls hcall] at h ⊢
      rw [runStates_calls (callState_relaxed hcall (by simp)), ih _ (by omega) h rfl]
      rfl

theorem runStates_lenient {d : Decoder} (h : d.strict = false) :
    d.runStates.decoder.strict = false ∧ ¬ d.runStates.RejectsForm := by
  induction hn : d.buffered.length using Nat.strongRecOn generalizing d with
  | ind n ih =>
    rcases hcall : d.callState with ⟨os, d', how⟩
    obtain ⟨hstrict, hform⟩ := callState_lenient hcall h
    cases how with
    | returns residue =>
      rw [runStates_returns hcall]
      exact ⟨hstrict, by simp [Written.RejectsForm]⟩
    | raises e =>
      rw [runStates_raises hcall]
      exact ⟨hstrict, by simpa [Written.RejectsForm] using hform⟩
    | calls =>
      have hshorter := callState_calls hcall
      rw [runStates_calls hcall]
      exact ih _ (by omega) hstrict rfl

theorem write_relaxed {d : Decoder} {bytes : Bytes} (h : ¬ (d.write bytes).RejectsForm) :
    d.relaxed.write bytes = (d.write bytes).relaxed := by
  unfold write at h ⊢
  by_cases hempty : bytes.isEmpty = true
  · rw [if_pos hempty] at h
    rw [if_pos hempty, if_pos hempty]
    exact runStates_relaxed h
  · rw [if_neg hempty] at h
    rw [if_neg hempty, if_neg hempty]
    exact runStates_relaxed h

theorem write_lenient {d : Decoder} (h : d.strict = false) (bytes : Bytes) :
    (d.write bytes).decoder.strict = false ∧ ¬ (d.write bytes).RejectsForm := by
  unfold write
  split
  · exact runStates_lenient h
  · exact runStates_lenient h

theorem writes_lenient {d : Decoder} (h : d.strict = false) {pieces : List Bytes} {w : Written}
    (hw : w ∈ (writes d pieces).2) : ¬ w.RejectsForm := by
  induction pieces generalizing d with
  | nil => cases hw
  | cons piece pieces ih =>
    obtain ⟨hstrict, hform⟩ := write_lenient h piece
    rcases List.mem_cons.mp hw with rfl | hw
    · exact hform
    · exact ih hstrict hw

/-- **Strict is lenient with a check of the form.** A decoder and the same with `strict=False`
do the same with all pieces they are given, what is put out, returned and raised and the state
behind each, exactly if the strict one never rejects a header for its form. -/
theorem writes_relaxed_iff (d : Decoder) (pieces : List Bytes) :
    writes d.relaxed pieces
        = ((writes d pieces).1.relaxed, (writes d pieces).2.map Written.relaxed)
      ↔ ∀ w ∈ (writes d pieces).2, ¬ w.RejectsForm := by
  constructor
  · intro heq w hw
    have hmem : w.relaxed ∈ (writes d.relaxed pieces).2 := by
      rw [heq]
      exact List.mem_map_of_mem hw
    have hlenient : d.relaxed.strict = false := rfl
    exact fun hform => writes_lenient hlenient hmem hform
  · intro h
    induction pieces generalizing d with
    | nil => rfl
    | cons piece pieces ih =>
      obtain ⟨hfirst, hrest⟩ := List.forall_mem_cons.mp h
      rw [writes, write_relaxed hfirst]
      have hwrites := ih (d.write piece).decoder hrest
      have hdecoder : (d.write piece).relaxed.decoder = (d.write piece).decoder.relaxed := rfl
      rw [hdecoder, hwrites]
      rfl

end Decoder

end Pysubunit.V1
