/-
Pysubunit.V2.WriteAll — `StreamResultToBytes` as the receiver of a run.

The programs hand their events to `StreamResultToBytes.status` one after the other and let
an exception out. `toBytes` is that call with the number it has, since the set of its tags
is iterated in an order of its own. A run of events that have packets writes these packets
and nothing else (`writeAll_written`), and what is written decodes to the events
(`writeAll_decodes`).
-/
import Pysubunit.ByteLib.Sink
import Pysubunit.V2.TagStream

namespace Pysubunit.V2

open ByteLib

/-- `StreamResultToBytes(output_stream).status`, with how often it was called. -/
def toBytes (orders : TagOrders) (w : PartialWrites) :
    Sink (Nat × OutputStream) StatusEvent Error :=
  fun s e =>
    match status w s.2 (orders.call s.1 e) with
    | (.error x, out) => ((s.1 + 1, out), some x)
    | (.ok (), out) => ((s.1 + 1, out), none)

section

variable (orders : TagOrders) (w : PartialWrites)

/-- An event that has a packet is written. -/
theorem toBytes_written (k : Nat) (out : OutputStream) {e : StatusEvent} (h : Writable e)
    (hfits : Fits e) :
    ∃ out', toBytes orders w (k, out) e = ((k + 1, out'), none)
      ∧ out'.written = out.written ++ packetBytes (orders.call k e) := by
  have hlen : packetLength (orders.call k e) ≤ maxPacketLength := by
    rw [packetLength_eq]
    exact hfits
  have hwritable : Writable (orders.call k e).event := h
  rcases status_written w out hwritable with ⟨-, hok, hwritten⟩ | ⟨hlong, -⟩
  · unfold toBytes
    dsimp only
    generalize status w out (orders.call k e) = r at hok hwritten
    obtain ⟨r, out'⟩ := r
    cases hok
    exact ⟨out', rfl, hwritten⟩
  · omega

/-- **A run of events** that have packets writes them. -/
theorem writeAll_written (k : Nat) (out : OutputStream) {events : List StatusEvent}
    (h : ∀ e ∈ events, Writable e ∧ Fits e) :
    ∃ out', forEach (toBytes orders w) (k, out) events = ((k + events.length, out'), none)
      ∧ out'.written = out.written ++ (orders.calls k events).flatMap packetBytes := by
  induction events generalizing k out with
  | nil => exact ⟨out, rfl, by simp [TagOrders.calls]⟩
  | cons e events ih =>
    obtain ⟨⟨hwritable, hfits⟩, hrest⟩ := List.forall_mem_cons.mp h
    obtain ⟨out₁, hstep, hwritten₁⟩ := toBytes_written orders w k out hwritable hfits
    obtain ⟨out', hrun, hwritten⟩ := ih (k + 1) out₁ hrest
    refine ⟨out', ?_, ?_⟩
    · rw [forEach_cons hstep, hrun, List.length_cons]
      simp [Nat.add_comm, Nat.add_left_comm]
    · rw [hwritten, hwritten₁, TagOrders.calls, List.flatMap_cons, List.append_assoc]

/-- **What a run of events writes decodes to them.** -/
theorem writeAll_decodes (polls : Polls) (name : Option String) {events : List StatusEvent}
    (h : ∀ e ∈ events, Encodable e ∧ Fits e) :
    ∃ out, forEach (toBytes orders w) (0, {}) events = ((events.length, out), none)
      ∧ DecodesTo polls name out.written (events.map delivered) := by
  obtain ⟨out, hrun, hwritten⟩ := writeAll_written orders w 0 {}
    fun e he => ⟨(h e he).1.writable, (h e he).2⟩
  refine ⟨out, by rw [hrun, Nat.zero_add], ?_⟩
  rw [hwritten, List.nil_append]
  exact decodesTo_calls polls name orders 0 h

end

/-! ## Events as they come back -/

theorem delivered_delivered (e : StatusEvent) : delivered (delivered e) = delivered e := by
  unfold delivered
  cases e.testTags with
  | none => rfl
  | some tags => by_cases hempty : tags = ∅ <;> simp [Option.filter_some, hempty]

/-- An empty set of tags takes no room. -/
theorem fits_delivered {e : StatusEvent} : Fits (delivered e) ↔ Fits e := by
  have htags : (delivered e).testTags.getD ∅ = e.testTags.getD ∅ := by
    unfold delivered
    cases e.testTags with
    | none => rfl
    | some tags => by_cases hempty : tags = ∅ <;> simp [Option.filter_some, hempty]
  have hsize : fieldsSize (delivered e) = fieldsSize e := by
    unfold fieldsSize
    rw [htags]
    rfl
  rw [Fits, hsize, Fits]

theorem Encodable.delivered {e : StatusEvent} (h : Encodable e) : Encodable (delivered e) where
  testId := h.testId
  testTags := by
    intro tags htags
    obtain ⟨htags, -⟩ := Option.filter_eq_some_iff.mp htags
    exact h.testTags tags htags
  mimeType := h.mimeType
  fileName := h.fileName
  file := h.file
  routeCode := h.routeCode
  timestamp := h.timestamp

end Pysubunit.V2
