/-
Pysubunit.Results.ListTests — the tests that a runner lists, as they are shown.

`SubunitTestRunner._list` (`run.py`) writes one event for each test that testtools finds, and
a `TestIdPrintingResult` that shows what exists prints them when `ByteStreamToStreamResult.run`
reads them back. `subunit-ls` (`commands/subunit_ls.py`) is meant to put these two together, but
looks for the reader in the package, which does not bind it, and ends in an `AttributeError` before
it has read anything; so the parts are put together here.
-/
import Pysubunit.Results.ListTheorems
import Pysubunit.V2.WriteAll

namespace Pysubunit.Results

open ByteLib
open V2 (StatusEvent Encodable Fits NulFree DecodesTo Polls TagOrders PartialWrites OutputStream
  delivered toBytes)

/-- `result.status(test_id=test_id, test_status='exists')` -/
def existsEvent (testId : String) : StatusEvent :=
  { testId := some testId, testStatus := some .exists }

/-- The loop of `_list`. -/
def listTests (orders : TagOrders) (w : PartialWrites) (testIds : List String) :
    (Nat × OutputStream) × Option V2.Error :=
  forEach (toBytes orders w) (0, {}) (testIds.map existsEvent)

/-- What a `TestIdPrintingResult` prints, and what it or the reader raises, when
`ByteStreamToStreamResult.run` is given it between `startTestRun` and `stopTestRun`. -/
def printedFrom (times showExists : Bool) (polls : Polls) (input : Bytes) :
    List Line × Option (V1.Error ⊕ V2.Error) :=
  let result : TestIdPrintingResult := { showTimes := times, showExists }
  let source := V2.run polls (some "stdout") input
  match result.startTestRun.statuses (source.events (some "stdout")) with
  | (lines, .error e) => (lines, some (.inl e))
  | (lines, .ok result) =>
    match source.result with
    | .error e => (lines, some (.inr e))
    | .ok _ =>
      match result.stopTestRun with
      | (more, .error e) => (lines ++ more, some (.inl e))
      | (more, .ok _) => (lines ++ more, none)

namespace TestIdPrintingResult

/-- Tests that exist are shown as they come. -/
theorem statuses_exists {r : TestIdPrintingResult} (hshow : r.showExists = true)
    (htimes : r.showTimes = false) (testIds : List String) :
    r.statuses (testIds.map existsEvent)
      = ((testIds.filter (· ≠ "")).map fun id => ⟨id, none⟩, .ok r) := by
  induction testIds with
  | nil => rfl
  | cons id testIds ih =>
    rw [List.map_cons, statuses]
    by_cases hid : id = ""
    · subst hid
      have hstatus : r.status (existsEvent "") = ([], .ok r) := by simp [status, existsEvent]
      simp [hstatus, ih]
    · have hstatus : r.status (existsEvent id) = ([⟨id, none⟩], .ok r) := by
        simp [status, existsEvent, hid, hshow, reportTest, htimes]
      simp [hstatus, ih, hid]

end TestIdPrintingResult

theorem encodable_existsEvent {id : String} (h : NulFree id) : Encodable (existsEvent id) := by
  constructor <;> simp [existsEvent, h]

/-- **What a runner lists is what is shown**: every test, once for each time that it is listed, in
order, and nothing else, however the bytes go from one to the other. -/
theorem printedFrom_listTests (orders : TagOrders) (w : PartialWrites) (polls : Polls)
    (testIds : List String) (h : ∀ id ∈ testIds, NulFree id ∧ Fits (existsEvent id)) :
    let listed := listTests orders w testIds
    listed.2 = none
    ∧ printedFrom false true polls listed.1.2.written
      = ((testIds.filter (· ≠ "")).map fun id => ⟨id, none⟩, none) := by
  have hevents : ∀ e ∈ testIds.map existsEvent, Encodable e ∧ Fits e := by
    intro e he
    obtain ⟨id, hid, rfl⟩ := List.mem_map.mp he
    exact ⟨encodable_existsEvent (h id hid).1, (h id hid).2⟩
  obtain ⟨out, hlisted, hdecodes⟩ := V2.writeAll_decodes orders w polls (some "stdout") hevents
  have hsame : (testIds.map existsEvent).map delivered = testIds.map existsEvent := by
    rw [List.map_map]
    rfl
  rw [hsame] at hdecodes
  intro listed
  have hout : listed = (((testIds.map existsEvent).length, out), none) := hlisted
  rw [hout]
  refine ⟨rfl, ?_⟩
  have hstatuses := TestIdPrintingResult.statuses_exists
    (r := TestIdPrintingResult.startTestRun { showTimes := false, showExists := true }) rfl rfl
    testIds
  unfold printedFrom
  dsimp only
  rw [hdecodes.2, hdecodes.1, hstatuses]
  simp [TestIdPrintingResult.stopTestRun, TestIdPrintingResult.startTestRun, Dict.keyList,
    TestIdPrintingResult.endTests]

theorem printedFrom_listTests_two :
    let listed := listTests V2.sortedOrders V2.byteByByte ["a", "b", "a"]
    listed.2 = none
    ∧ printedFrom false true V2.inMemory listed.1.2.written
      = ((["a", "b", "a"].filter (· ≠ "")).map fun id => ⟨id, none⟩, none) :=
  printedFrom_listTests V2.sortedOrders V2.byteByByte V2.inMemory ["a", "b", "a"] (by
    have hfits : Fits (existsEvent "a") ∧ Fits (existsEvent "b") := by
      unfold Fits
      decide
    simp [hfits, NulFree])

end Pysubunit.Results
