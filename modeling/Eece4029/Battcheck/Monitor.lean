import Eece4029.Battcheck.Battery
import Eece4029.Lib.Run
import Mathlib.Logic.Function.Basic

/-!
# Reports of charging and discharging

`check_thread` goes around the list of batteries, one sample of each in a round, and compares the
state in a sample with the one in the battery's last sample. "If battery is currently discharging
but it wasn't last time" is what its comment says, and it tests the bit in the new state and whether
the states differ. So it reports again when another bit changes while the battery goes on
discharging. `edge_reports_iff` says at which samples the reports of both kinds are the rising edges
of their bits.
-/

namespace Eece4029

open Transition

/-! ## Fields that a method leaves alone -/

variable {b : AcpiBattery} {eval : Evaluation} {offsets : List AcpiOffset}
  {elements : List AcpiElement}

/-- The offsets of a table do not touch what `f` reads. -/
def KeepsField {β : Type} (f : AcpiBattery → β) (offsets : List AcpiOffset) : Prop :=
  ∀ set, .int set ∈ offsets → ∀ b x, f (set b x) = f b

variable {β : Type} {f : AcpiBattery → β}

theorem extractElements_keeps (hf : KeepsField f offsets) :
    f (extractElements b offsets elements).2 = f b := by
  induction offsets generalizing b elements with
  | nil => rfl
  | cons offset offsets ih =>
    have hrest : KeepsField f offsets := fun set hset => hf set (List.mem_cons_of_mem _ hset)
    cases elements with
    | nil => rfl
    | cons e elements =>
      cases offset with
      | int set => exact (ih hrest).trans (hf set List.mem_cons_self b e.toInt)
      | string => exact ih hrest

/-- A control method leaves the fields alone that its table does not have. -/
theorem getBatteryControlMethod_keeps (hf : KeepsField f offsets) :
    f (getBatteryControlMethod b eval offsets).2 = f b := by
  cases eval with
  | noHandle | failure => rfl
  | object o =>
    cases o with
    | package elements => exact extractElements_keeps hf
    | other => rfl

/-- `_BST` does not write `last_state`. -/
theorem lastState_sampled : (b.sampled eval).lastState = b.lastState := by
  have hkeeps : KeepsField AcpiBattery.lastState bstOffsets := by
    simp [KeepsField, bstOffsets]
  exact getBatteryControlMethod_keeps hkeeps

/-! ## One check -/

/-- The division of the percent computation traps in this sample. -/
def AcpiBattery.Traps (b : AcpiBattery) : Prop :=
  percentOf b.remainingCapacity b.fullChargeCapacity = none

instance (b : AcpiBattery) : Decidable b.Traps := inferInstanceAs (Decidable (_ = none))

theorem begunToDischarge_mem : .begunToDischarge ∈ b.reports ↔
    b.state &&& STATE_DISCHARGING ≠ 0 ∧ b.state ≠ b.lastState := by
  simp [AcpiBattery.reports]

theorem begunToCharge_mem : .begunToCharge ∈ b.reports ↔
    b.state &&& STATE_CHARGING ≠ 0 ∧ b.state ≠ b.lastState := by
  simp [AcpiBattery.reports]

/-- A check that traps leaves the new sample and reports nothing. -/
theorem checkBattery_traps (h : (b.sampled eval).Traps) :
    checkBattery eval b = ⟨b.sampled eval, [], false, true⟩ := by
  unfold AcpiBattery.Traps at h
  simp only [checkBattery, h]

/-- Any other check reports by the new sample, and remembers its state and its capacity. -/
theorem checkBattery_eq {percent : CInt} (h : percentOf (b.sampled eval).remainingCapacity
    (b.sampled eval).fullChargeCapacity = some percent) :
    checkBattery eval b = ⟨{ b.sampled eval with
      percent := percent, lastState := (b.sampled eval).state
      lastRemainingCapacity := (b.sampled eval).remainingCapacity }, (b.sampled eval).reports,
      (b.sampled eval).remainingCapacity.sle (b.sampled eval).designCapacityLow, false⟩ := by
  simp only [checkBattery, h]
  rfl

/-- What is left of the new sample for the next check. -/
theorem checkBattery_runs (h : ¬ (b.sampled eval).Traps) :
    (checkBattery eval b).trapped = false ∧
    (checkBattery eval b).reports = (b.sampled eval).reports ∧
    (checkBattery eval b).battery.state = (b.sampled eval).state ∧
    (checkBattery eval b).battery.lastState = (b.sampled eval).state := by
  obtain ⟨percent, hp⟩ := Option.ne_none_iff_exists'.1 h
  rw [checkBattery_eq hp]
  exact ⟨rfl, rfl, rfl, rfl⟩

/-- The state after a check is the one in the sample. -/
theorem state_checkBattery : (checkBattery eval b).battery.state = (b.sampled eval).state := by
  by_cases h : (b.sampled eval).Traps
  · rw [checkBattery_traps h]
  · exact (checkBattery_runs h).2.2.1

/-! ## The thread -/

/-- The list of batteries and the local variables of `check_thread`: the place in the list, `delay`,
and whether the thread has trapped. As an observation, the states sampled of each battery. -/
structure Monitor where
  batteries : List AcpiBattery
  pos : Nat
  delay : Nat
  trapped : Bool
  samples : Nat → List CInt

/-- A check of the battery that the loop is at, with the answer of `_BST` and the reports, or the
end of a round. -/
inductive MonitorCall
  | sample (eval : Evaluation) (reports : List Report)
  | sleep (delay : Nat)

namespace Monitor

/-- `check_thread` before its loop, on the batteries that were found: their names and what `_BIF`
answered. -/
def init (found : List (String × Evaluation)) : Monitor :=
  ⟨found.map fun x => .found x.1 x.2, 0, 1, false, fun _ => []⟩

/-- The state in the last sample of the battery, `0` before the first one. -/
def lastSample (m : Monitor) (i : Nat) : CInt := (m.samples i).getLast?.getD 0

/-- The body of the loop over the batteries, for the battery `b`. -/
def check (m : Monitor) (eval : Evaluation) (b : AcpiBattery) : Monitor :=
  let c := checkBattery eval b
  { batteries := m.batteries.set m.pos c.battery
    pos := m.pos + 1
    delay := if c.delay then 2 else m.delay
    trapped := c.trapped
    samples := Function.update m.samples m.pos (m.samples m.pos ++ [c.battery.state]) }

end Monitor

/-- The step of the thread: the next battery is checked, or the round is over. A thread that has
trapped makes no more steps. -/
inductive MonitorStep (m : Monitor) : MonitorCall → Monitor → Prop
  | sample {eval : Evaluation} {b : AcpiBattery} (hrun : m.trapped = false)
      (hb : m.batteries[m.pos]? = some b) :
      MonitorStep m (.sample eval (checkBattery eval b).reports) (m.check eval b)
  | sleep (hrun : m.trapped = false) (hend : m.batteries.length ≤ m.pos) :
      MonitorStep m (.sleep m.delay) { m with pos := 0, delay := 1 }

/-- `tr` is a run of `check_thread` on the batteries that were found. -/
abbrev MonitorRun (found : List (String × Evaluation)) (tr : List (Step Monitor MonitorCall))
    (m : Monitor) : Prop :=
  Run MonitorStep (Monitor.init found) tr m

variable {m m' : Monitor} {call : MonitorCall} {found : List (String × Evaluation)}
  {tr : List (Step Monitor MonitorCall)} {i : Nat}

namespace Monitor

/-- A check adds a sample of its battery. -/
theorem lastSample_check_self (m : Monitor) :
    (m.check eval b).lastSample m.pos = (checkBattery eval b).battery.state := by
  simp [lastSample, check]

theorem lastSample_check_ne (m : Monitor) (hi : i ≠ m.pos) :
    (m.check eval b).lastSample i = m.lastSample i := by
  simp [lastSample, check, hi]

/-- A check that lets the thread run has not trapped. -/
theorem not_traps {m : Monitor} (h : (m.check eval b).trapped = false) :
    ¬ (b.sampled eval).Traps := by
  intro htraps
  simp only [check, checkBattery_traps htraps, Bool.true_eq_false] at h

/-- After a check the list has the battery that was checked, and the others as they were. -/
theorem batteries_check {m : Monitor} {c : AcpiBattery} (hb : m.batteries[m.pos]? = some b)
    (hc : (m.check eval b).batteries[i]? = some c) :
    (i = m.pos ∧ c = (checkBattery eval b).battery) ∨ (i ≠ m.pos ∧ m.batteries[i]? = some c) := by
  have hlen : m.pos < m.batteries.length := (List.getElem?_eq_some_iff.1 hb).1
  by_cases hi : m.pos = i
  · subst hi
    simp only [check, List.getElem?_set_self hlen, Option.some.injEq] at hc
    exact .inl ⟨rfl, hc.symm⟩
  · simp only [check, List.getElem?_set_ne hi] at hc
    exact .inr ⟨Ne.symm hi, hc⟩

/-- While the thread runs, `last_state` is the state in the battery's last sample. -/
def Remembers (m : Monitor) : Prop :=
  m.trapped = false → ∀ i b, m.batteries[i]? = some b → b.lastState = m.lastSample i

/-- `_BIF` does not write `last_state`. -/
theorem lastState_found {name : String} : (AcpiBattery.found name eval).lastState = 0 := by
  have hkeeps : KeepsField AcpiBattery.lastState bifOffsets := by
    simp [KeepsField, bifOffsets]
  exact getBatteryControlMethod_keeps hkeeps

/-- A battery that was found has no sample. -/
theorem remembers_init : (init found).Remembers := by
  intro _ i b hb
  obtain ⟨x, -, rfl⟩ := List.mem_map.1 (List.mem_of_getElem? hb)
  exact lastState_found

end Monitor

/-- A check remembers the sample, unless it traps. -/
theorem MonitorStep.remembers (h : MonitorStep m call m') (hm : m.Remembers) : m'.Remembers := by
  cases h with
  | @sample eval b hrun hb =>
    intro hrun' i c hc
    rcases Monitor.batteries_check hb hc with ⟨rfl, rfl⟩ | ⟨hi, hc⟩
    · rw [(checkBattery_runs (Monitor.not_traps hrun')).2.2.2, m.lastSample_check_self,
        state_checkBattery]
    · rw [hm hrun i c hc, m.lastSample_check_ne hi]
  | sleep hrun _ => exact hm

/-- While the thread runs, every reachable state remembers. -/
theorem MonitorRun.remembers (h : MonitorRun found tr m) : m.Remembers :=
  h.inv Monitor.remembers_init fun _ _ _ hm hs => hs.remembers hm

/-! ## Rising edges -/

/-- The bit is set now and was not set before. -/
def Rises (bit before now : CInt) : Prop := now &&& bit ≠ 0 ∧ ¬ before &&& bit ≠ 0

/-- The bit was set before and is set now, and another bit has changed. -/
def Flickers (bit before now : CInt) : Prop :=
  now &&& bit ≠ 0 ∧ before &&& bit ≠ 0 ∧ now ≠ before

instance (bit before now : CInt) : Decidable (Rises bit before now) :=
  inferInstanceAs (Decidable (_ ∧ _))

instance (bit before now : CInt) : Decidable (Flickers bit before now) :=
  inferInstanceAs (Decidable (_ ∧ _ ∧ _))

/-- A test for a set bit and for a changed word is one for a rising edge unless the bit flickers. -/
theorem changed_iff_rises {bit before now : CInt} :
    ((now &&& bit ≠ 0 ∧ now ≠ before) ↔ Rises bit before now) ↔ ¬ Flickers bit before now := by
  have hne : now &&& bit ≠ 0 → ¬ before &&& bit ≠ 0 → now ≠ before := by
    rintro hnow hbefore rfl
    exact hbefore hnow
  unfold Rises Flickers
  tauto

/-- The reports at a step about charging and discharging are the rising edges of the two bits, from
the last sample of the battery before the step to its new one. -/
def ReportsEdges (m : Monitor) (call : MonitorCall) (m' : Monitor) : Prop :=
  match call with
  | .sample _ reports =>
    (.begunToDischarge ∈ reports ↔
      Rises STATE_DISCHARGING (m.lastSample m.pos) (m'.lastSample m.pos)) ∧
    (.begunToCharge ∈ reports ↔
      Rises STATE_CHARGING (m.lastSample m.pos) (m'.lastSample m.pos))
  | .sleep _ => True

/-- No report of the sample is wrong: where the check traps, none of the two bits rises, and where
it does not, none of them flickers. -/
def CleanSample (b : AcpiBattery) (before : CInt) : Prop :=
  if b.Traps then
    ¬ Rises STATE_DISCHARGING before b.state ∧ ¬ Rises STATE_CHARGING before b.state
  else
    ¬ Flickers STATE_DISCHARGING before b.state ∧ ¬ Flickers STATE_CHARGING before b.state

/-- The step is no check of a battery, or one of a clean sample. -/
def CleanStep (m : Monitor) (call : MonitorCall) : Prop :=
  match call with
  | .sample eval _ => ∀ b, m.batteries[m.pos]? = some b →
      CleanSample (b.sampled eval) (m.lastSample m.pos)
  | .sleep _ => True

/-- A step reports the edges exactly when it is clean. -/
theorem MonitorStep.reportsEdges_iff (h : MonitorStep m call m') (hm : m.Remembers) :
    ReportsEdges m call m' ↔ CleanStep m call := by
  cases h with
  | sleep => exact Iff.rfl
  | @sample eval b hrun hb =>
    have hlast : (b.sampled eval).lastState = m.lastSample m.pos :=
      lastState_sampled.trans (hm hrun m.pos b hb)
    have hclean : CleanStep m (.sample eval (checkBattery eval b).reports) ↔
        CleanSample (b.sampled eval) (m.lastSample m.pos) := by
      simp only [CleanStep, hb, Option.some.injEq, forall_eq']
    rw [hclean]
    unfold ReportsEdges CleanSample
    simp only [m.lastSample_check_self, state_checkBattery]
    split
    · next htraps =>
      rw [checkBattery_traps htraps]
      simp
    · next htraps =>
      simp only [(checkBattery_runs htraps).2.1, begunToDischarge_mem, begunToCharge_mem, hlast,
        changed_iff_rises]

/-- **When the reports of charging and discharging are the rising edges of the two bits.** At every
step of every run they are exactly when the sample is clean: where the percent computation does not
trap, neither bit stays set while another bit of the state changes, and where it does, neither bit
rises. -/
theorem edge_reports_iff (h : MonitorRun found tr m) :
    ∀ x ∈ tr, (ReportsEdges x.pre x.label x.post ↔ CleanStep x.pre x.label) := by
  intro x hx
  obtain ⟨⟨tr', hr⟩, hs⟩ := h.mem x hx
  exact hs.reportsEdges_iff (MonitorRun.remembers hr)

/-! ## The critical bit -/

/-- A battery with `100` in all of its static fields. -/
def bat0 : String × Evaluation :=
  ("BAT0", .object (.package (List.replicate 13 (.integer 100))))

/-- The answer of `_BST` in the given state, at half of the capacity. -/
def bstOf (state : BitVec 64) : Evaluation :=
  .object (.package [.integer state, .integer 0, .integer 50, .integer 0])

/-- The battery after checks in the given states. -/
def bat0After (states : List (BitVec 64)) : AcpiBattery :=
  states.foldl (fun b state => (checkBattery (bstOf state) b).battery) (.found bat0.1 bat0.2)

namespace Monitor

/-- The thread after a check in which the battery discharges. -/
def discharging : Monitor := (init [bat0]).check (bstOf 1) (bat0After [])

/-- The thread at the start of the next round. -/
def nextRound : Monitor := { discharging with pos := 0, delay := 1 }

/-- The thread after a check in which the charge is critical as well. -/
def critical : Monitor := nextRound.check (bstOf 5) (bat0After [1])

end Monitor

theorem discharging_run : MonitorRun [bat0]
    [⟨.init [bat0], .sample (bstOf 1) (checkBattery (bstOf 1) (bat0After [])).reports,
      .discharging⟩] .discharging :=
  Run.nil.snoc (.sample rfl rfl)

/-- A battery that goes on discharging is reported again when the critical bit comes on. -/
theorem discharging_reported_twice : ¬ ∀ (found : List (String × Evaluation))
    (tr : List (Step Monitor MonitorCall)) (m : Monitor), MonitorRun found tr m →
      ∀ x ∈ tr, ReportsEdges x.pre x.label x.post := by
  intro h
  have hstep : MonitorStep .nextRound
      (.sample (bstOf 5) (checkBattery (bstOf 5) (bat0After [1])).reports) .critical :=
    .sample (by decide) (by decide)
  have hrun := (discharging_run.snoc (.sleep (by decide) (by decide))).snoc hstep
  have hedges := h _ _ _ hrun _ List.mem_concat_self
  have hrises : Rises STATE_DISCHARGING 1 5 := hedges.1.1 (by decide)
  exact hrises.2 (by decide)

theorem edge_reports_iff_discharging : .begunToDischarge ∈ (checkBattery (bstOf 1)
    (bat0After [])).reports ↔ Rises STATE_DISCHARGING 0 1 := by
  refine ((edge_reports_iff discharging_run _ (List.mem_singleton_self _)).2 ?_).1
  intro b hb
  cases Option.some.inj hb
  unfold CleanSample
  decide

end Eece4029
