import Eece4029.Battcheck.Monitor
import Eece4029.Lib.Periods

/-!
# The low-battery warning

"If current capacity is less than 'warning' but it was higher before then the battery has 'become
low'": `check_thread` compares each sample with the one before it, so a low period is reported where
it starts. The capacity before the first sample is the zero of the allocation, which is no higher
than the limit, and so a battery that is low already when the module is loaded has not become low.
`low_warned_once` says that every other low period is reported once, at its first sample.
-/

namespace Eece4029

open Transition Periods

/-! ## Samples and reports -/

/-- The battery is low at the capacity `c`. -/
def AtMost (warning c : CInt) : Prop := c.sle warning = true

instance (warning c : CInt) : Decidable (AtMost warning c) := inferInstanceAs (Decidable (_ = true))

/-- The remaining capacity that a check of the battery number `i` finds, and whether it reports that
the battery is low. -/
def capacitySample (i : Nat) (x : Step Monitor MonitorCall) : Option (CInt × Bool) :=
  match x.label with
  | .sample _ reports =>
    if x.pre.pos = i then
      x.post.batteries[i]?.map fun b => (b.remainingCapacity, decide (.low ∈ reports))
    else
      none
  | .sleep _ => none

/-- The samples of the battery number `i` in a run. -/
def capacitySamples (i : Nat) (tr : List (Step Monitor MonitorCall)) : List (CInt × Bool) :=
  tr.filterMap (capacitySample i)

/-- The reports among the samples are the starts of the low periods that do not start with the first
sample, and as many as these. -/
structure WarnedOnce (warning : CInt) (samples : List (CInt × Bool)) : Prop where
  first : ∀ s, (∃ c, samples[s]? = some (c, true)) ↔
    s ≠ 0 ∧ ∃ e, IsPeriod (AtMost warning) (samples.map (·.1)) s e
  number : (samples.map (·.2)).count true =
    {p : Nat × Nat | p.1 ≠ 0 ∧ IsPeriod (AtMost warning) (samples.map (·.1)) p.1 p.2}.ncard

variable {b : AcpiBattery} {eval : Evaluation} {found : List (String × Evaluation)}
  {tr : List (Step Monitor MonitorCall)} {m m' : Monitor} {call : MonitorCall} {i : Nat}
  {warning : CInt} {samples : List (CInt × Bool)}

/-- It is enough to know where the reports are. -/
theorem WarnedOnce.of_starts (h : ∀ s, (∃ c, samples[s]? = some (c, true)) ↔
    s ≠ 0 ∧ Starts (AtMost warning) (samples.map (·.1)) s) : WarnedOnce warning samples := by
  refine ⟨fun s => (h s).trans (and_congr_right fun _ => starts_iff),
    count_eq_ncard (Q := (· ≠ 0)) fun s => ?_⟩
  rw [← h s, List.getElem?_map]
  simp

/-! ## One check -/

theorem low_mem : .low ∈ b.reports ↔ AtMost b.designCapacityWarning b.remainingCapacity ∧
    ¬ AtMost b.designCapacityWarning b.lastRemainingCapacity := by
  simp [AcpiBattery.reports, AtMost, BitVec.sle_eq_not_slt]

/-- `_BST` does not write `last_remaining_capacity` and `design_capacity_warning`. -/
theorem limits_sampled (b : AcpiBattery) (eval : Evaluation) :
    (b.sampled eval).lastRemainingCapacity = b.lastRemainingCapacity ∧
    (b.sampled eval).designCapacityWarning = b.designCapacityWarning := by
  have hkeeps : KeepsField (fun b => (b.lastRemainingCapacity, b.designCapacityWarning))
      bstOffsets := by
    simp [KeepsField, bstOffsets]
  exact Prod.ext_iff.1 (getBatteryControlMethod_keeps hkeeps)

/-- `_BIF` does not write `last_remaining_capacity`. -/
theorem lastRemainingCapacity_found {name : String} :
    (AcpiBattery.found name eval).lastRemainingCapacity = 0 := by
  have hkeeps : KeepsField AcpiBattery.lastRemainingCapacity bifOffsets := by
    simp [KeepsField, bifOffsets]
  exact getBatteryControlMethod_keeps hkeeps

/-- A check that does not trap reports by the capacity in the sample and the one before it, and
remembers the new one. -/
theorem low_mem_checkBattery (h : ¬ (b.sampled eval).Traps) :
    (.low ∈ (checkBattery eval b).reports ↔
      AtMost b.designCapacityWarning (checkBattery eval b).battery.remainingCapacity ∧
        ¬ AtMost b.designCapacityWarning b.lastRemainingCapacity) ∧
    (checkBattery eval b).battery.lastRemainingCapacity =
      (checkBattery eval b).battery.remainingCapacity ∧
    (checkBattery eval b).battery.designCapacityWarning = b.designCapacityWarning := by
  obtain ⟨percent, hp⟩ := Option.ne_none_iff_exists'.1 h
  obtain ⟨hlast, hwarning⟩ := limits_sampled b eval
  rw [checkBattery_eq hp, low_mem, hlast]
  dsimp only
  rw [hwarning]
  exact ⟨Iff.rfl, rfl, rfl⟩

/-! ## The thread -/

/-- What holds between two steps of a thread that runs: the reports are at the starts of the low
periods but the first sample, and the battery remembers its last sample. -/
structure LowInv (warning : CInt) (samples : List (CInt × Bool)) (b : AcpiBattery) : Prop where
  first : ∀ s, (∃ c, samples[s]? = some (c, true)) ↔
    s ≠ 0 ∧ Starts (AtMost warning) (samples.map (·.1)) s
  last : b.lastRemainingCapacity = (samples.map (·.1)).getLast?.getD 0
  limit : b.designCapacityWarning = warning

/-- A report among one sample more is one that was there or the new one. -/
theorem reported_snoc {c : CInt} {low : Bool} {s : Nat} :
    (∃ c', (samples ++ [(c, low)])[s]? = some (c', true)) ↔
      s < samples.length ∧ (∃ c', samples[s]? = some (c', true)) ∨
        s = samples.length ∧ low = true := by
  rcases Nat.lt_trichotomy s samples.length with hlt | rfl | hlt
  · rw [List.getElem?_append_left hlt, and_iff_right hlt, or_iff_left fun h => hlt.ne h.1]
  · simp
  · rw [List.getElem?_eq_none (by simpa using hlt)]
    refine iff_of_false (fun h => nomatch h.choose_spec) ?_
    rintro (⟨h, -⟩ | ⟨h, -⟩) <;> omega

namespace LowInv

/-- A battery without a sample. -/
theorem init {name : String} :
    LowInv (AcpiBattery.found name eval).designCapacityWarning [] (.found name eval) := by
  refine ⟨fun s => iff_of_false ?_ ?_, lastRemainingCapacity_found, rfl⟩
  · rintro ⟨c, hc⟩
    cases hc
  · rintro ⟨-, ⟨c, hc, -⟩, -⟩
    cases hc

/-- The zero that is remembered before the first sample is not above the limit. -/
theorem starts_last (hw : 0 ≤ warning.toInt) {cs : List CInt} :
    ¬ AtMost warning (cs.getLast?.getD 0) ↔
      cs.length ≠ 0 ∧ ∀ c, cs.getLast? = some c → ¬ AtMost warning c := by
  cases hlast : cs.getLast? with
  | none =>
    have hzero : AtMost warning 0 := by
      simpa [AtMost, BitVec.sle_eq_decide] using hw
    rw [List.getLast?_eq_none_iff] at hlast
    subst hlast
    simpa using hzero
  | some c =>
    have hlen : cs.length ≠ 0 := by
      rintro hnil
      rw [List.length_eq_zero_iff.1 hnil] at hlast
      cases hlast
    simp [hlen]

/-- One more sample: it is a report exactly when a low period starts with it that is not the first
sample. -/
theorem check (h : LowInv warning samples b) (hw : 0 ≤ warning.toInt)
    (hruns : ¬ (b.sampled eval).Traps) :
    LowInv warning (samples ++ [((checkBattery eval b).battery.remainingCapacity,
      decide (.low ∈ (checkBattery eval b).reports))]) (checkBattery eval b).battery := by
  obtain ⟨hlow, hlast, hlimit⟩ := low_mem_checkBattery hruns
  rw [h.limit, h.last, starts_last hw, List.length_map] at hlow
  refine ⟨?_, ?_, hlimit.trans h.limit⟩
  · intro s
    rw [reported_snoc, h.first s, List.map_append, List.map_singleton, starts_snoc,
      List.length_map, and_or_left]
    refine or_congr and_left_comm ?_
    dsimp only
    rw [decide_eq_true_eq, hlow]
    refine ⟨?_, ?_⟩
    · rintro ⟨rfl, hle, hne, hbefore⟩
      exact ⟨hne, rfl, hle, hbefore⟩
    · rintro ⟨hne, rfl, hle, hbefore⟩
      exact ⟨rfl, hle, hne, hbefore⟩
  · rw [hlast, List.map_append, List.map_singleton, List.getLast?_concat]
    rfl

end LowInv

/-- A step of a thread that does not trap keeps it, for every battery. -/
theorem MonitorStep.lowInv (h : MonitorStep m call m') (hruns : m'.trapped = false)
    (hw : 0 ≤ warning.toInt)
    (hinv : ∀ b, m.batteries[i]? = some b → LowInv warning samples b) :
    ∀ b, m'.batteries[i]? = some b →
      LowInv warning (samples ++ (capacitySample i ⟨m, call, m'⟩).toList) b := by
  cases h with
  | sleep =>
    intro b hb
    simpa [capacitySample] using hinv b hb
  | @sample eval b hrun hb =>
    intro c hc
    rcases Monitor.batteries_check hb hc with ⟨rfl, rfl⟩ | ⟨hi, hkept⟩
    · simpa [capacitySample, hc] using (hinv b hb).check hw (Monitor.not_traps hruns)
    · simpa [capacitySample, Ne.symm hi] using hinv c hkept

/-- After every run without a trap the reports are where they should be. -/
theorem MonitorRun.lowInv {name : String} (h : MonitorRun found tr m) (hruns : m.trapped = false)
    (hi : found[i]? = some (name, eval))
    (hw : 0 ≤ (AcpiBattery.found name eval).designCapacityWarning.toInt) :
    ∀ b, m.batteries[i]? = some b →
      LowInv (AcpiBattery.found name eval).designCapacityWarning (capacitySamples i tr) b := by
  induction h with
  | nil =>
    intro b hb
    rw [Monitor.init, List.getElem?_map, hi] at hb
    cases hb
    exact .init
  | @snoc tr m m' call _ hs ih =>
    have hruns' : m.trapped = false := by
      cases hs <;> assumption
    have hinv := hs.lowInv hruns hw (ih hruns')
    rwa [capacitySamples, List.filterMap_append]

/-- The thread replaces the batteries in its list one by one. -/
theorem MonitorRun.length_batteries (h : MonitorRun found tr m) :
    m.batteries.length = found.length := by
  refine h.inv (I := fun m => m.batteries.length = found.length) (List.length_map _) ?_
  rintro m _ _ hlen (_ | _)
  · exact (List.length_set ..).trans hlen
  · exact hlen

/-- **Every low period is reported once, at its first sample**, but one that starts with the first
sample, of which there is no report: for every battery with a limit that is not negative, in every
run in which the percent computation has not trapped. -/
theorem low_warned_once {name : String} (h : MonitorRun found tr m) (hruns : m.trapped = false)
    (hi : found[i]? = some (name, eval))
    (hw : 0 ≤ (AcpiBattery.found name eval).designCapacityWarning.toInt) :
    WarnedOnce (AcpiBattery.found name eval).designCapacityWarning (capacitySamples i tr) := by
  have hlt : i < m.batteries.length := by
    rw [h.length_batteries]
    exact (List.getElem?_eq_some_iff.1 hi).1
  have hinv := h.lowInv hruns hi hw m.batteries[i] (List.getElem?_eq_getElem hlt)
  exact .of_starts hinv.first

/-- A battery of 100 with the limits 20 and 10. -/
def bat1 : String × Evaluation :=
  ("BAT1", .object (.package ([1, 100, 100, 1, 12, 20, 10, 1, 1, 0, 0, 0, 0].map .integer)))

/-- The answer of `_BST` at the given capacity. -/
def bstAt (capacity : BitVec 64) : Evaluation :=
  .object (.package [.integer 1, .integer 0, .integer capacity, .integer 0])

/-- The battery after checks at the given capacities. -/
def bat1After (capacities : List (BitVec 64)) : AcpiBattery :=
  capacities.foldl (fun b c => (checkBattery (bstAt c) b).battery) (.found bat1.1 bat1.2)

namespace Monitor

/-- The thread after a check at 60, at the start of the next round, and after a check at 15. -/
def aboveLimit : Monitor := (init [bat1]).check (bstAt 60) (bat1After [])

def aboveLimitRound : Monitor := { aboveLimit with pos := 0, delay := 1 }

def becomeLow : Monitor := aboveLimitRound.check (bstAt 15) (bat1After [60])

end Monitor

/-- The battery is above its limit, and then it is low. -/
def becomesLow : List (Step Monitor MonitorCall) :=
  [⟨.init [bat1], .sample (bstAt 60) (checkBattery (bstAt 60) (bat1After [])).reports, .aboveLimit⟩,
    ⟨.aboveLimit, .sleep 1, .aboveLimitRound⟩,
    ⟨.aboveLimitRound, .sample (bstAt 15) (checkBattery (bstAt 15) (bat1After [60])).reports,
      .becomeLow⟩]

theorem becomesLow_run : MonitorRun [bat1] becomesLow .becomeLow := by
  have hfirst : MonitorRun [bat1] _ .aboveLimit := Run.nil.snoc (.sample rfl rfl)
  have hsleep := hfirst.snoc (.sleep (by decide) (by decide))
  exact hsleep.snoc (.sample (by decide) (by decide))

theorem low_warned_once_becomesLow : capacitySamples 0 becomesLow = [(60, false), (15, true)] ∧
    WarnedOnce (AcpiBattery.found bat1.1 bat1.2).designCapacityWarning
      (capacitySamples 0 becomesLow) :=
  ⟨by decide, low_warned_once becomesLow_run (by decide) rfl (by decide)⟩

/-- The run of one check that finds the battery at half of its limit. -/
theorem samples_discharging : capacitySamples 0 [⟨.init [bat0], .sample (bstOf 1)
    (checkBattery (bstOf 1) (bat0After [])).reports, .discharging⟩] = [(50, false)] := by
  decide

/-- A battery that is low at its first sample is in a low period of which there is no report. -/
theorem low_at_load : ¬ ∀ (found : List (String × Evaluation))
    (tr : List (Step Monitor MonitorCall)) (m : Monitor) (i : Nat) (name : String)
    (eval : Evaluation), MonitorRun found tr m → m.trapped = false → found[i]? = some (name, eval) →
      0 ≤ (AcpiBattery.found name eval).designCapacityWarning.toInt →
      ((capacitySamples i tr).map (·.2)).count true =
        {p : Nat × Nat | IsPeriod (AtMost (AcpiBattery.found name eval).designCapacityWarning)
          ((capacitySamples i tr).map (·.1)) p.1 p.2}.ncard := by
  intro h
  have hnone := h _ _ _ 0 _ _ discharging_run (by decide) rfl (by decide)
  rw [samples_discharging] at hnone
  have hstarts : ∀ s, [true][s]? = some true ↔
      True ∧ Starts (AtMost (AcpiBattery.found bat0.1 bat0.2).designCapacityWarning) [50] s := by
    have hlow : AtMost (AcpiBattery.found bat0.1 bat0.2).designCapacityWarning 50 := by decide
    intro s
    rw [true_and, starts_singleton, and_iff_left hlow]
    cases s <;> simp
  have hone := count_eq_ncard hstarts
  simp only [true_and] at hone
  exact absurd (hnone.trans hone.symm) (by decide)

end Eece4029
