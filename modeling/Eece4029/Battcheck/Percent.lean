import Eece4029.Battcheck.Monitor
import Mathlib.Algebra.Order.Round
import Mathlib.Data.Rat.Floor
import Mathlib.Tactic.FieldSimp
import Mathlib.Tactic.Linarith

/-!
# The percent remaining

`check_thread` computes the percent remaining in `int`, as
`(remaining_capacity * 200 + full_charge_capacity) / (full_charge_capacity * 2)`, which is
`100 * remaining_capacity / full_charge_capacity` rounded to the nearest integer. It looks at
nothing that the two control methods returned: where `_BIF` has failed the last full capacity is the
zero of the allocation, and it divides by it. `percent_right_iff` says exactly at which samples the
computation is safe, and there it is right.
-/

namespace Eece4029

open Transition

/-! ## The arithmetic -/

variable {remaining full : CInt} {r f : Int}

/-- No operation of the computation overflows, and it does not divide by zero. -/
structure PercentSafe (remaining full : CInt) : Prop where
  scaled : ¬ remaining.smulOverflow 200
  dividend : ¬ (remaining * 200).saddOverflow full
  divisor : ¬ full.smulOverflow 2
  nonzero : full * 2 ≠ 0
  quotient : ¬ (remaining * 200 + full = BitVec.intMin 32 ∧ full * 2 = -1)

/-- The capacities are small enough, and there is a full capacity. -/
structure PercentFits (r f : Int) : Prop where
  nonzero : f ≠ 0
  full : -2 ^ 30 ≤ f ∧ f < 2 ^ 30
  remaining : -10737418 ≤ r ∧ r ≤ 10737418
  sum : -2 ^ 31 ≤ r * 200 + f ∧ r * 200 + f < 2 ^ 31

instance (r f : Int) : Decidable (PercentFits r f) :=
  decidable_of_iff (f ≠ 0 ∧ (-2 ^ 30 ≤ f ∧ f < 2 ^ 30) ∧ (-10737418 ≤ r ∧ r ≤ 10737418) ∧
    (-2 ^ 31 ≤ r * 200 + f ∧ r * 200 + f < 2 ^ 31))
    ⟨fun h => ⟨h.1, h.2.1, h.2.2.1, h.2.2.2⟩, fun h => ⟨h.nonzero, h.full, h.remaining, h.sum⟩⟩

theorem smulOverflow_iff {x y : CInt} {k : Int} (hk : y.toInt = k) :
    ¬ x.smulOverflow y ↔ -2 ^ 31 ≤ x.toInt * k ∧ x.toInt * k < 2 ^ 31 := by
  simp only [BitVec.smulOverflow, hk, Bool.or_eq_true, decide_eq_true_eq]
  omega

theorem saddOverflow_iff {x y : CInt} :
    ¬ x.saddOverflow y ↔ -2 ^ 31 ≤ x.toInt + y.toInt ∧ x.toInt + y.toInt < 2 ^ 31 := by
  simp only [BitVec.saddOverflow, Bool.or_eq_true, decide_eq_true_eq]
  omega

/-- A product that does not overflow is the exact one. -/
theorem toInt_mul_of_fits {x y : CInt} {k : Int} (hk : y.toInt = k)
    (h : -2 ^ 31 ≤ x.toInt * k ∧ x.toInt * k < 2 ^ 31) : (x * y).toInt = x.toInt * k := by
  rw [BitVec.toInt_mul_of_not_smulOverflow ((smulOverflow_iff hk).2 h), hk]

/-- The operands of the division are the exact ones. -/
theorem PercentFits.operands (h : PercentFits remaining.toInt full.toInt) :
    (remaining * 200).toInt = remaining.toInt * 200 ∧
      (remaining * 200 + full).toInt = remaining.toInt * 200 + full.toInt ∧
      (full * 2).toInt = full.toInt * 2 := by
  have hremaining := h.remaining
  have hfull := h.full
  have hscaled := toInt_mul_of_fits (x := remaining) (y := 200) (k := 200) rfl (by omega)
  have hdivisor := toInt_mul_of_fits (x := full) (y := 2) (k := 2) rfl (by omega)
  refine ⟨hscaled, ?_, hdivisor⟩
  rw [BitVec.toInt_add_of_not_saddOverflow (saddOverflow_iff.2 (hscaled ▸ h.sum)), hscaled]

/-- The computation is safe exactly when the capacities fit. -/
theorem percentSafe_iff :
    PercentSafe remaining full ↔ PercentFits remaining.toInt full.toInt := by
  refine ⟨?_, ?_⟩
  · intro h
    have hscaled := (smulOverflow_iff (k := 200) rfl).1 h.scaled
    have hfull := (smulOverflow_iff (k := 2) rfl).1 h.divisor
    have hsum := saddOverflow_iff.1 h.dividend
    rw [toInt_mul_of_fits (k := 200) rfl hscaled] at hsum
    refine ⟨?_, by omega, by omega, by omega⟩
    intro hzero
    refine h.nonzero (BitVec.eq_of_toInt_eq ?_)
    rw [toInt_mul_of_fits (k := 2) rfl hfull, hzero]
    rfl
  · intro h
    obtain ⟨hscaled, -, hdivisor⟩ := h.operands
    have hremaining := h.remaining
    have hfull := h.full
    have hnonzero := h.nonzero
    refine ⟨(smulOverflow_iff (k := 200) rfl).2 (by omega),
      saddOverflow_iff.2 (hscaled ▸ h.sum), (smulOverflow_iff (k := 2) rfl).2 (by omega), ?_, ?_⟩
    · intro hzero
      have htwice : full.toInt * 2 = 0 := hdivisor.symm.trans (congrArg BitVec.toInt hzero)
      omega
    · -- an even number is not `-1`
      rintro ⟨-, hneg⟩
      have htwice : full.toInt * 2 = -1 := hdivisor.symm.trans (congrArg BitVec.toInt hneg)
      omega

/-- Where the capacities fit, the division does not trap and is the one of the integers. -/
theorem PercentFits.percentOf (h : PercentFits remaining.toInt full.toInt) :
    ∃ p, percentOf remaining full = some p ∧
      p.toInt = (remaining.toInt * 200 + full.toInt).tdiv (full.toInt * 2) := by
  obtain ⟨-, hdividend, hdivisor⟩ := h.operands
  have hsafe := percentSafe_iff.2 h
  refine ⟨_, if_neg (not_or.2 ⟨hsafe.nonzero, hsafe.quotient⟩), ?_⟩
  rw [BitVec.toInt_sdiv_of_ne_or_ne _ _ (not_and_or.1 hsafe.quotient), hdividend, hdivisor]

/-- Adding half of the divisor first rounds the quotient to the nearest integer, halves up. -/
theorem tdiv_eq_round (hr : 0 ≤ r) (hf : 0 < f) :
    (r * 200 + f).tdiv (f * 2) = round (100 * r / f : ℚ) := by
  have hpos : 0 < f * 2 := by omega
  have hdiv : (r * 200 + f).tdiv (f * 2) = (r * 200 + f) / (f * 2) :=
    Int.tdiv_eq_ediv_of_nonneg (by omega)
  have hle := Int.ediv_mul_le (r * 200 + f) hpos.ne'
  have hlt := Int.lt_ediv_add_one_mul_self (r * 200 + f) hpos
  rw [hdiv, eq_comm, round_eq_iff, Set.mem_Ico]
  generalize (r * 200 + f) / (f * 2) = q at hle hlt
  have hf' : (0 : ℚ) < f := by exact_mod_cast hf
  have hle' : ((q : ℚ) * (f * 2)) ≤ r * 200 + f := by exact_mod_cast hle
  have hlt' : (r * 200 + f : ℚ) < (q + 1) * (f * 2) := by exact_mod_cast hlt
  rw [le_div_iff₀ hf', div_lt_iff₀ hf']
  refine ⟨by linarith, by linarith⟩

/-- A part of a positive whole is between `0` and `100` percent of it. -/
theorem percent_bounds (hr : 0 ≤ r) (hle : r ≤ f) (hf : 0 < f) :
    0 ≤ (r * 200 + f).tdiv (f * 2) ∧ (r * 200 + f).tdiv (f * 2) ≤ 100 := by
  rw [Int.tdiv_eq_ediv_of_nonneg (by omega)]
  refine ⟨Int.ediv_nonneg (by omega) (by omega), Int.lt_add_one_iff.1 ?_⟩
  rw [Int.ediv_lt_iff_lt_mul (by omega)]
  omega

/-! ## The thread -/

variable {m m' : Monitor} {call : MonitorCall} {found : List (String × Evaluation)}
  {tr : List (Step Monitor MonitorCall)}

/-- The percent of the check is computed safely, and for a remaining capacity between zero and a
positive last full one it is the ratio of the two, rounded to the nearest integer. -/
def PercentRight (m : Monitor) (call : MonitorCall) (m' : Monitor) : Prop :=
  match call with
  | .sample _ _ => m'.trapped = false ∧ ∀ b, m'.batteries[m.pos]? = some b →
      PercentSafe b.remainingCapacity b.fullChargeCapacity ∧
      (0 ≤ b.remainingCapacity.toInt → b.remainingCapacity.toInt ≤ b.fullChargeCapacity.toInt →
        0 < b.fullChargeCapacity.toInt →
        b.percent.toInt =
          round (100 * b.remainingCapacity.toInt / b.fullChargeCapacity.toInt : ℚ) ∧
        0 ≤ b.percent.toInt ∧ b.percent.toInt ≤ 100)
  | .sleep _ => True

/-- The capacities in the sample fit. -/
def FittingSample (m : Monitor) (call : MonitorCall) : Prop :=
  match call with
  | .sample eval _ => ∀ b, m.batteries[m.pos]? = some b →
      PercentFits (b.sampled eval).remainingCapacity.toInt
        (b.sampled eval).fullChargeCapacity.toInt
  | .sleep _ => True

/-- A check leaves the capacities of the sample. -/
theorem capacities_checkBattery (b : AcpiBattery) (eval : Evaluation) :
    (checkBattery eval b).battery.remainingCapacity = (b.sampled eval).remainingCapacity ∧
    (checkBattery eval b).battery.fullChargeCapacity = (b.sampled eval).fullChargeCapacity := by
  by_cases h : (b.sampled eval).Traps
  · rw [checkBattery_traps h]
    exact ⟨rfl, rfl⟩
  · obtain ⟨percent, hp⟩ := Option.ne_none_iff_exists'.1 h
    rw [checkBattery_eq hp]
    exact ⟨rfl, rfl⟩

/-- A check of a sample that fits does not trap, and computes the percent. -/
theorem PercentFits.checkBattery {b : AcpiBattery} {eval : Evaluation}
    (h : PercentFits (b.sampled eval).remainingCapacity.toInt
      (b.sampled eval).fullChargeCapacity.toInt) :
    (checkBattery eval b).trapped = false ∧ (checkBattery eval b).battery.percent.toInt =
      ((b.sampled eval).remainingCapacity.toInt * 200 +
        (b.sampled eval).fullChargeCapacity.toInt).tdiv
          ((b.sampled eval).fullChargeCapacity.toInt * 2) := by
  obtain ⟨p, hp, hdiv⟩ := h.percentOf
  rw [checkBattery_eq hp]
  exact ⟨rfl, hdiv⟩

/-- A step computes the percent right exactly when the sample fits. -/
theorem MonitorStep.percentRight_iff (h : MonitorStep m call m') :
    PercentRight m call m' ↔ FittingSample m call := by
  cases h with
  | sleep => exact Iff.rfl
  | @sample eval b hrun hb =>
    have hafter : (m.check eval b).batteries[m.pos]? = some (checkBattery eval b).battery :=
      List.getElem?_set_self (List.getElem?_eq_some_iff.1 hb).1
    obtain ⟨hremaining, hfull⟩ := capacities_checkBattery b eval
    simp only [PercentRight, FittingSample, hafter, hb, Option.some.injEq, forall_eq', hremaining,
      hfull, percentSafe_iff]
    refine ⟨fun hright => hright.2.1, ?_⟩
    intro hfits
    obtain ⟨hruns, hpercent⟩ := hfits.checkBattery
    refine ⟨hruns, hfits, ?_⟩
    intro h0 hle hpos
    rw [hpercent]
    exact ⟨tdiv_eq_round h0 hpos, percent_bounds h0 hle hpos⟩

/-- **When the percent computation is safe and right.** At every step of every run it is exactly
when the last full capacity is not zero and both capacities are small enough for its products and
its sum. -/
theorem percent_right_iff (h : MonitorRun found tr m) :
    ∀ x ∈ tr, (PercentRight x.pre x.label x.post ↔ FittingSample x.pre x.label) := by
  intro x hx
  exact (h.mem x hx).2.percentRight_iff

/-- A battery whose `_BIF` fails is divided by zero. -/
theorem percent_traps : ¬ ∀ (found : List (String × Evaluation))
    (tr : List (Step Monitor MonitorCall)) (m : Monitor), MonitorRun found tr m →
      ∀ x ∈ tr, PercentRight x.pre x.label x.post := by
  intro h
  have hstep : MonitorStep (.init [("BAT0", .failure)]) (.sample (bstOf 1) []) _ :=
    .sample (b := .found "BAT0" .failure) rfl rfl
  have hright := h _ _ _ (Run.nil.snoc hstep) _ List.mem_concat_self
  exact absurd hright.1 (by decide)

/-- At half of its capacity the percent of a battery is `50`. -/
theorem percent_right_iff_discharging : PercentRight (.init [bat0])
    (.sample (bstOf 1) (checkBattery (bstOf 1) (bat0After [])).reports) .discharging := by
  refine (percent_right_iff discharging_run _ (List.mem_singleton_self _)).2 ?_
  intro b hb
  cases Option.some.inj hb
  decide

end Eece4029
