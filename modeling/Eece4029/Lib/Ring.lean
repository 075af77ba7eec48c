import Mathlib.Algebra.BigOperators.Fin
import Mathlib.Algebra.BigOperators.Group.Finset.Basic
import Mathlib.Algebra.Order.BigOperators.Group.Finset
import Mathlib.Data.Int.CardIntervalMod

/-!
# Walks around a ring of slots

A walk around a ring of `m` slots starts at slot `0` and moves on one slot at a time, so its step
number `k` visits slot `k % m`. `Ring.visits m i k` counts the visits to slot `i` in the first `k`
steps and `Ring.total m i w` adds them up over a family of walks of lengths `w`. A walk visits the
slots in order, so what it has visited determines how far it is: `visits_le`, `visits_eq_iff` and
their sums are the counting facts behind protocols that only count the readers of a slot.
-/

namespace Ring

variable {m i j k r : Nat}

/-! ## One walk -/

/-- The number of visits to slot `i` in the first `k` steps around `m` slots. -/
def visits (m i k : Nat) : Nat := Nat.count (fun s => s % m = i) k

@[simp] theorem visits_zero : visits m i 0 = 0 := rfl

/-- One more step visits one slot. -/
theorem visits_succ : visits m i (k + 1) = visits m i k + if k % m = i then 1 else 0 :=
  Nat.count_succ _ k

/-- The visits are the full rounds, and one more where the last round has passed the slot. -/
theorem visits_eq (hi : i < m) : visits m i k = k / m + if i < k % m then 1 else 0 := by
  have h := Nat.count_modEq_card k (Nat.zero_lt_of_lt hi) i
  simp only [Nat.ModEq, Nat.mod_eq_of_lt hi] at h
  exact h

/-- A slot has been visited once the walk is past it. -/
theorem visits_pos (hi : i < m) : 0 < visits m i k ↔ i < k := by
  rw [visits_eq hi]
  have hdm := Nat.div_add_mod k m
  have hlt := Nat.mod_lt k (Nat.zero_lt_of_lt hi)
  constructor
  · intro h
    by_contra hle
    have hk : k < m := by omega
    rw [Nat.div_eq_of_lt hk, Nat.mod_eq_of_lt hk, if_neg (by omega)] at h
    omega
  · intro h
    rcases Nat.eq_zero_or_pos (k / m) with h0 | h0
    · rw [h0, Nat.mul_zero, Nat.zero_add] at hdm
      rw [if_pos (by omega)]
      omega
    · omega

/-- Slots are visited in order: a later slot is not ahead of an earlier one, and at most one visit
behind it. -/
theorem visits_le (hij : i ≤ j) (hj : j < m) :
    visits m j k ≤ visits m i k ∧ visits m i k ≤ visits m j k + 1 := by
  rw [visits_eq hj, visits_eq (Nat.lt_of_le_of_lt hij hj)]
  split <;> split <;> omega

/-- The slots before the next one have been visited once more than the others. -/
theorem visits_eq_next (hi : i < m) :
    visits m i k = visits m (k % m) k + if i < k % m then 1 else 0 := by
  rw [visits_eq hi, visits_eq (Nat.mod_lt k (Nat.zero_lt_of_lt hi)), if_neg (Nat.lt_irrefl _)]
  rfl

/-- A walk that is behind another one has visited the other one's next slot as often exactly when it
is less than a round behind. -/
theorem visits_eq_iff (hm : 0 < m) (hrk : r ≤ k) :
    visits m (k % m) r = visits m (k % m) k ↔ k < r + m := by
  have hk := Nat.mod_lt k hm
  have hr := Nat.mod_lt r hm
  have hdk := Nat.div_add_mod k m
  have hdr := Nat.div_add_mod r m
  have hq : r / m ≤ k / m := Nat.div_le_div_right hrk
  rw [visits_eq hk, visits_eq hk, if_neg (Nat.lt_irrefl _), Nat.add_zero]
  obtain ⟨d, hd⟩ := Nat.exists_eq_add_of_le hq
  rw [hd, Nat.mul_add] at hdk
  rcases d with _ | _ | d
  · split <;> omega
  · split <;> omega
  · have : m * (d + 1 + 1) = m * d + m + m := by rw [Nat.mul_succ, Nat.mul_succ]
    split <;> omega

/-- A walk that goes on has visited its next slot again. -/
theorem visits_lt (hrk : r < k) : visits m (r % m) r < visits m (r % m) k :=
  Nat.count_strict_mono rfl hrk

/-! ## Several walks -/

variable {ι : Type} [Fintype ι] {w w' : ι → Nat}

/-- The number of visits to slot `i` of walks of the lengths `w`. -/
def total (m i : Nat) (w : ι → Nat) : Nat := ∑ c, visits m i (w c)

@[simp] theorem total_zero : total m i (fun _ : ι => 0) = 0 := by simp [total]

/-- One more step of one walk. -/
theorem total_succ [DecidableEq ι] {c : ι} (hc : w' c = w c + 1) (hw : ∀ d, d ≠ c → w' d = w d) :
    total m i w' = total m i w + if w c % m = i then 1 else 0 := by
  have hrest : ∑ d ∈ Finset.univ.erase c, visits m i (w' d) =
      ∑ d ∈ Finset.univ.erase c, visits m i (w d) :=
    Finset.sum_congr rfl fun d hd => by rw [hw d (Finset.ne_of_mem_erase hd)]
  unfold total
  rw [← Finset.add_sum_erase _ _ (Finset.mem_univ c),
    ← Finset.add_sum_erase _ _ (Finset.mem_univ c), hrest, hc, visits_succ]
  omega

/-- Over all walks, a later slot is not ahead of an earlier one, and at most one visit a walk behind
it. -/
theorem total_le (hij : i ≤ j) (hj : j < m) :
    total m j w ≤ total m i w ∧ total m i w ≤ total m j w + Fintype.card ι := by
  constructor
  · exact Finset.sum_le_sum fun c _ => (visits_le hij hj).1
  · calc total m i w ≤ ∑ c, (visits m j (w c) + 1) :=
          Finset.sum_le_sum fun c _ => (visits_le hij hj).2
      _ = total m j w + Fintype.card ι := by simp [total, Finset.sum_add_distrib]

/-- When every walk is before slot `j`, it has been visited as often as the next one. -/
theorem total_next (hj : j + 1 < m) (hw : ∀ c, w c % m = j) :
    total m j w = total m (j + 1) w := by
  refine Finset.sum_congr rfl ?_
  intro c _
  rw [visits_eq hj, visits_eq (Nat.lt_of_succ_lt hj), hw, if_neg (by omega), if_neg (by omega)]

/-- When every walk is before the last slot, the first one is a visit a walk ahead of it. -/
theorem total_last (hj : 0 < j) (hm : j + 1 = m) (hw : ∀ c, w c % m = j) :
    total m 0 w = total m j w + Fintype.card ι := by
  calc total m 0 w = ∑ c, (visits m j (w c) + 1) := by
        refine Finset.sum_congr rfl ?_
        intro c _
        rw [visits_eq (by omega), visits_eq (by omega), hw, if_pos hj, if_neg (by omega)]
    _ = total m j w + Fintype.card ι := by simp [total, Finset.sum_add_distrib]

/-- Walks that are all at most `k` long have each visited a slot at most as often as one of that
length. -/
theorem total_le_of_le (hw : ∀ c, w c ≤ k) : total m i w ≤ Fintype.card ι * visits m i k := by
  calc total m i w ≤ ∑ _c : ι, visits m i k :=
        Finset.sum_le_sum fun c _ => Nat.count_monotone _ (hw c)
    _ = Fintype.card ι * visits m i k := by simp [Finset.card_univ]

/-- Of walks that are all at most `k` long, one that is shorter has a visit to its next slot to make
that one of length `k` has made. -/
theorem total_lt_of_lt {c : ι} (hw : ∀ d, w d ≤ k) (hc : w c < k) :
    total m (w c % m) w < Fintype.card ι * visits m (w c % m) k := by
  calc total m (w c % m) w < ∑ _d : ι, visits m (w c % m) k :=
        Finset.sum_lt_sum (fun d _ => Nat.count_monotone _ (hw d))
          ⟨c, Finset.mem_univ c, visits_lt hc⟩
    _ = Fintype.card ι * visits m (w c % m) k := by simp [Finset.card_univ]

/-- Walks that are all at most `k` long have visited its next slot as often as it has, each, exactly
when none of them is a round behind. -/
theorem total_eq_iff (hm : 0 < m) (hw : ∀ c, w c ≤ k) :
    total m (k % m) w = Fintype.card ι * visits m (k % m) k ↔ ∀ c, k < w c + m := by
  have hmono : ∀ c, visits m (k % m) (w c) ≤ visits m (k % m) k := fun c =>
    Nat.count_monotone _ (hw c)
  have hconst : ∑ _c : ι, visits m (k % m) k = Fintype.card ι * visits m (k % m) k := by
    simp [Finset.card_univ]
  rw [← hconst, total, Finset.sum_eq_sum_iff_of_le fun c _ => hmono c]
  simp only [Finset.mem_univ, true_implies]
  exact forall_congr' fun c => visits_eq_iff hm (hw c)

end Ring
