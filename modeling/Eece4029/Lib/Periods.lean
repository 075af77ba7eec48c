import Mathlib.Data.Nat.Count
import Mathlib.Data.Set.Card

/-!
# Periods in a list of samples

A period of a predicate in a list of samples is a maximal run of consecutive samples that satisfy
it: a first index and an end with such samples between them and none on either side. A period is
determined by where it starts (`Starts`), which can be told from two consecutive samples, so that
whoever compares each sample with the one before it finds every period once: `count_eq_ncard` says
that flags raised at starts count periods.
-/

namespace Periods

universe u
variable {α : Type u} {P : α → Prop} {l : List α} {x : α} {s e e' : Nat}

/-- The samples from `s` up to `e` satisfy `P`, and those next to them do not. -/
structure IsPeriod (P : α → Prop) (l : List α) (s e : Nat) : Prop where
  lt : s < e
  inside : ∀ k, s ≤ k → k < e → ∃ x, l[k]? = some x ∧ P x
  before : ∀ k x, k + 1 = s → l[k]? = some x → ¬ P x
  after : ∀ x, l[e]? = some x → ¬ P x

/-- The sample at `s` satisfies `P`, and the one before it does not. -/
def Starts (P : α → Prop) (l : List α) (s : Nat) : Prop :=
  (∃ x, l[s]? = some x ∧ P x) ∧ ∀ k x, k + 1 = s → l[k]? = some x → ¬ P x

/-- A period starts at its first index. -/
theorem IsPeriod.starts (h : IsPeriod P l s e) : Starts P l s :=
  ⟨h.inside s (Nat.le_refl s) h.lt, h.before⟩

/-- Two periods that start at one index are the same. -/
theorem IsPeriod.unique (h : IsPeriod P l s e) (h' : IsPeriod P l s e') : e = e' := by
  have hle : ∀ {e e'}, IsPeriod P l s e → IsPeriod P l s e' → e ≤ e' := by
    intro e e' h h'
    refine Nat.not_lt.1 fun hlt => ?_
    obtain ⟨x, hx, hP⟩ := h.inside e' (Nat.le_of_lt h'.lt) hlt
    exact h'.after x hx hP
  exact Nat.le_antisymm (hle h h') (hle h' h)

/-- Where a period starts there is one: it ends at the first sample that does not satisfy `P`. -/
theorem Starts.exists_period (h : Starts P l s) : ∃ e, IsPeriod P l s e := by
  classical
  have hend : ∃ e, s ≤ e ∧ ¬ ∃ x, l[e]? = some x ∧ P x := by
    refine ⟨max s l.length, Nat.le_max_left .., ?_⟩
    rintro ⟨x, hx, -⟩
    have hlt := (List.getElem?_eq_some_iff.1 hx).1
    exact Nat.lt_irrefl _ (Nat.lt_of_lt_of_le hlt (Nat.le_max_right ..))
  obtain ⟨hle, hnot⟩ := Nat.find_spec hend
  refine ⟨Nat.find hend, Nat.lt_of_le_of_ne hle ?_, ?_, h.2, fun x hx hP => hnot ⟨x, hx, hP⟩⟩
  · intro heq
    rw [← heq] at hnot
    exact hnot h.1
  · intro k hk hlt
    by_contra hno
    exact Nat.find_min hend hlt ⟨hk, hno⟩

theorem starts_iff : Starts P l s ↔ ∃ e, IsPeriod P l s e :=
  ⟨Starts.exists_period, fun ⟨_, h⟩ => h.starts⟩

/-- Another sample starts a period when it satisfies `P` and the last one does not; the other starts
stay. -/
theorem starts_snoc : Starts P (l ++ [x]) s ↔
    s < l.length ∧ Starts P l s ∨ s = l.length ∧ P x ∧ ∀ y, l.getLast? = some y → ¬ P y := by
  rcases Nat.lt_trichotomy s l.length with hlt | rfl | hlt
  · have hbefore : ∀ k, k + 1 = s → (l ++ [x])[k]? = l[k]? := fun k hk =>
      List.getElem?_append_left (by omega)
    rw [Starts, List.getElem?_append_left hlt, and_iff_right hlt, Starts]
    refine (and_congr_right fun _ => ?_).trans (or_iff_left fun h => hlt.ne h.1).symm
    exact forall₃_congr fun k y hk => by rw [hbefore k hk]
  · have hbefore : ∀ k y, k + 1 = l.length → ((l ++ [x])[k]? = some y ↔ l.getLast? = some y) := by
      intro k y hk
      rw [List.getElem?_append_left (by omega), List.getLast?_eq_getElem?, ← hk, Nat.add_sub_cancel]
    have hlast : (∀ k y, k + 1 = l.length → (l ++ [x])[k]? = some y → ¬ P y) ↔
        ∀ y, l.getLast? = some y → ¬ P y := by
      refine ⟨fun h y hy => ?_, fun h k y hk hy => h y ((hbefore k y hk).1 hy)⟩
      have hpos : 0 < l.length := by
        rw [List.length_pos_iff]
        rintro rfl
        cases hy
      have hk : l.length - 1 + 1 = l.length := Nat.succ_pred_eq_of_pos hpos
      exact h _ y hk ((hbefore _ y hk).2 hy)
    rw [Starts, hlast, List.getElem?_append_right (Nat.le_refl _), Nat.sub_self]
    simp
  · refine iff_of_false ?_ ?_
    · rintro ⟨⟨y, hy, -⟩, -⟩
      have hlen := (List.getElem?_eq_some_iff.1 hy).1
      rw [List.length_append, List.length_singleton] at hlen
      omega
    · rintro (⟨h, -⟩ | ⟨h, -⟩) <;> omega

theorem starts_singleton : Starts P [x] s ↔ s = 0 ∧ P x := by
  rw [← List.nil_append [x], starts_snoc]
  simp

/-! ## Counting -/

/-- Of the first `n` flags as many are raised as there are indices of raised flags below `n`. -/
theorem count_take (flags : List Bool) (n : Nat) :
    Nat.count (fun s => flags[s]? = some true) n = (flags.take n).count true := by
  induction n with
  | zero => simp
  | succ n ih =>
    rw [Nat.count_succ, ih, List.take_add_one, List.count_append]
    cases flags[n]? with
    | none => simp
    | some b => cases b <;> simp

/-- Flags that are raised where a period starts, among the indices that satisfy `Q`, are as many as
the periods with such a start. -/
theorem count_eq_ncard {flags : List Bool} {Q : Nat → Prop}
    (h : ∀ s, flags[s]? = some true ↔ Q s ∧ Starts P l s) :
    flags.count true = {p : Nat × Nat | Q p.1 ∧ IsPeriod P l p.1 p.2}.ncard := by
  let raised := {s ∈ Finset.range flags.length | flags[s]? = some true}
  have hstarts : Prod.fst '' {p : Nat × Nat | Q p.1 ∧ IsPeriod P l p.1 p.2} = raised := by
    ext s
    rw [Finset.mem_coe, Finset.mem_filter, Finset.mem_range, h]
    refine ⟨?_, ?_⟩
    · rintro ⟨⟨s, e⟩, ⟨hq, hp⟩, rfl⟩
      have hraised := (h s).2 ⟨hq, hp.starts⟩
      exact ⟨(List.getElem?_eq_some_iff.1 hraised).1, hq, hp.starts⟩
    · rintro ⟨-, hq, hs⟩
      obtain ⟨e, he⟩ := hs.exists_period
      exact ⟨(s, e), ⟨hq, he⟩, rfl⟩
  have hinj : Set.InjOn Prod.fst {p : Nat × Nat | Q p.1 ∧ IsPeriod P l p.1 p.2} := by
    rintro ⟨s, e⟩ ⟨-, hp⟩ ⟨s', e'⟩ ⟨-, hp'⟩ heq
    cases heq
    exact congrArg (Prod.mk s) (hp.unique hp')
  rw [← hinj.ncard_image, hstarts, Set.ncard_coe_finset,
    ← Nat.count_eq_card_filter_range, count_take, List.take_length]

end Periods
