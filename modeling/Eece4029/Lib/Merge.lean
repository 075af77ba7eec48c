import Mathlib.Data.List.Range
import Mathlib.Order.Lattice
import Mathlib.Order.Monotone.Basic

/-!
# Merging two endless sequences

Two sequences over a linear order are merged by taking again and again the smaller of the next two
elements, and the one of the second sequence where they are equal. `Merged A B i j out` says that
`out` is what such a merge has put out when it has taken `i` elements of `A` and `j` of `B`: it is
sorted, it is those elements, and what has been taken comes before what has not, in the order of the
merge. `Merged.takeLeft` and `Merged.takeRight` are its two steps, and `Merged.smallest` says that
nothing that is left is smaller than what was taken.
-/

universe u
variable {τ : Type u}

/-- The first elements of a sequence. -/
def firstOf (A : Nat → τ) (i : Nat) : List τ := (List.range i).map A

@[simp] theorem firstOf_zero (A : Nat → τ) : firstOf A 0 = [] := rfl

theorem firstOf_succ (A : Nat → τ) (i : Nat) : firstOf A (i + 1) = firstOf A i ++ [A i] := by
  simp [firstOf, List.range_succ]

@[simp] theorem length_firstOf (A : Nat → τ) (i : Nat) : (firstOf A i).length = i := by
  simp [firstOf]

theorem mem_firstOf {A : Nat → τ} {i : Nat} {v : τ} : v ∈ firstOf A i ↔ ∃ k < i, A k = v := by
  simp [firstOf]

variable [LinearOrder τ] {A B : Nat → τ} {i j : Nat} {out : List τ} {v : τ}

/-- `out` is what a merge has put out that has taken `i` elements of `A` and `j` of `B`. -/
structure Merged (A B : Nat → τ) (i j : Nat) (out : List τ) : Prop where
  sorted : out.Pairwise (· ≤ ·)
  perm : out.Perm (firstOf A i ++ firstOf B j)
  leftFirst : ∀ k < i, ∀ l, j ≤ l → A k < B l
  rightFirst : ∀ l < j, ∀ k, i ≤ k → B l ≤ A k

namespace Merged

/-- Nothing has been taken. -/
theorem nil : Merged A B 0 0 [] :=
  ⟨List.Pairwise.nil, .refl _, fun _ hk => absurd hk (Nat.not_lt_zero _),
    fun _ hl => absurd hl (Nat.not_lt_zero _)⟩

/-- As many have been put out as have been taken. -/
theorem length (h : Merged A B i j out) : out.length = i + j := by
  rw [h.perm.length_eq, List.length_append, length_firstOf, length_firstOf]

/-- What has been put out was taken from one of the two. -/
theorem mem (h : Merged A B i j out) : v ∈ out ↔ (∃ k < i, A k = v) ∨ ∃ l < j, B l = v := by
  rw [h.perm.mem_iff, List.mem_append, mem_firstOf, mem_firstOf]

/-- Nothing that is left is smaller than what was put out. -/
theorem smallest (hA : Monotone A) (hB : Monotone B) (h : Merged A B i j out) (hv : v ∈ out) :
    (∀ k, i ≤ k → v ≤ A k) ∧ ∀ l, j ≤ l → v ≤ B l := by
  rcases h.mem.1 hv with ⟨k', hk', rfl⟩ | ⟨l', hl', rfl⟩
  · exact ⟨fun k hk => hA (hk'.le.trans hk), fun l hl => (h.leftFirst k' hk' l hl).le⟩
  · exact ⟨fun k hk => h.rightFirst l' hl' k hk, fun l hl => hB (hl'.le.trans hl)⟩

/-- One more element that nothing put out is greater than keeps the output sorted. -/
theorem sorted_snoc (h : Merged A B i j out) (hle : ∀ u ∈ out, u ≤ v) :
    (out ++ [v]).Pairwise (· ≤ ·) := by
  refine List.pairwise_append.2 ⟨h.sorted, List.pairwise_singleton _ _, ?_⟩
  intro u hu w hw
  rw [List.mem_singleton.1 hw]
  exact hle u hu

/-- The next element of `A` is the smaller one. -/
theorem takeLeft (hA : Monotone A) (hB : Monotone B) (h : Merged A B i j out) (hlt : A i < B j) :
    Merged A B (i + 1) j (out ++ [A i]) := by
  refine ⟨h.sorted_snoc fun u hu => (h.smallest hA hB hu).1 i (Nat.le_refl i), ?_, ?_, ?_⟩
  · calc (out ++ [A i]).Perm ((firstOf A i ++ firstOf B j) ++ [A i]) := h.perm.append_right _
      _ |>.Perm (firstOf A i ++ ([A i] ++ firstOf B j)) := by
          rw [List.append_assoc]
          exact List.perm_append_comm.append_left _
      _ = firstOf A (i + 1) ++ firstOf B j := by rw [firstOf_succ, List.append_assoc]
  · intro k hk l hl
    rcases Nat.lt_succ_iff_lt_or_eq.1 hk with hk | rfl
    · exact h.leftFirst k hk l hl
    · exact hlt.trans_le (hB hl)
  · exact fun l hl k hk => h.rightFirst l hl k (Nat.le_of_succ_le hk)

/-- The next element of `B` is the smaller one, or they are equal. -/
theorem takeRight (hA : Monotone A) (hB : Monotone B) (h : Merged A B i j out)
    (hle : ¬ A i < B j) : Merged A B i (j + 1) (out ++ [B j]) := by
  refine ⟨h.sorted_snoc fun u hu => (h.smallest hA hB hu).2 j (Nat.le_refl j), ?_, ?_, ?_⟩
  · rw [firstOf_succ, ← List.append_assoc]
    exact h.perm.append_right _
  · exact fun k hk l hl => h.leftFirst k hk l (Nat.le_of_succ_le hl)
  · intro l hl k hk
    rcases Nat.lt_succ_iff_lt_or_eq.1 hl with hl | rfl
    · exact h.rightFirst l hl k hk
    · exact (not_lt.1 hle).trans (hA hk)

/-- With the next two elements in hand, what was put out and they are all that was taken. -/
theorem held (h : Merged A B i j out) :
    (out ++ [A i, B j]).Perm (firstOf A (i + 1) ++ firstOf B (j + 1)) := by
  calc (out ++ [A i, B j]).Perm ((firstOf A i ++ firstOf B j) ++ [A i, B j]) :=
        h.perm.append_right _
    _ = firstOf A i ++ ((firstOf B j ++ [A i]) ++ [B j]) := by simp
    _ |>.Perm (firstOf A i ++ (([A i] ++ firstOf B j) ++ [B j])) :=
        (List.perm_append_comm.append_right _).append_left _
    _ = firstOf A (i + 1) ++ firstOf B (j + 1) := by simp [firstOf_succ]

end Merged
