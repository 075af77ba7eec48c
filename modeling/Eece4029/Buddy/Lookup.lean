import Eece4029.Buddy.Runs

/-!
# `_buddy_size` agrees with the live pages

`_buddy_size` does not compare an index with the bounds of a split: it tries the right child, and
the left one where that gave a negative result. `buddySizeBy` is the same search with a choice of
the first child at every split, and `visit` the search of the leaves in the order of a list. Since
the pages of a reachable tree are disjoint all of them find the same page, and that is the live page
of the history with the index inside (`size_agrees`).
-/

namespace Eece4029

open Transition Node

variable {b p : Region} {S : Nat} {i rt : Int} {t n : Node} {tr : List (Step Node Event)}

/-! ## Other orders of the search -/

namespace Node

/-- `_buddy_size` with the right child first at the splits that `rightFirst` picks and the left
child first at the others. -/
def buddySizeBy (rightFirst : Node → Bool) : Node → Int → Int
  | .split idx sz left right, i =>
    if rightFirst (.split idx sz left right) then
      let rt := buddySizeBy rightFirst right i
      if rt < 0 then buddySizeBy rightFirst left i else rt
    else
      let rt := buddySizeBy rightFirst left i
      if rt < 0 then buddySizeBy rightFirst right i else rt
  | .alloc idx sz, i => buddySize (.alloc idx sz) i
  | .free idx sz, i => buddySize (.free idx sz) i

/-- The right child first at every split is the order of the source. -/
theorem buddySizeBy_right (t : Node) (i : Int) :
    buddySizeBy (fun _ => true) t i = buddySize t i := by
  induction t with
  | free | alloc => rfl
  | split idx sz l r ihl ihr => simp only [buddySizeBy, buddySize, ihl, ihr, if_true]

/-- The nodes that are not split, from left to right. -/
def leafNodes : Node → List Node
  | .free idx sz => [.free idx sz]
  | .split _ _ left right => left.leafNodes ++ right.leafNodes
  | .alloc idx sz => [.alloc idx sz]

/-- The first result that is not negative when the nodes `ns` are asked one after the other. -/
def visit : List Node → Int → Int
  | [], _ => -1
  | n :: ns, i => if buddySize n i < 0 then visit ns i else buddySize n i

/-- Asking nodes where none answers fails. -/
theorem visit_eq_neg : ∀ {ns : List Node}, (∀ n ∈ ns, buddySize n i < 0) → visit ns i = -1
  | [], _ => rfl
  | n :: ns, h => by
    rw [visit, if_pos (h n (List.mem_cons_self ..))]
    exact visit_eq_neg fun m hm => h m (List.mem_cons_of_mem n hm)

/-- Asking nodes that give one answer, and some of them do, gives that answer. -/
theorem visit_eq : ∀ {ns : List Node}, (∀ n ∈ ns, 0 ≤ buddySize n i → buddySize n i = rt) →
    (∃ n ∈ ns, 0 ≤ buddySize n i) → visit ns i = rt
  | [], _, h => by simp at h
  | n :: ns, hall, h => by
    unfold visit
    split
    · next hneg =>
      obtain ⟨m, hm, hpos⟩ := h
      rcases List.mem_cons.1 hm with rfl | hm
      · omega
      · exact visit_eq (fun m hm => hall m (List.mem_cons_of_mem n hm)) ⟨m, hm, hpos⟩
    · next hneg => exact hall n (List.mem_cons_self ..) (Int.not_lt.1 hneg)

end Node

namespace BuddyTree

/-- A tree gives an answer that is not negative exactly when the index is in one of its pages. -/
theorem size_nonneg (ht : BuddyTree b t) : 0 ≤ buddySize t i ↔ ∃ p ∈ t.pages, p.Has i := by
  rcases ht.size_spec (i := i) with ⟨p, hp, hpi, hs⟩ | ⟨hno, hs⟩
  · refine iff_of_true ?_ ⟨p, hp, hpi⟩
    simp only [Region.Has] at hpi
    omega
  · refine iff_of_false (by omega) ?_
    rintro ⟨p, hp, hpi⟩
    exact hno p hp hpi

/-- At most one child of a split answers. -/
theorem size_left_or_right {l r : Node} (hl : BuddyTree b.left l) (hr : BuddyTree b.right r) :
    buddySize l i < 0 ∨ buddySize r i < 0 := by
  by_contra hno
  obtain ⟨hno, hno'⟩ := not_or.1 hno
  obtain ⟨p, hp, hpi⟩ := hl.size_nonneg.1 (Int.not_lt.1 hno)
  obtain ⟨q, hq, hqi⟩ := hr.size_nonneg.1 (Int.not_lt.1 hno')
  have hbefore := Region.before_of_halves (hl.pages_inside p hp).1 (hr.pages_inside q hq).1
  exact hbefore.disjoint i hpi hqi

/-- A failed search of a tree gives `-1`. -/
theorem size_eq_neg_one (ht : BuddyTree b t) (h : buddySize t i < 0) : buddySize t i = -1 := by
  rcases ht.size_spec (i := i) with ⟨p, hp, hpi, hs⟩ | ⟨-, hs⟩
  · simp only [Region.Has] at hpi
    omega
  · exact hs

/-- Every choice of the first child gives the result of the right child first. -/
theorem sizeBy_eq (ht : BuddyTree b t) (rightFirst : Node → Bool) :
    buddySizeBy rightFirst t i = buddySize t i := by
  induction ht with
  | free | alloc => rfl
  | @split b l r hl hr _ ihl ihr =>
    simp only [buddySizeBy, buddySize, ihl, ihr]
    split
    · rfl
    · rcases hl.size_left_or_right hr (i := i) with hneg | hneg
      · rw [if_pos hneg]
        split
        · next hneg' => rw [hl.size_eq_neg_one hneg, hr.size_eq_neg_one hneg']
        · rfl
      · rw [if_pos hneg]
        split
        · next hneg' => rw [hl.size_eq_neg_one hneg', hr.size_eq_neg_one hneg]
        · rfl

/-- A leaf that answers gives the answer of the tree. -/
theorem size_of_leaf (ht : BuddyTree b t) (hn : n ∈ t.leafNodes) (h : 0 ≤ buddySize n i) :
    buddySize n i = buddySize t i := by
  induction ht with
  | free | alloc => rw [List.mem_singleton.1 hn]
  | @split b l r hl hr _ ihl ihr =>
    simp only [buddySize]
    rcases List.mem_append.1 hn with hn | hn
    · have heq := ihl hn
      rcases hl.size_left_or_right hr (i := i) with hneg | hneg
      · omega
      · rw [if_pos hneg, heq]
    · have heq := ihr hn
      rw [if_neg (by omega), heq]

/-- A tree that answers has a leaf that answers. -/
theorem exists_leaf (ht : BuddyTree b t) (h : 0 ≤ buddySize t i) :
    ∃ n ∈ t.leafNodes, 0 ≤ buddySize n i := by
  induction ht with
  | free | alloc => exact ⟨_, List.mem_singleton_self _, h⟩
  | @split b l r hl hr _ ihl ihr =>
    simp only [buddySize] at h
    split at h
    · obtain ⟨n, hn, hpos⟩ := ihl h
      exact ⟨n, List.mem_append_left _ hn, hpos⟩
    · obtain ⟨n, hn, hpos⟩ := ihr h
      exact ⟨n, List.mem_append_right _ hn, hpos⟩

/-- Asking the leaves in any order gives the result of the search. -/
theorem visit_leaves (ht : BuddyTree b t) {ns : List Node} (hns : ns.Perm t.leafNodes) :
    visit ns i = buddySize t i := by
  rcases Int.lt_or_le (buddySize t i) 0 with hneg | hpos
  · rw [ht.size_eq_neg_one hneg]
    refine visit_eq_neg fun n hn => Int.not_le.1 fun hpos => ?_
    have heq := ht.size_of_leaf (hns.mem_iff.1 hn) hpos
    omega
  · obtain ⟨n, hn, hn0⟩ := ht.exists_leaf hpos
    exact visit_eq (fun n hn h => ht.size_of_leaf (hns.mem_iff.1 hn) h)
      ⟨n, hns.mem_iff.2 hn, hn0⟩

end BuddyTree

/-! ## The live page of an index -/

/-- What `buddy_size(i)` is at the end of the run `tr` with the tree `t`: the number of bytes from
`i` to the end of the live page around it, `-1` where there is none, and both whatever the order of
the search. -/
structure SizeSpec (tr : List (Step Node Event)) (t : Node) (i : Int) : Prop where
  inside : ∀ p ∈ livePages tr, p.Has i → buddySize t i = p.start + p.len - i ∧
    1 ≤ buddySize t i ∧ buddySize t i ≤ p.len
  outside : (∀ p ∈ livePages tr, ¬ p.Has i) → buddySize t i = -1
  anyChildFirst : ∀ rightFirst, buddySizeBy rightFirst t i = buddySize t i
  anyLeafOrder : ∀ ns : List Node, ns.Perm t.leafNodes → visit ns i = buddySize t i

/-- **`buddy_size` agrees with the set of live pages** at the end of every run. -/
theorem size_agrees (h : BuddyRun S tr t) (i : Int) : SizeSpec tr t i := by
  have hinv := HistoryInv.of_run h
  have hmem : ∀ p, p ∈ t.pages ↔ p ∈ livePages tr := fun p => hinv.leaves.mem_iff
  refine ⟨?_, ?_, hinv.tree.sizeBy_eq, fun ns => hinv.tree.visit_leaves⟩
  · intro p hp hpi
    have hs := hinv.tree.size_of_has ((hmem p).2 hp) hpi
    simp only [Region.Has] at hpi
    omega
  · exact fun hno => hinv.tree.size_of_not_has fun p hp => hno p ((hmem p).1 hp)

theorem size_agrees_twoPages : SizeSpec twoPagesRun twoPages 3 ∧ buddySize twoPages 3 = 1 :=
  ⟨size_agrees twoPages_run 3, rfl⟩

end Eece4029
