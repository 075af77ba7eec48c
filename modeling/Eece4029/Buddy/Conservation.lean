import Eece4029.Buddy.Canonical

/-!
# Which bytes of the pool the tree accounts for

`_buddy_alloc` gives both children of a split the size `n->size / 2`, so a split of an odd number of
bytes has one byte that is in neither child: no request can get it and no leaf counts it until the
two children are merged again. `pool_conserved_iff` says that this is the only loss. A reachable
tree has every byte of the pool in exactly one leaf when no split of it is odd, and a pool whose
reachable trees all do has a size that is zero or a power of two.
-/

namespace Eece4029

open Transition Node

variable {b : Region} {S : Nat} {t : Node} {tr : List (Step Node Event)}

/-! ## Leaves and odd splits -/

namespace Node

/-- The `FREE` and `ALLOC` leaves, from left to right. -/
def leaves : Node → List Region
  | .free idx size => [⟨idx, size⟩]
  | .split _ _ left right => left.leaves ++ right.leaves
  | .alloc idx size => [⟨idx, size⟩]

/-- Every split halves an even number of bytes. -/
def EvenSplits (t : Node) : Prop :=
  ∀ idx size l r, .split idx size l r ∈ t.nodes → size % 2 = 0

@[simp] theorem evenSplits_free (idx size : Nat) : (free idx size).EvenSplits := by
  simp [EvenSplits, nodes]

@[simp] theorem evenSplits_alloc (idx size : Nat) : (alloc idx size).EvenSplits := by
  simp [EvenSplits, nodes]

/-- A split has even splits when it is one and its children have. -/
theorem evenSplits_split {idx size : Nat} {l r : Node} :
    (split idx size l r).EvenSplits ↔ size % 2 = 0 ∧ l.EvenSplits ∧ r.EvenSplits := by
  constructor
  · intro h
    refine ⟨h idx size l r List.mem_cons_self, ?_, ?_⟩
    · exact fun i s l' r' hm => h i s l' r' (List.mem_cons_of_mem _ (List.mem_append_left _ hm))
    · exact fun i s l' r' hm => h i s l' r' (List.mem_cons_of_mem _ (List.mem_append_right _ hm))
  · rintro ⟨heven, hl, hr⟩ i s l' r' hm
    rcases List.mem_cons.1 hm with heq | hm
    · cases heq
      exact heven
    · rcases List.mem_append.1 hm with hm | hm
      · exact hl i s l' r' hm
      · exact hr i s l' r' hm

end Node

/-- Every byte of the pool is in exactly one leaf. -/
def EachByteOnce (S : Nat) (t : Node) : Prop :=
  ∀ a : Int, 0 ≤ a → a < S → Region.cover t.leaves a = 1

/-- The sizes of the free leaves and of the pages add up to the size of the pool. -/
def SizesAddUp (S : Nat) (t : Node) : Prop := (t.leaves.map (·.len)).sum = S

/-! ## The account of one tree -/

namespace BuddyTree

/-- Every leaf lies inside the tree's region. -/
theorem leaves_inside (ht : BuddyTree b t) : ∀ c ∈ t.leaves, c.Inside b := by
  induction ht with
  | free b | alloc b =>
    intro c hc
    rw [List.mem_singleton.1 hc]
    exact .refl
  | split b _ _ _ ihl ihr =>
    intro c hc
    rcases List.mem_append.1 hc with hc | hc
    · exact (ihl c hc).trans Region.left_inside
    · exact (ihr c hc).trans Region.right_inside

/-- Every address of the region is in exactly one leaf when all splits are even. -/
theorem cover_of_evenSplits (ht : BuddyTree b t) (he : t.EvenSplits) {a : Int} (ha : b.Has a) :
    Region.cover t.leaves a = 1 := by
  induction ht with
  | free b | alloc b => exact List.countP_singleton.trans (if_pos (decide_eq_true ha))
  | @split b l r hl hr _ ihl ihr =>
    obtain ⟨heven, hel, her⟩ := evenSplits_split.1 he
    rw [leaves, Region.cover_append]
    rcases (Region.has_halves heven).1 ha with hal | har
    · rw [ihl hel hal, Region.cover_eq_zero hr.leaves_inside (Region.not_has_right hal)]
    · have hnl : ¬ b.left.Has a := fun hal => Region.not_has_right hal har
      rw [ihr her har, Region.cover_eq_zero hl.leaves_inside hnl]

/-- When every address of the region is in exactly one leaf, all splits are even. -/
theorem evenSplits_of_cover (ht : BuddyTree b t)
    (hc : ∀ a, b.Has a → Region.cover t.leaves a = 1) : t.EvenSplits := by
  induction ht with
  | free b => exact evenSplits_free _ _
  | alloc b => exact evenSplits_alloc _ _
  | @split b l r hl hr _ ihl ihr =>
    simp only [leaves, Region.cover_append] at hc
    have heven : b.len % 2 = 0 := by
      by_contra hodd
      -- the last byte is in no leaf
      obtain ⟨ha, hnl, hnr⟩ := Region.last_not_has (b := b) (by omega)
      have := hc _ ha
      rw [Region.cover_eq_zero hl.leaves_inside hnl,
        Region.cover_eq_zero hr.leaves_inside hnr] at this
      cases this
    refine evenSplits_split.2 ⟨heven, ihl ?_, ihr ?_⟩
    · intro a hal
      have := hc a ((Region.has_halves heven).2 (.inl hal))
      rwa [Region.cover_eq_zero hr.leaves_inside (Region.not_has_right hal)] at this
    · intro a har
      have := hc a ((Region.has_halves heven).2 (.inr har))
      rwa [Region.cover_eq_zero hl.leaves_inside fun hal => Region.not_has_right hal har,
        Nat.zero_add] at this

/-- The leaves never have more bytes than the region, and they have all of them exactly when all
splits are even. -/
theorem leaves_sum (ht : BuddyTree b t) :
    (t.leaves.map (·.len)).sum ≤ b.len ∧
      ((t.leaves.map (·.len)).sum = b.len ↔ t.EvenSplits) := by
  induction ht with
  | free b | alloc b => simp [leaves]
  | @split b l r hl hr _ ihl ihr =>
    rw [leaves, List.map_append, List.sum_append, evenSplits_split, ← ihl.2, ← ihr.2]
    have hle := ihl.1
    have hle' := ihr.1
    simp only [Region.left_len, Region.right_len] at *
    omega

/-- Over a power of two all splits are even. -/
theorem evenSplits_of_two_pow (ht : BuddyTree b t) {k : Nat} (hb : b.len = 2 ^ k) :
    t.EvenSplits := by
  induction ht generalizing k with
  | free b => exact evenSplits_free _ _
  | alloc b => exact evenSplits_alloc _ _
  | @split b l r hl hr hne ihl ihr =>
    cases k with
    | zero =>
      -- a region of one byte has empty halves, which no page fits into
      obtain ⟨p, hp, -, hlen⟩ := (BuddyTree.split b hl hr hne).exists_page
      rcases List.mem_append.1 hp with hp | hp
      · have := (hl.pages_inside p hp).1
        simp only [Region.Inside, Region.left_start, Region.left_len] at this
        omega
      · have := (hr.pages_inside p hp).1
        simp only [Region.Inside, Region.right_start, Region.right_len] at this
        omega
    | succ k =>
      rw [Nat.pow_succ] at hb
      exact evenSplits_split.2 ⟨by omega, ihl (k := k) (by simp [hb]), ihr (k := k) (by simp [hb])⟩

/-- Over an empty region there is no split. -/
theorem evenSplits_of_empty (ht : BuddyTree b t) (hb : b.len = 0) : t.EvenSplits := by
  cases ht with
  | free => exact evenSplits_free _ _
  | alloc => exact evenSplits_alloc _ _
  | split _ hl hr hne =>
    obtain ⟨p, -, hi, hlen⟩ := (BuddyTree.split b hl hr hne).exists_page
    simp only [Region.Inside] at hi
    omega

end BuddyTree

/-- A request of one byte splits a free region down to single bytes; when those splits are all even
its size is zero or a power of two. -/
theorem two_pow_of_evenSplits {idx sz : Nat} {rt : Int} (h : AllocReturns (.free idx sz) 1 rt t)
    (he : t.EvenSplits) : sz = 0 ∨ ∃ k, sz = 2 ^ k := by
  induction sz using Nat.strongRecOn generalizing rt t with
  | ind sz ih =>
    rcases allocReturns_free.1 h with ⟨hlt, -⟩ | ⟨hhalf, l', hl, rfl⟩ | ⟨hle, hhalf, -⟩
    · exact .inl (by omega)
    · obtain ⟨heven, hel, -⟩ := evenSplits_split.1 he
      rcases ih (sz / 2) (by omega) hl hel with h0 | ⟨k, hk⟩
      · omega
      · exact .inr ⟨k + 1, by rw [Nat.pow_succ, ← hk]; omega⟩
    · exact .inr ⟨0, by omega⟩

/-! ## The account of a pool -/

/-- The account of a reachable tree is complete exactly when all its splits are even. -/
theorem conserved_iff (h : BuddyRun S tr t) :
    (EachByteOnce S t ↔ t.EvenSplits) ∧ (SizesAddUp S t ↔ t.EvenSplits) := by
  have ht : BuddyTree ⟨0, S⟩ t := .of_run h
  have hhas : ∀ a, (⟨0, S⟩ : Region).Has a ↔ 0 ≤ a ∧ a < S := by simp [Region.Has]
  refine ⟨⟨fun hc => ht.evenSplits_of_cover fun a ha => ?_, fun he a h0 ha => ?_⟩, ht.leaves_sum.2⟩
  · exact hc a ((hhas a).1 ha).1 ((hhas a).1 ha).2
  · exact ht.cover_of_evenSplits he ((hhas a).2 ⟨h0, ha⟩)

/-- **When no byte of the pool is lost.** In a reachable tree every byte is in exactly one leaf, and
the sizes of the leaves add up, exactly when no split of the tree has an odd size; and this holds of
every reachable tree exactly when the size of the pool is zero or a power of two. -/
theorem pool_conserved_iff (S : Nat) :
    (∀ tr t, BuddyRun S tr t →
      (EachByteOnce S t ↔ t.EvenSplits) ∧ (SizesAddUp S t ↔ t.EvenSplits)) ∧
    ((∀ tr t, BuddyRun S tr t → EachByteOnce S t ∧ SizesAddUp S t) ↔
      S = 0 ∨ ∃ k, S = 2 ^ k) := by
  refine ⟨fun tr t h => conserved_iff h, ?_, ?_⟩
  · intro hall
    obtain ⟨rt, t, hret⟩ := BuddyTree.alloc_free_returns Int.one_pos 0 S
    have hr : BuddyRun S [⟨Node.init S, .alloc 1 rt, t⟩] t := Run.nil.snoc hret
    exact two_pow_of_evenSplits hret ((conserved_iff hr).1.1 (hall _ _ hr).1)
  · intro hS tr t h
    have ht : BuddyTree ⟨0, S⟩ t := .of_run h
    have he : t.EvenSplits := by
      rcases hS with h0 | ⟨k, hk⟩
      · exact ht.evenSplits_of_empty h0
      · exact ht.evenSplits_of_two_pow hk
    exact ⟨(conserved_iff h).1.2 he, (conserved_iff h).2.2 he⟩

/-- A page of one byte in a pool of three. -/
def oneOfThree : Node := .split 0 3 (.alloc 0 1) (.free 1 1)

theorem oneOfThree_run : BuddyRun 3 [⟨Node.init 3, .alloc 1 0, oneOfThree⟩] oneOfThree :=
  .snoc .nil ⟨3, rfl⟩

/-- The third byte is in no leaf. -/
theorem byte_lost : ¬ ∀ S tr t, BuddyRun S tr t → EachByteOnce S t ∧ SizesAddUp S t := by
  intro hall
  exact absurd ((hall _ _ _ oneOfThree_run).1 2 (by decide) (by decide)) (by decide)

theorem pool_conserved_iff_small :
    (EachByteOnce 4 twoPages ∧ SizesAddUp 4 twoPages) ∧ ¬ SizesAddUp 3 oneOfThree := by
  refine ⟨(pool_conserved_iff 4).2.2 (.inr ⟨2, rfl⟩) _ _ twoPages_run, ?_⟩
  intro hsum
  have he := ((pool_conserved_iff 3).1 _ _ oneOfThree_run).2.1 hsum
  exact absurd (he 0 3 _ _ List.mem_cons_self) (by decide)

end Eece4029
