import Mathlib.Algebra.Order.Ring.Nat
import Mathlib.Data.List.Find
import Mathlib.Data.List.Pairwise
import Mathlib.Tactic.Common

/-!
# Address ranges and their repeated halving

A `Region` is a range of `len` addresses from `start`. Halving a region `k` times gives the list
`Region.halvings k`, in address order, of `2 ^ k` regions of the same length; where a length is odd
its last address falls out of both halves. `Region.firstFit` is the first of them that is disjoint
from every region of a list, so the abstract meaning of a first-fit search over equal blocks.
`Region.cover` counts the regions of a list that have an address.
-/

/-- The `len` addresses from `start`. -/
structure Region where
  start : Nat
  len : Nat
deriving DecidableEq, Repr

namespace Region

/-- `a` is an address of `b`. -/
def Has (b : Region) (a : Int) : Prop := (b.start : Int) ≤ a ∧ a < b.start + b.len

instance (b : Region) (a : Int) : Decidable (b.Has a) := inferInstanceAs (Decidable (_ ∧ _))

/-- Two regions without a common address. -/
def Disjoint (b c : Region) : Prop := ∀ a, b.Has a → ¬ c.Has a

/-- Every address of `c` is inside the bounds of `b`. -/
def Inside (c b : Region) : Prop := b.start ≤ c.start ∧ c.start + c.len ≤ b.start + b.len

/-- `b` ends before `c` starts. -/
def Before (b c : Region) : Prop := b.start + b.len ≤ c.start

/-- The lower half of a region, of half its length rounded down. -/
def left (b : Region) : Region := ⟨b.start, b.len / 2⟩

/-- The upper half of a region, of half its length rounded down. -/
def right (b : Region) : Region := ⟨b.start + b.len / 2, b.len / 2⟩

variable {b c d : Region}

@[simp] theorem left_start : b.left.start = b.start := rfl
@[simp] theorem left_len : b.left.len = b.len / 2 := rfl
@[simp] theorem right_start : b.right.start = b.start + b.len / 2 := rfl
@[simp] theorem right_len : b.right.len = b.len / 2 := rfl

/-! ## Disjointness -/

/-- Disjointness by the bounds: an empty region is disjoint from every other. -/
theorem disjoint_iff : b.Disjoint c ↔ b.len = 0 ∨ c.len = 0 ∨ b.Before c ∨ c.Before b := by
  constructor
  · intro h
    have h1 := h b.start
    have h2 := h c.start
    simp only [Has, Before] at *
    omega
  · intro h a hb hc
    simp only [Has, Before] at *
    omega

instance (b c : Region) : Decidable (b.Before c) := inferInstanceAs (Decidable (_ ≤ _))

instance (b c : Region) : Decidable (b.Disjoint c) := decidable_of_iff _ disjoint_iff.symm

theorem Disjoint.symm (h : b.Disjoint c) : c.Disjoint b := fun a hc hb => h a hb hc

instance : Std.Symm Disjoint := ⟨fun _ _ h => h.symm⟩

theorem Before.disjoint (h : b.Before c) : b.Disjoint c := disjoint_iff.2 (.inr (.inr (.inl h)))

theorem Inside.refl : b.Inside b := ⟨Nat.le_refl _, Nat.le_refl _⟩

theorem Inside.trans (h : b.Inside c) (h' : c.Inside d) : b.Inside d := by
  simp only [Inside] at *
  omega

theorem Inside.has {a : Int} (h : c.Inside b) (hc : c.Has a) : b.Has a := by
  simp only [Inside, Has] at *
  omega

/-- A nonempty region inside another one is not disjoint from it. -/
theorem Inside.not_disjoint (h : c.Inside b) (hc : 0 < c.len) : ¬ c.Disjoint b := fun hd =>
  have hs : c.Has c.start := ⟨Int.le_refl _, by omega⟩
  hd c.start hs (h.has hs)

theorem left_inside : b.left.Inside b := by
  simp only [Inside, left]
  omega

theorem right_inside : b.right.Inside b := by
  simp only [Inside, right]
  omega

/-- What lies inside the lower half ends before what lies inside the upper half. -/
theorem before_of_halves (hc : c.Inside b.left) (hd : d.Inside b.right) : c.Before d := by
  simp only [Inside, Before, left, right] at *
  omega

/-! ## Halving `k` times -/

/-- The blocks that halving a region `k` times gives, in address order. -/
def halvings : Nat → Region → List Region
  | 0, b => [b]
  | k + 1, b => halvings k b.left ++ halvings k b.right

theorem halvings_len : ∀ {k : Nat} {b c : Region}, c ∈ b.halvings k → c.len = b.len / 2 ^ k
  | 0, b, c, h => by simp [halvings] at h; simp [h]
  | k + 1, b, c, h => by
    rw [Nat.pow_succ', ← Nat.div_div_eq_div_mul]
    rcases List.mem_append.1 h with h | h
    · exact halvings_len h
    · exact halvings_len h

theorem halvings_inside : ∀ {k : Nat} {b c : Region}, c ∈ b.halvings k → c.Inside b
  | 0, b, c, h => by simp [halvings] at h; exact h ▸ Inside.refl
  | k + 1, b, c, h => by
    rcases List.mem_append.1 h with h | h
    · exact (halvings_inside h).trans left_inside
    · exact (halvings_inside h).trans right_inside

/-- The blocks of one level are listed by ascending address and do not overlap. -/
theorem halvings_pairwise : ∀ (k : Nat) (b : Region), (b.halvings k).Pairwise Before
  | 0, b => by simp [halvings]
  | k + 1, b => List.pairwise_append.2 ⟨halvings_pairwise k b.left, halvings_pairwise k b.right,
      fun _ hc _ hd => before_of_halves (halvings_inside hc) (halvings_inside hd)⟩

/-- The lowest block starts where the region starts. -/
theorem halvings_head : ∀ (k : Nat) (b : Region),
    ∃ tl, b.halvings k = ⟨b.start, b.len / 2 ^ k⟩ :: tl
  | 0, b => ⟨[], by simp [halvings]⟩
  | k + 1, b => by
    obtain ⟨tl, h⟩ := halvings_head k b.left
    exact ⟨tl ++ b.right.halvings k, by
      rw [Nat.pow_succ', ← Nat.div_div_eq_div_mul, halvings, h]; rfl⟩

/-! ## First fit -/

/-- The lowest level-`k` block of `b` that is disjoint from every region of `taken`. -/
def firstFit (k : Nat) (b : Region) (taken : List Region) : Option Region :=
  (b.halvings k).find? fun c => ∀ p ∈ taken, c.Disjoint p

/-- First fit fails exactly when no block is disjoint from every taken region. -/
theorem firstFit_eq_none {k : Nat} {taken : List Region} :
    firstFit k b taken = none ↔ ∀ c ∈ b.halvings k, ¬ ∀ p ∈ taken, c.Disjoint p := by
  simp [firstFit, List.find?_eq_none]

/-- First fit finds a block disjoint from every taken region, and no such block starts lower. -/
theorem firstFit_eq_some {k : Nat} {taken : List Region} (h : firstFit k b taken = some c) :
    c ∈ b.halvings k ∧ (∀ p ∈ taken, c.Disjoint p) ∧
      ∀ d ∈ b.halvings k, (∀ p ∈ taken, d.Disjoint p) → c.start ≤ d.start := by
  obtain ⟨hc, lo, hi, heq, hlo⟩ := List.find?_eq_some_iff_append.1 h
  have hc' : ∀ p ∈ taken, c.Disjoint p := by simpa using hc
  refine ⟨by simp [heq], hc', ?_⟩
  intro d hd hfree
  have hpw := halvings_pairwise k b
  rw [heq] at hd hpw
  rcases List.mem_append.1 hd with hd | hd
  · have := hlo d hd
    simp only [Bool.not_eq_true', decide_eq_false_iff_not] at this
    exact absurd hfree this
  · rcases List.mem_cons.1 hd with rfl | hd
    · exact Nat.le_refl _
    · have hb : c.Before d := List.rel_of_pairwise_cons (List.pairwise_append.1 hpw).2.1 hd
      exact Nat.le_trans (Nat.le_add_right _ _) hb

/-- Halving once more searches the lower half and, where it has no fit, the upper half. -/
theorem firstFit_succ (k : Nat) (b : Region) (taken : List Region) :
    firstFit (k + 1) b taken = (firstFit k b.left taken).or (firstFit k b.right taken) := by
  simp [firstFit, halvings, List.find?_append]

/-- First fit depends on the taken regions only through the blocks they leave free. -/
theorem firstFit_congr {k : Nat} {taken taken' : List Region}
    (h : ∀ c : Region, c.Inside b → ((∀ p ∈ taken, c.Disjoint p) ↔ ∀ p ∈ taken', c.Disjoint p)) :
    firstFit k b taken = firstFit k b taken' :=
  List.find?_congr fun c hc => decide_eq_decide.2 (h c (halvings_inside hc))

/-! ## Coverage -/

/-- The number of regions of a list that have the address. -/
def cover (bs : List Region) (a : Int) : Nat := bs.countP fun c => c.Has a

theorem cover_append (bs cs : List Region) (a : Int) :
    cover (bs ++ cs) a = cover bs a + cover cs a := List.countP_append

/-- Regions inside another one cover no address outside of it. -/
theorem cover_eq_zero {bs : List Region} {a : Int} (h : ∀ c ∈ bs, c.Inside b) (ha : ¬ b.Has a) :
    cover bs a = 0 := by
  refine List.countP_eq_zero.2 ?_
  intro c hc hca
  exact ha ((h c hc).has (of_decide_eq_true hca))

/-- An address is not in both halves. -/
theorem not_has_right {a : Int} (h : b.left.Has a) : ¬ b.right.Has a := by
  simp only [Has, left, right] at *
  omega

/-- The addresses of a region of even length are those of its halves. -/
theorem has_halves {a : Int} (h : b.len % 2 = 0) : b.Has a ↔ b.left.Has a ∨ b.right.Has a := by
  simp only [Has, left, right]
  omega

/-- The last address of a region of odd length is in neither half. -/
theorem last_not_has (h : b.len % 2 = 1) : b.Has (b.start + b.len - 1) ∧
    ¬ b.left.Has (b.start + b.len - 1) ∧ ¬ b.right.Has (b.start + b.len - 1) := by
  simp only [Has, left, right]
  omega

end Region
