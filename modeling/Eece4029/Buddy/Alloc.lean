import Eece4029.Buddy.Tree

/-!
# `_buddy_alloc` finds the first fit

The recursion of `_buddy_alloc` takes the first free leaf that is large enough and halves it down to
the smallest block that still holds the request. Over a tree with coalesced free space this is first
fit over the blocks of one level: with `k` the largest level whose blocks hold the request, the call
returns the start of `Region.firstFit k` of the pages and makes that block a page, or it returns
`-1` and leaves the tree as it was (`BuddyTree.alloc_firstFit`). The call returns for every positive
request (`BuddyTree.alloc_returns`), and for no other one while a leaf is free
(`BuddyTree.alloc_nonpos`).
-/

namespace Eece4029

namespace BuddyTree

open Node

variable {b p : Region} {l l' r r' t t' : Node} {k : Nat} {size rt : Int}

/-! ## Requests that find no page -/

/-- A request larger than the region fails and leaves the tree as it was. -/
theorem alloc_too_big (ht : BuddyTree b t) (hs : (b.len : Int) < size) :
    AllocReturns t size rt t' ↔ rt = -1 ∧ t' = t := by
  induction ht generalizing rt t' with
  | free b =>
    rw [allocReturns_free]
    constructor
    · rintro (⟨-, h⟩ | ⟨hle, -⟩ | ⟨hle, -⟩)
      · exact h
      · omega
      · omega
    · exact fun h => .inl ⟨hs, h⟩
  | alloc b _ => exact allocReturns_alloc
  | split b _ _ _ ihl ihr =>
    have hs' : ((b.len / 2 : Nat) : Int) < size := by omega
    rw [allocReturns_split]
    constructor
    · rintro (⟨l', hl, hrt, rfl⟩ | ⟨rtl, l', r', hl, -, hr, rfl⟩)
      · have := ((ihl hs').1 hl).1
        omega
      · obtain ⟨-, rfl⟩ := (ihl hs').1 hl
        obtain ⟨rfl, rfl⟩ := (ihr hs').1 hr
        exact ⟨rfl, rfl⟩
    · rintro ⟨rfl, rfl⟩
      exact .inr ⟨-1, _, _, (ihl hs').2 ⟨rfl, rfl⟩, by decide, (ihr hs').2 ⟨rfl, rfl⟩, rfl⟩

/-- A request that is not positive returns only where no leaf is free; then it fails and leaves the
tree as it was. -/
theorem alloc_nonpos (ht : BuddyTree b t) (hs : size ≤ 0) (h : AllocReturns t size rt t') :
    rt = -1 ∧ t' = t := by
  induction ht generalizing rt t' with
  | free b => exact absurd h (not_allocReturns_free hs)
  | alloc b _ => exact allocReturns_alloc.1 h
  | split b _ _ _ ihl ihr =>
    rcases allocReturns_split.1 h with ⟨l', hl, hrt, rfl⟩ | ⟨rtl, l', r', hl, -, hr, rfl⟩
    · have := (ihl hl).1
      omega
    · obtain ⟨-, rfl⟩ := ihl hl
      obtain ⟨rfl, rfl⟩ := ihr hr
      exact ⟨rfl, rfl⟩

/-! ## First fit in a tree -/

/-- No nonempty block of a page is free. -/
theorem firstFit_alloc (h : 0 < b.len / 2 ^ k) : Region.firstFit k b [b] = none := by
  refine Region.firstFit_eq_none.2 ?_
  intro c hc hfree
  exact (Region.halvings_inside hc).not_disjoint (Region.halvings_len hc ▸ h)
    (hfree b (List.mem_singleton_self b))

/-- The lowest block of a free region is the first fit. -/
theorem firstFit_nil : Region.firstFit k b [] = some ⟨b.start, b.len / 2 ^ k⟩ := by
  obtain ⟨tl, h⟩ := Region.halvings_head k b
  simp [Region.firstFit, h]

/-- A split has no free block of its own size. -/
theorem firstFit_split_zero (h : BuddyTree b (.split b.start b.len l r)) :
    Region.firstFit 0 b (l.pages ++ r.pages) = none := by
  obtain ⟨p, hp, hi, hlen⟩ := h.exists_page
  refine Region.firstFit_eq_none.2 ?_
  intro c hc hfree
  simp only [Region.halvings, List.mem_singleton] at hc
  subst hc
  exact hi.not_disjoint hlen (hfree p hp).symm

/-- Below its own size a split's first fit is the left child's, and the right child's where the left
one has none. -/
theorem firstFit_split_succ (hl : BuddyTree b.left l) (hr : BuddyTree b.right r) :
    Region.firstFit (k + 1) b (l.pages ++ r.pages) =
      (Region.firstFit k b.left l.pages).or (Region.firstFit k b.right r.pages) := by
  rw [Region.firstFit_succ]
  congr 1
  · refine Region.firstFit_congr fun c hc => ⟨fun h p hp => h p (by simp [hp]), fun h p hp => ?_⟩
    rcases List.mem_append.1 hp with hp | hp
    · exact h p hp
    · exact (Region.before_of_halves hc (hr.pages_inside p hp).1).disjoint
  · refine Region.firstFit_congr fun c hc => ⟨fun h p hp => h p (by simp [hp]), fun h p hp => ?_⟩
    rcases List.mem_append.1 hp with hp | hp
    · exact (Region.before_of_halves (hl.pages_inside p hp).1 hc).disjoint.symm
    · exact h p hp

/-! ## The result of an allocation -/

/-- What a call of `_buddy_alloc` on the tree `t` returns and leaves, given the block that first fit
finds: that block becomes a page, or nothing changes. -/
inductive AllocResult (b : Region) (t : Node) : Option Region → Int → Node → Prop
  | fail : AllocResult b t none (-1) t
  | page {p : Region} {t' : Node} (lo hi : List Region) (ht : BuddyTree b t')
      (hp : t.pages = lo ++ hi) (hp' : t'.pages = lo ++ p :: hi) :
      AllocResult b t (some p) p.start t'

/-- A call fails and changes nothing where there is no first fit, and makes it a page otherwise. -/
theorem AllocResult.inv {fit : Option Region} (h : AllocResult b t fit rt t') :
    (fit = none ∧ rt = -1 ∧ t' = t) ∨ ∃ p lo hi, fit = some p ∧ rt = p.start ∧ BuddyTree b t' ∧
      t.pages = lo ++ hi ∧ t'.pages = lo ++ p :: hi := by
  cases h with
  | fail => exact .inl ⟨rfl, rfl, rfl⟩
  | page lo hi ht' hp hp' => exact .inr ⟨_, lo, hi, rfl, rfl, ht', hp, hp'⟩

/-- A page made in the left child of a split is made in the split. -/
theorem AllocResult.left (hr : BuddyTree b.right r) (h : AllocResult b.left l (some p) rt l') :
    AllocResult b (.split b.start b.len l r) (some p) rt (.split b.start b.len l' r) := by
  cases h with
  | page lo hi hl' hp hp' =>
    refine .page lo (hi ++ r.pages) (.split b hl' hr ?_) ?_ ?_
    · intro hst
      have := hl'.pages_eq_nil.2 hst.1
      simp [hp'] at this
    · simp [hp]
    · simp [hp']

/-- A page made in the right child of a split is made in the split. -/
theorem AllocResult.right (hl : BuddyTree b.left l) (h : AllocResult b.right r (some p) rt r') :
    AllocResult b (.split b.start b.len l r) (some p) rt (.split b.start b.len l r') := by
  cases h with
  | page lo hi hr' hp hp' =>
    refine .page (l.pages ++ lo) hi (.split b hl hr' ?_) ?_ ?_
    · intro hst
      have := hr'.pages_eq_nil.2 hst.2
      simp [hp'] at this
    · simp [hp]
    · simp [hp']

/-- A page made in the left half of a free region is made in the region. -/
theorem AllocResult.half (h : AllocResult b.left (.free b.start (b.len / 2)) (some p) rt l') :
    AllocResult b (.free b.start b.len) (some p) rt
      (.split b.start b.len l' (.free (b.start + b.len / 2) (b.len / 2))) := by
  cases h with
  | page lo hi hl' hp hp' =>
    refine .page lo hi (.split b hl' (.free b.right) ?_) hp ?_
    · intro hst
      have := hl'.pages_eq_nil.2 hst.1
      simp [hp'] at this
    · simp [hp']

/-- **A returned call of `_buddy_alloc` is first fit** over the blocks of the largest level `k` that
holds the request. -/
theorem alloc_firstFit (ht : BuddyTree b t) (h0 : 0 < size)
    (hk : size ≤ ((b.len / 2 ^ k : Nat) : Int)) (hk' : ((b.len / 2 ^ (k + 1) : Nat) : Int) < size)
    (h : AllocReturns t size rt t') :
    AllocResult b t (Region.firstFit k b t.pages) rt t' := by
  induction k generalizing b t rt t' with
  | zero =>
    rw [Nat.pow_zero, Nat.div_one] at hk
    rw [Nat.zero_add, Nat.pow_one] at hk'
    cases ht with
    | free =>
      rw [pages_free, firstFit_nil, Nat.pow_zero, Nat.div_one]
      rcases allocReturns_free.1 h with ⟨hlt, -⟩ | ⟨hhalf, -⟩ | ⟨-, -, rfl, rfl⟩
      · omega
      · omega
      · exact .page [] [] (.alloc b (by omega)) rfl rfl
    | alloc _ hb =>
      obtain ⟨rfl, rfl⟩ := allocReturns_alloc.1 h
      rw [pages_alloc, firstFit_alloc (by simpa using hb)]
      exact .fail
    | split _ hl hr hne =>
      -- both children are too small
      rw [pages_split, firstFit_split_zero (.split b hl hr hne)]
      rcases allocReturns_split.1 h with ⟨l', hl', hrt, rfl⟩ | ⟨rtl, l', r', hl', -, hr', rfl⟩
      · have := ((hl.alloc_too_big hk').1 hl').1
        omega
      · obtain ⟨-, rfl⟩ := (hl.alloc_too_big hk').1 hl'
        obtain ⟨rfl, rfl⟩ := (hr.alloc_too_big hk').1 hr'
        exact .fail
  | succ k ih =>
    rw [Nat.pow_succ', ← Nat.div_div_eq_div_mul] at hk hk'
    have hhalf : size ≤ ((b.len / 2 : Nat) : Int) := by
      have := Nat.div_le_self (b.len / 2) (2 ^ k)
      omega
    cases ht with
    | free =>
      rw [pages_free, firstFit_nil, Nat.pow_succ', ← Nat.div_div_eq_div_mul]
      rcases allocReturns_free.1 h with ⟨hlt, -⟩ | ⟨-, l', hl', rfl⟩ | ⟨-, hlt, -⟩
      · omega
      · have hres := ih (b := b.left) (.free b.left) hk hk' hl'
        rw [pages_free, firstFit_nil] at hres
        exact hres.half
      · omega
    | alloc _ hb =>
      obtain ⟨rfl, rfl⟩ := allocReturns_alloc.1 h
      rw [pages_alloc, firstFit_alloc (by rw [Nat.pow_succ', ← Nat.div_div_eq_div_mul]; omega)]
      exact .fail
    | @split _ l r hl hr hne =>
      rw [pages_split, firstFit_split_succ hl hr]
      rcases allocReturns_split.1 h with ⟨l', hl', hrt, rfl⟩ | ⟨rtl, l', r', hl', hrt, hr', rfl⟩
      · have hres := ih hl hk hk' hl'
        rcases hres.inv with ⟨-, rfl, -⟩ | ⟨p, _, _, hfit, -⟩
        · omega
        · rw [hfit] at hres ⊢
          exact hres.left hr
      · rcases (ih hl hk hk' hl').inv with ⟨hnone, -, rfl⟩ | ⟨p, _, _, -, rfl, -⟩
        · have hres := ih hr hk hk' hr'
          rw [hnone, Option.none_or]
          rcases hres.inv with ⟨hnone', rfl, rfl⟩ | ⟨p, _, _, hfit, -⟩
          · rw [hnone']
            exact .fail
          · rw [hfit] at hres ⊢
            exact hres.right hl
        · omega

/-! ## Every positive request returns -/

/-- A positive request on a free region returns. -/
theorem alloc_free_returns (h0 : 0 < size) (idx sz : Nat) :
    ∃ rt t', AllocReturns (.free idx sz) size rt t' := by
  induction sz using Nat.strongRecOn with
  | ind sz ih =>
    by_cases hlt : (sz : Int) < size
    · exact ⟨_, _, allocReturns_free.2 (.inl ⟨hlt, rfl, rfl⟩)⟩
    · by_cases hhalf : size ≤ ((sz / 2 : Nat) : Int)
      · obtain ⟨rt, l', h⟩ := ih (sz / 2) (by omega)
        exact ⟨_, _, allocReturns_free.2 (.inr (.inl ⟨hhalf, l', h, rfl⟩))⟩
      · exact ⟨_, _, allocReturns_free.2
          (.inr (.inr ⟨Int.not_lt.1 hlt, Int.not_le.1 hhalf, rfl, rfl⟩))⟩

/-- A positive request returns on every tree. -/
theorem alloc_returns (h0 : 0 < size) : ∀ t : Node, ∃ rt t', AllocReturns t size rt t'
  | .free idx sz => alloc_free_returns h0 idx sz
  | .alloc _ _ => ⟨_, _, allocReturns_alloc.2 ⟨rfl, rfl⟩⟩
  | .split idx sz l r => by
    obtain ⟨rtl, l', hl⟩ := alloc_returns h0 l
    by_cases hrt : 0 ≤ rtl
    · exact ⟨_, _, allocReturns_split.2 (.inl ⟨l', hl, hrt, rfl⟩)⟩
    · obtain ⟨rtr, r', hr⟩ := alloc_returns h0 r
      exact ⟨_, _, allocReturns_split.2 (.inr ⟨rtl, l', r', hl, Int.not_le.1 hrt, hr, rfl⟩)⟩

/-- A positive request that fits has a largest level whose blocks hold it. -/
theorem exists_level (h0 : 0 < size) (hs : size ≤ (b.len : Int)) :
    ∃ k, size ≤ ((b.len / 2 ^ k : Nat) : Int) ∧ ((b.len / 2 ^ (k + 1) : Nat) : Int) < size := by
  by_contra hno
  have hall : ∀ k, size ≤ ((b.len / 2 ^ k : Nat) : Int) := by
    intro k
    induction k with
    | zero => simpa using hs
    | succ k ih => exact Int.not_lt.1 fun hlt => hno ⟨k, ih, hlt⟩
  have hlast := hall b.len
  rw [Nat.div_eq_of_lt b.len.lt_two_pow_self] at hlast
  omega

/-- Every returned call of `_buddy_alloc` fails and changes nothing, or makes one page that holds
the request. -/
theorem alloc_spec (ht : BuddyTree b t) (h : AllocReturns t size rt t') :
    (rt = -1 ∧ t' = t) ∨ ∃ p lo hi, rt = p.start ∧ size ≤ (p.len : Int) ∧ BuddyTree b t' ∧
      t.pages = lo ++ hi ∧ t'.pages = lo ++ p :: hi := by
  rcases Int.lt_or_le 0 size with h0 | h0
  · rcases Int.lt_or_le b.len size with hs | hs
    · exact .inl ((ht.alloc_too_big hs).1 h)
    · obtain ⟨k, hk, hk'⟩ := exists_level h0 hs
      rcases (ht.alloc_firstFit h0 hk hk' h).inv with
        ⟨-, hfail⟩ | ⟨p, lo, hi, hfit, hrt, ht', hp, hp'⟩
      · exact .inl hfail
      · have hlen := Region.halvings_len (Region.firstFit_eq_some hfit).1
        exact .inr ⟨p, lo, hi, hrt, by omega, ht', hp, hp'⟩
  · exact .inl (ht.alloc_nonpos h0 h)

end BuddyTree

end Eece4029
