import Eece4029.Lib.Region
import Mathlib.Tactic.Linarith

/-!
# The tree of the buddy allocator

`hw5_vmm/buddy.c` keeps the pool as a binary tree of `node_t`. A node is read through its `left` and
`right` pointers only while its state is `SPLIT`, so `Node` has one constructor per state and the
children belong to `SPLIT` alone. `buddy_init` asks for the pool in bytes, and a negative number is
more than there can be as an unsigned one, so the pool sizes with which it succeeds are `≥ 0`;
halving and adding below them stays in the range of `int`, so `idx` and `size` are natural numbers.
Requests and results, which may be negative, are integers.

`_buddy_alloc` splits a free node for ever when the request is not positive, so `Node.buddyAlloc`
counts the depth of the recursion down from `fuel` and is `none` where that runs out:
`Node.AllocReturns` is "the call returns".
-/

namespace Eece4029

/-- `enum node_state`. -/
inductive NodeState
  | FREE
  | SPLIT
  | ALLOC
deriving DecidableEq, Repr

/-- `struct node_t`: the index into the pool and the number of bytes, in each of the three states;
a `SPLIT` node has its two buddies below it. -/
inductive Node
  | free (idx size : Nat)
  | split (idx size : Nat) (left right : Node)
  | alloc (idx size : Nat)
deriving DecidableEq, Repr

namespace Node

/-- `n->state`. -/
def state : Node → NodeState
  | .free .. => .FREE
  | .split .. => .SPLIT
  | .alloc .. => .ALLOC

@[simp] theorem state_free (idx size : Nat) : (free idx size).state = .FREE := rfl
@[simp] theorem state_split (idx size : Nat) (l r : Node) :
    (split idx size l r).state = .SPLIT := rfl
@[simp] theorem state_alloc (idx size : Nat) : (alloc idx size).state = .ALLOC := rfl

/-- The head node that `buddy_init(size)` makes when both of its allocations succeed. -/
def init (size : Nat) : Node := .free 0 size

/-- `buddy_init`: its result and the tree, where `poolOk` and `headOk` say whether the two calls of
`bmalloc` succeed. -/
def buddyInit (size : Nat) (poolOk headOk : Bool) : Int × Option Node :=
  if !poolOk then (-1, none)
  else if !headOk then (-1, none)
  else (0, some (init size))

/-- `_buddy_alloc`: the result and the tree it leaves, `none` when the recursion is deeper than
`fuel`. The calls of `bmalloc` succeed. -/
def buddyAlloc : Nat → Node → Int → Option (Int × Node)
  | 0, _, _ => none
  | fuel + 1, .split idx sz left right, size => do
    -- the left side first, the right side only if that was not successful
    let (rt, left') ← buddyAlloc fuel left size
    if 0 ≤ rt then
      return (rt, .split idx sz left' right)
    else
      let (rt', right') ← buddyAlloc fuel right size
      return (rt', .split idx sz left' right')
  | _ + 1, .alloc idx sz, _ => some (-1, .alloc idx sz)
  | fuel + 1, .free idx sz, size =>
    if (sz : Int) < size then
      some (-1, .free idx sz)
    else if size ≤ ((sz / 2 : Nat) : Int) then do
      -- both halves are made before the recursion descends into the left one
      let (rt, left') ← buddyAlloc fuel (.free idx (sz / 2)) size
      return (rt, .split idx sz left' (.free (idx + sz / 2) (sz / 2)))
    else
      some (idx, .alloc idx sz)

/-- `_buddy_alloc(t, size)` returns `rt` and leaves `t'`. -/
def AllocReturns (t : Node) (size rt : Int) (t' : Node) : Prop :=
  ∃ fuel, buddyAlloc fuel t size = some (rt, t')

/-- `_buddy_free`: the result and the tree it leaves. Both sides are searched and a split whose two
children are free is merged whether or not a page was freed below it. -/
def buddyFree : Node → Int → Int × Node
  | .split idx sz left right, i =>
    let (rtLeft, left') := buddyFree left i
    let (rtRight, right') := buddyFree right i
    (if rtLeft = 0 ∨ rtRight = 0 then 0 else -1,
      if left'.state = .FREE ∧ right'.state = .FREE then .free idx sz
      else .split idx sz left' right')
  | .alloc idx sz, i => if (idx : Int) = i then (0, .free idx sz) else (-1, .alloc idx sz)
  | .free idx sz, _ => (-1, .free idx sz)

/-- `_buddy_size`: the number of bytes from `i` to the end of its page, the right side first. -/
def buddySize : Node → Int → Int
  | .split _ _ left right, i =>
    let rt := buddySize right i
    if rt < 0 then buddySize left i else rt
  | .alloc idx sz, i => if (idx : Int) ≤ i ∧ i < idx + sz then (idx + sz) - i else -1
  | .free _ _, _ => -1

/-- The pages in use: the `ALLOC` leaves, from left to right. -/
def pages : Node → List Region
  | .free .. => []
  | .split _ _ left right => left.pages ++ right.pages
  | .alloc idx sz => [⟨idx, sz⟩]

@[simp] theorem pages_free (idx size : Nat) : (free idx size).pages = [] := rfl
@[simp] theorem pages_split (idx size : Nat) (l r : Node) :
    (split idx size l r).pages = l.pages ++ r.pages := rfl
@[simp] theorem pages_alloc (idx size : Nat) : (alloc idx size).pages = [⟨idx, size⟩] := rfl

/-! ## The depth of the recursion -/

/-- More fuel does not change a returned call. -/
theorem buddyAlloc_mono : ∀ {fuel fuel' : Nat} {t : Node} {size : Int} {x : Int × Node},
    fuel ≤ fuel' → buddyAlloc fuel t size = some x → buddyAlloc fuel' t size = some x
  | 0, _, _, _, _, _, h => nomatch h
  | fuel + 1, 0, _, _, _, hle, _ => nomatch hle
  | fuel + 1, fuel' + 1, .alloc .., _, _, _, h => h
  | fuel + 1, fuel' + 1, .free idx sz, size, x, hle, h => by
    have hle' : fuel ≤ fuel' := Nat.le_of_succ_le_succ hle
    simp only [buddyAlloc] at h ⊢
    split
    · next hlt => rw [if_pos hlt] at h; exact h
    · next hlt =>
      rw [if_neg hlt] at h
      split
      · next hhalf =>
        rw [if_pos hhalf] at h
        obtain ⟨y, hy, hx⟩ := Option.bind_eq_some_iff.1 h
        exact Option.bind_eq_some_iff.2 ⟨y, buddyAlloc_mono hle' hy, hx⟩
      · next hhalf => rw [if_neg hhalf] at h; exact h
  | fuel + 1, fuel' + 1, .split idx sz l r, size, x, hle, h => by
    have hle' : fuel ≤ fuel' := Nat.le_of_succ_le_succ hle
    simp only [buddyAlloc] at h ⊢
    obtain ⟨y, hy, hx⟩ := Option.bind_eq_some_iff.1 h
    refine Option.bind_eq_some_iff.2 ⟨y, buddyAlloc_mono hle' hy, ?_⟩
    split
    · next hrt => rw [if_pos hrt] at hx; exact hx
    · next hrt =>
      rw [if_neg hrt] at hx
      obtain ⟨z, hz, hx⟩ := Option.bind_eq_some_iff.1 hx
      exact Option.bind_eq_some_iff.2 ⟨z, buddyAlloc_mono hle' hz, hx⟩

/-! ## The rules of a returned call -/

variable {idx sz : Nat} {l r t' : Node} {size rt : Int}

/-- On a page in use the call fails. -/
theorem allocReturns_alloc : AllocReturns (.alloc idx sz) size rt t' ↔
    rt = -1 ∧ t' = .alloc idx sz := by
  constructor
  · rintro ⟨_ | fuel, h⟩
    · cases h
    · cases h; exact ⟨rfl, rfl⟩
  · rintro ⟨rfl, rfl⟩
    exact ⟨1, rfl⟩

/-- On a split the call is the left child's, and the right child's where the left one fails. -/
theorem allocReturns_split : AllocReturns (.split idx sz l r) size rt t' ↔
    (∃ l', AllocReturns l size rt l' ∧ 0 ≤ rt ∧ t' = .split idx sz l' r) ∨
    ∃ rtl l' r', AllocReturns l size rtl l' ∧ rtl < 0 ∧ AllocReturns r size rt r' ∧
      t' = .split idx sz l' r' := by
  constructor
  · rintro ⟨_ | fuel, h⟩
    · cases h
    · obtain ⟨⟨rtl, l'⟩, hl, h⟩ := Option.bind_eq_some_iff.1 h
      dsimp only at h
      by_cases hrt : 0 ≤ rtl
      · rw [if_pos hrt] at h
        cases h
        exact .inl ⟨l', ⟨fuel, hl⟩, hrt, rfl⟩
      · rw [if_neg hrt] at h
        obtain ⟨⟨rtr, r'⟩, hr, h⟩ := Option.bind_eq_some_iff.1 h
        cases h
        exact .inr ⟨rtl, l', r', ⟨fuel, hl⟩, Int.not_le.1 hrt, ⟨fuel, hr⟩, rfl⟩
  · rintro (⟨l', ⟨fuel, hl⟩, hrt, rfl⟩ | ⟨rtl, l', r', ⟨fl, hl⟩, hrt, ⟨fr, hr⟩, rfl⟩)
    · exact ⟨fuel + 1, Option.bind_eq_some_iff.2 ⟨(rt, l'), hl, if_pos hrt⟩⟩
    · refine ⟨max fl fr + 1, Option.bind_eq_some_iff.2
        ⟨(rtl, l'), buddyAlloc_mono (Nat.le_max_left fl fr) hl, ?_⟩⟩
      dsimp only
      rw [if_neg (Int.not_le.2 hrt)]
      exact Option.bind_eq_some_iff.2 ⟨(rt, r'), buddyAlloc_mono (Nat.le_max_right fl fr) hr, rfl⟩

/-- A free node that is too small fails, one whose half is large enough is split, and any other one
becomes a page. -/
theorem allocReturns_free : AllocReturns (.free idx sz) size rt t' ↔
    ((sz : Int) < size ∧ rt = -1 ∧ t' = .free idx sz) ∨
    (size ≤ ((sz / 2 : Nat) : Int) ∧ ∃ l', AllocReturns (.free idx (sz / 2)) size rt l' ∧
      t' = .split idx sz l' (.free (idx + sz / 2) (sz / 2))) ∨
    (size ≤ (sz : Int) ∧ ((sz / 2 : Nat) : Int) < size ∧ rt = idx ∧ t' = .alloc idx sz) := by
  constructor
  · rintro ⟨_ | fuel, h⟩
    · cases h
    · simp only [buddyAlloc] at h
      by_cases hlt : (sz : Int) < size
      · rw [if_pos hlt] at h
        cases h
        exact .inl ⟨hlt, rfl, rfl⟩
      · rw [if_neg hlt] at h
        by_cases hhalf : size ≤ ((sz / 2 : Nat) : Int)
        · rw [if_pos hhalf] at h
          obtain ⟨⟨rtl, l'⟩, hl, h⟩ := Option.bind_eq_some_iff.1 h
          cases h
          exact .inr (.inl ⟨hhalf, l', ⟨fuel, hl⟩, rfl⟩)
        · rw [if_neg hhalf] at h
          cases h
          exact .inr (.inr ⟨Int.not_lt.1 hlt, Int.not_le.1 hhalf, rfl, rfl⟩)
  · rintro (⟨hlt, rfl, rfl⟩ | ⟨hhalf, l', ⟨fuel, hl⟩, rfl⟩ | ⟨hle, hhalf, rfl, rfl⟩)
    · exact ⟨1, by simp only [buddyAlloc, if_pos hlt]⟩
    · have hlt : ¬ (sz : Int) < size := by omega
      refine ⟨fuel + 1, ?_⟩
      simp only [buddyAlloc, if_neg hlt, if_pos hhalf]
      exact Option.bind_eq_some_iff.2 ⟨(rt, l'), hl, rfl⟩
    · exact ⟨1, by simp only [buddyAlloc, if_neg (Int.not_lt.2 hle), if_neg (Int.not_le.2 hhalf)]⟩

/-- With a request that is not positive a free node is split for ever. -/
theorem not_allocReturns_free (hs : size ≤ 0) : ¬ AllocReturns (.free idx sz) size rt t' := by
  rintro ⟨fuel, h⟩
  induction fuel generalizing idx sz rt t' with
  | zero => cases h
  | succ fuel ih =>
    have hlt : ¬ (sz : Int) < size := by omega
    have hhalf : size ≤ ((sz / 2 : Nat) : Int) := by omega
    simp only [buddyAlloc, if_neg hlt, if_pos hhalf] at h
    obtain ⟨⟨rtl, l'⟩, hl, h⟩ := Option.bind_eq_some_iff.1 h
    exact ih hl

end Node

end Eece4029
