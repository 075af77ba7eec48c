import Eece4029.Buddy.Ownership
import Mathlib.Data.Nat.Log

/-!
# When `bmalloc` fails inside `_buddy_alloc`

`buddy_init` looks at what `bmalloc` returned, `_buddy_alloc` does not: a split marks the node,
makes its two children and writes through both pointers. `Node.splits` counts the splits of a
request: it halves the first free node that holds the request (`Node.fit`) as long as the half holds
it too. If all of its calls of `bmalloc` succeed the request is the one of the tree, and if one of
them fails it stops at an access through `NULL`, with the splits above it already in the tree. So
the request is handled exactly when no call of `bmalloc` for it fails (`alloc_handled_iff`).
-/

namespace Eece4029

open Transition Blocks

namespace Node

/-! ## The splits of a request -/

/-- The size of the first free node that holds the request. -/
def fit : Node → Int → Option Nat
  | .free _ sz, size => if (sz : Int) < size then none else some sz
  | .split _ _ left right, size => (left.fit size).or (right.fit size)
  | .alloc .., _ => none

/-- The number of splits that a positive request makes. -/
def splits (t : Node) (size : Int) : Nat :=
  match t.fit size with
  | none => 0
  | some sz => Nat.log 2 (sz / size.toNat)

variable {idx sz fuel : Nat} {l r t t' : Node} {size rt : Int}

/-- A free node that is too small makes no split. -/
theorem fit_free_small (hlt : (sz : Int) < size) : (free idx sz).fit size = none := if_pos hlt

/-- A free node that is large enough is the one that is taken. -/
theorem fit_free (hle : size ≤ (sz : Int)) : (free idx sz).fit size = some sz :=
  if_neg (Int.not_lt.2 hle)

/-- A free node whose half holds the request is split once more than the half. -/
theorem splits_half (h0 : 0 < size) (hhalf : size ≤ ((sz / 2 : Nat) : Int)) :
    (free idx sz).splits size = (free idx (sz / 2)).splits size + 1 := by
  have hr : 0 < size.toNat := by omega
  have hle : 2 ≤ sz / size.toNat := by
    rw [Nat.le_div_iff_mul_le hr]
    omega
  unfold splits
  rw [fit_free (by omega), fit_free hhalf]
  dsimp only
  rw [Nat.log_of_one_lt_of_le Nat.one_lt_two hle, Nat.div_div_eq_div_mul, Nat.mul_comm,
    ← Nat.div_div_eq_div_mul]

/-- A free node whose half does not hold the request is not split. -/
theorem splits_last (hhalf : ((sz / 2 : Nat) : Int) < size) : (free idx sz).splits size = 0 := by
  rcases Int.lt_or_le sz size with hlt | hle
  · rw [splits, fit_free_small hlt]
  · rw [splits, fit_free hle]
    refine Nat.log_of_lt (Nat.div_lt_of_lt_mul ?_)
    omega

/-- Where the left child of a split holds the request, the splits are made there. -/
theorem splits_left (hl : l.fit size ≠ none) :
    (split idx sz l r).splits size = l.splits size := by
  obtain ⟨n, hn⟩ := Option.ne_none_iff_exists'.1 hl
  simp [splits, fit, hn]

/-- Where it does not, they are made in the right child. -/
theorem splits_right (hl : l.fit size = none) :
    (split idx sz l r).splits size = r.splits size := by
  simp [splits, fit, hl]

/-- A call with a free node that holds the request succeeds. -/
theorem nonneg_of_fit (hfit : t.fit size ≠ none) (h : buddyAlloc fuel t size = some (rt, t')) :
    0 ≤ rt := by
  induction fuel generalizing t rt t' with
  | zero => cases h
  | succ fuel ih =>
    cases t with
    | alloc idx sz => exact absurd rfl hfit
    | free idx sz =>
      have hle : ¬ (sz : Int) < size := fun hlt => hfit (fit_free_small hlt)
      simp only [buddyAlloc, if_neg hle] at h
      split at h
      · next hhalf =>
        obtain ⟨⟨rtl, l'⟩, hl, h⟩ := Option.bind_eq_some_iff.1 h
        cases h
        exact ih (by rw [fit_free hhalf]; exact Option.some_ne_none _) hl
      · cases h
        exact Int.natCast_nonneg idx
    | split idx sz l r =>
      obtain ⟨⟨rtl, l'⟩, hl, h⟩ := Option.bind_eq_some_iff.1 h
      dsimp only at h
      split at h
      · next hrt =>
        cases h
        exact hrt
      · next hrt =>
        have hlfit : l.fit size = none := by
          by_contra hl'
          exact hrt (ih hl' hl)
        obtain ⟨⟨rtr, r'⟩, hr, h⟩ := Option.bind_eq_some_iff.1 h
        cases h
        refine ih (fun hr' => hfit ?_) hr
        simp only [fit, hlfit, hr', Option.or_none]

end Node

/-! ## One split -/

variable {avail : Nat → Bool} {h h' : Blocks} {a idx sz fuel S : Nat} {c : NodeCell} {t : Node}
  {F : List Nat} {size : Int} {m : BuddyMem} {tr : List (Step BuddyMem MemCall)}

namespace Blocks

/-- A split asks `bmalloc` for two blocks. -/
theorem splitNode_next (hc : h.cell a = some c) (hn : c.Is idx .FREE sz)
    (hret : splitNode always h (some a) = .ok h') : h'.next = h.next + 2 := by
  obtain ⟨h'', hret', hnext, -⟩ := splitNode_cells hc hn
  cases hret.symm.trans hret'
  exact hnext

/-- A split that gets both blocks is one where every call of `bmalloc` succeeds. -/
theorem splitNode_agree (hc : h.cell a = some c) (h₀ : avail h.next = true)
    (h₁ : avail (h.next + 1) = true) :
    splitNode avail h (some a) = splitNode always h (some a) := by
  have ha : a ≠ h.next := Nat.ne_of_lt (Heap.live_of_cell hc).lt
  simp only [splitNode, bmalloc, Heap.store, hc, bind, Except.bind, Heap.cell_upd,
    Function.update_self, Option.isSome_some, Option.map_some, if_true, Heap.next_upd,
    Heap.next_malloc, Heap.cell_malloc, Function.update_of_ne ha, h₀, h₁]

/-- A split that does not get both blocks stops at an access through `NULL`. -/
theorem splitNode_null (hc : h.cell a = some c) (hn : c.Is idx .FREE sz)
    (hno : ¬ (avail h.next = true ∧ avail (h.next + 1) = true)) :
    splitNode avail h (some a) = .error .null := by
  have ha : a ≠ h.next := Nat.ne_of_lt (Heap.live_of_cell hc).lt
  have ha' : a ≠ h.next + 1 := Nat.ne_of_lt (Nat.lt_succ_of_lt (Heap.live_of_cell hc).lt)
  cases h₀ : avail h.next with
  | false =>
    -- the left pointer is the first one that is written through
    cases h₁ : avail (h.next + 1) <;>
      simp [splitNode, bmalloc, Heap.store, field, Heap.load, hc, bind, Except.bind, h₀, h₁, ha',
        hn.size, hn.idx]
  | true =>
    have h₁ : avail (h.next + 1) = false := by simpa [h₀] using hno
    simp [splitNode, bmalloc, Heap.store, field, Heap.load, hc, bind, Except.bind, h₀, h₁, ha,
      ha.symm, hn.size, hn.idx]

/-! ## A request -/

/-- Where no free node holds the request the call visits the whole tree and fails, and it asks
`bmalloc` for nothing. -/
theorem buddyAlloc_no_fit (fuel : Nat) (ho : Owns h a t F) (hfit : t.fit size = none) :
    buddyAlloc avail fuel h (some a) size =
      if fuel < t.height then .error .fuel else .ok (-1, h) := by
  induction fuel generalizing a t F with
  | zero =>
    have hpos : 0 < t.height := by cases t <;> exact Nat.succ_pos _
    rw [if_pos hpos]
    rfl
  | succ fuel ih =>
    cases t with
    | alloc idx sz =>
      cases ho.rep with
      | alloc hc hn =>
        rw [if_neg (by simp only [Node.height]; omega)]
        exact buddyAlloc_at_alloc hc hn
    | free idx sz =>
      have hlt : (sz : Int) < size := by
        by_contra hle
        cases (Node.fit_free (Int.not_lt.1 hle)).symm.trans hfit
      cases ho.rep with
      | free hc hn =>
        rw [if_neg (by simp only [Node.height]; omega), buddyAlloc_at_free hc hn, if_pos hlt]
    | split idx sz lt rt =>
      obtain ⟨hfl, hfr⟩ := Option.or_eq_none_iff.1 hfit
      obtain ⟨l, r, fl, fr, hs, rfl⟩ := owns_split.1 ho
      obtain ⟨c, hc, hn, hl, hr⟩ := hs.cell
      have hlt : fuel + 1 < (Node.split idx sz lt rt).height ↔
          fuel < lt.height ∨ fuel < rt.height := by
        rw [Node.height, Nat.add_lt_add_iff_right, lt_max_iff]
      simp only [buddyAlloc_at_split hc hn hl, bind, Except.bind, ih hs.left hfl, hlt]
      by_cases hfuel : fuel < lt.height
      · simp only [hfuel, true_or, if_true]
      · simp only [hfuel, false_or, if_false, field_some hc hr, ih hs.right hfr]
        rw [if_neg (by omega)]

/-- Where all calls of `bmalloc` that the request makes succeed, it is the same as where every call
does. -/
theorem buddyAlloc_agree (fuel : Nat) (ho : Owns h a t F) (h0 : 0 < size)
    (hall : ∀ i < 2 * t.splits size, avail (h.next + i) = true) :
    buddyAlloc avail fuel h (some a) size = buddyAlloc always fuel h (some a) size := by
  induction fuel generalizing h a t F with
  | zero => rfl
  | succ fuel ih =>
    cases t with
    | alloc idx sz =>
      cases ho.rep with
      | alloc hc hn =>
        rw [buddyAlloc_at_alloc hc hn, buddyAlloc_at_alloc hc hn]
    | free idx sz =>
      cases ho.rep with
      | free hc hn =>
        rw [buddyAlloc_at_free hc hn, buddyAlloc_at_free hc hn]
        by_cases hhalf : size ≤ ((sz / 2 : Nat) : Int)
        · rw [Node.splits_half h0 hhalf] at hall
          obtain ⟨h₁, l, r, hret, hs, -⟩ := splitNode_owns hc hn
          obtain ⟨c₁, hc₁, -, hl, -⟩ := hs.cell
          have hnext := splitNode_next hc hn hret
          have heq := ih hs.left fun i hi => by
            rw [hnext, Nat.add_assoc]
            exact hall (2 + i) (by omega)
          rw [splitNode_agree hc (hall 0 (by omega)) (hall 1 (by omega))]
          simp only [if_pos hhalf, hret, field_some hc₁ hl, heq, bind, Except.bind]
        · simp only [if_neg hhalf]
    | split idx sz lt rt =>
      obtain ⟨l, r, fl, fr, hs, rfl⟩ := owns_split.1 ho
      obtain ⟨c, hc, hn, hl, hr⟩ := hs.cell
      simp only [buddyAlloc_at_split hc hn hl, bind, Except.bind]
      by_cases hfl : lt.fit size = none
      · -- the left child is left as it is, and the right one makes the splits
        rw [Node.splits_right hfl] at hall
        simp only [buddyAlloc_no_fit fuel hs.left hfl]
        by_cases hfuel : fuel < lt.height
        · simp only [if_pos hfuel]
        · simp only [if_neg hfuel, field_some hc hr, ih hs.right hall]
      · rw [Node.splits_left hfl] at hall
        rw [ih hs.left hall]
        rcases buddyAlloc_sim fuel size hs.left with ⟨-, hh⟩ | ⟨rtl, lt', h₁, fl', ht, hh, -⟩
        · rw [hh]
        · have hrt := Node.nonneg_of_fit hfl ht
          simp only [hh, if_pos hrt]

/-- Where one of the calls of `bmalloc` for a free node fails, the request stops at an access
through `NULL`: at the first split that does not get its two blocks. -/
theorem buddyAlloc_free_null (ho : Owns h a (.free idx sz) F) (h0 : 0 < size)
    (hno : ∃ i < 2 * (Node.free idx sz).splits size, avail (h.next + i) = false) :
    ∃ depth, ∀ fuel, depth ≤ fuel → buddyAlloc avail fuel h (some a) size = .error .null := by
  induction sz using Nat.strongRecOn generalizing h a F with
  | ind sz ih =>
    obtain ⟨i, hi, hav⟩ := hno
    have hhalf : size ≤ ((sz / 2 : Nat) : Int) := by
      by_contra hlt
      rw [Node.splits_last (Int.not_le.1 hlt)] at hi
      exact absurd hi (Nat.not_lt_zero i)
    have hle : ¬ (sz : Int) < size := by omega
    rw [Node.splits_half h0 hhalf] at hi
    cases ho.rep with
    | free hc hn =>
      by_cases hboth : avail h.next = true ∧ avail (h.next + 1) = true
      · obtain ⟨h₁, l, r, hret, hs, -⟩ := splitNode_owns hc hn
        obtain ⟨c₁, hc₁, -, hl, -⟩ := hs.cell
        have hnext := splitNode_next hc hn hret
        -- the failure is below this split
        obtain ⟨j, rfl⟩ : ∃ j, i = 2 + j := by
          refine ⟨i - 2, ?_⟩
          by_contra hlt
          obtain rfl | rfl : i = 0 ∨ i = 1 := by omega
          · exact Bool.noConfusion (hboth.1.symm.trans hav)
          · exact Bool.noConfusion (hboth.2.symm.trans hav)
        obtain ⟨depth, hdepth⟩ := ih (sz / 2) (by omega) hs.left
          ⟨j, by omega, by rw [hnext, Nat.add_assoc]; exact hav⟩
        refine ⟨depth + 1, ?_⟩
        rintro (_ | fuel) hfuel
        · omega
        · simp only [buddyAlloc_at_free hc hn, if_neg hle, if_pos hhalf,
            splitNode_agree hc hboth.1 hboth.2, hret, field_some hc₁ hl, bind, Except.bind,
            hdepth fuel (by omega)]
      · refine ⟨1, ?_⟩
        rintro (_ | fuel) hfuel
        · omega
        · simp only [buddyAlloc_at_free hc hn, if_neg hle, if_pos hhalf,
            splitNode_null hc hn hboth, bind, Except.bind]

/-- Where one of them fails, the request stops at an access through `NULL`. -/
theorem buddyAlloc_null (ho : Owns h a t F) (h0 : 0 < size)
    (hno : ∃ i < 2 * t.splits size, avail (h.next + i) = false) :
    ∃ depth, ∀ fuel, depth ≤ fuel → buddyAlloc avail fuel h (some a) size = .error .null := by
  induction t generalizing h a F with
  | alloc idx sz =>
    obtain ⟨i, hi, -⟩ := hno
    exact absurd hi (Nat.not_lt_zero i)
  | free idx sz => exact buddyAlloc_free_null ho h0 hno
  | split idx sz lt rt ihl ihr =>
    obtain ⟨l, r, fl, fr, hs, rfl⟩ := owns_split.1 ho
    obtain ⟨c, hc, hn, hl, hr⟩ := hs.cell
    by_cases hfl : lt.fit size = none
    · rw [Node.splits_right hfl] at hno
      obtain ⟨depth, hdepth⟩ := ihr hs.right hno
      refine ⟨max depth lt.height + 1, ?_⟩
      rintro (_ | fuel) hfuel
      · omega
      · have hheight : ¬ fuel < lt.height := by omega
        have hleft : buddyAlloc avail fuel h (some l) size = .ok (-1, h) :=
          (buddyAlloc_no_fit fuel hs.left hfl).trans (if_neg hheight)
        simp only [buddyAlloc_at_split hc hn hl, bind, Except.bind, hleft, field_some hc hr,
          hdepth fuel (by omega)]
        rfl
    · rw [Node.splits_left hfl] at hno
      obtain ⟨depth, hdepth⟩ := ihl hs.left hno
      refine ⟨depth + 1, ?_⟩
      rintro (_ | fuel) hfuel
      · omega
      · simp only [buddyAlloc_at_split hc hn hl, bind, Except.bind, hdepth fuel (by omega)]

end Blocks

/-! ## Handled failures -/

/-- A failure of `bmalloc` during `buddy_alloc(size)` on the tree `t` is handled: the call does not
access a field through `NULL`, and it returns, with what it does on the tree or, where it could not
do that, with `-1` and the tree as it was. -/
structure AllocHandled (avail : Nat → Bool) (m : BuddyMem) (t : Node) (size : Int) : Prop where
  noNull : ∀ fuel, buddyAlloc avail fuel m.heap m.buddyHead size ≠ .error .null
  returns : ∃ fuel rt heap, buddyAlloc avail fuel m.heap m.buddyHead size = .ok (rt, heap) ∧
    ∃ t' F', MemRep ⟨m.buddyHead, heap⟩ 0 t' F' ∧
      (Node.AllocReturns t size rt t' ∨ rt = -1 ∧ t' = t)

/-- A request whose calls of `bmalloc` all succeed is handled. -/
theorem MemRep.alloc_handled (hm : MemRep m 0 t F) (h0 : 0 < size)
    (hall : ∀ i < 2 * t.splits size, avail (m.heap.next + i) = true) :
    AllocHandled avail m t size := by
  have hagree : ∀ fuel, buddyAlloc avail fuel m.heap m.buddyHead size =
      buddyAlloc always fuel m.heap m.buddyHead size := by
    intro fuel
    rw [hm.head]
    exact buddyAlloc_agree fuel hm.owns h0 hall
  refine ⟨fun fuel hnull => ?_, ?_⟩
  · exact absurd (hm.alloc_noFault fuel size _ ((hagree fuel).symm.trans hnull)) nofun
  · obtain ⟨rt, t', fuel, hret⟩ := BuddyTree.alloc_returns h0 t
    rcases buddyAlloc_sim fuel size hm.owns with ⟨hnone, -⟩ | ⟨rt', t'', h', F', ht, hh, ho, hmove⟩
    · cases hnone.symm.trans hret
    · rw [← hm.head, ← hagree] at hh
      exact ⟨fuel, rt', h', hh, t'', F', ⟨hm.head, ho, hmove.owns_all hm.all⟩, .inl ⟨fuel, ht⟩⟩

/-- **Exactly when a failure of `bmalloc` in `buddy_alloc` is handled**: none of the two calls of
each split that the request makes fails. -/
theorem alloc_handled_iff (hr : MemRun S tr m) : ∃ t F, MemRep m 0 t F ∧
    ∀ size avail, 0 < size → (AllocHandled avail m t size ↔
      ∀ i < 2 * t.splits size, avail (m.heap.next + i) = true) := by
  obtain ⟨-, t, F, -, -, hm⟩ := hr.refines
  refine ⟨t, F, hm, fun size avail h0 => ⟨fun hhandled => ?_, hm.alloc_handled h0⟩⟩
  intro i hi
  by_contra hav
  obtain ⟨depth, hnull⟩ := buddyAlloc_null hm.owns h0 ⟨i, hi, Bool.eq_false_iff.2 hav⟩
  rw [← hm.head] at hnull
  exact hhandled.noNull depth (hnull depth (Nat.le_refl depth))

/-- Without memory for a node, a request of one byte in a pool of two writes through `NULL`. -/
theorem alloc_not_handled : ¬ ∀ S tr m, MemRun S tr m → ∀ t F, MemRep m 0 t F →
    ∀ size avail, 0 < size → AllocHandled avail m t size := by
  intro h
  have hi : buddyInit always .empty 2 = .ok (0, _, _) := rfl
  have hhandled := h 2 [] _ ⟨_, _, hi, .nil⟩ _ _ (.init hi) 1 (fun _ => false) (by decide)
  exact hhandled.noNull 1 rfl

/-- The blocks of a pool of four, and those after a request of two. -/
def poolOfFour : Blocks := (buddyInit always .empty 4).toOption.elim .empty (·.2.2)

def halfTaken : Blocks := (buddyAlloc always 2 poolOfFour (some 0) 2).toOption.elim .empty (·.2)

theorem halfTaken_run : ∃ tr, MemRun 4 tr ⟨some 0, halfTaken⟩ := by
  have hinit : buddyInit always .empty 4 = .ok (0, some 0, poolOfFour) := rfl
  have hone : buddyAlloc always 2 poolOfFour (some 0) 2 = .ok (0, halfTaken) := rfl
  have hstep : MemStep ⟨some 0, poolOfFour⟩ (.alloc 2 0) ⟨some 0, halfTaken⟩ := .alloc hone
  exact ⟨_, some 0, poolOfFour, hinit, Run.nil.snoc hstep⟩

theorem halfTaken_rep : Rep halfTaken 0 (.split 0 4 (.alloc 0 2) (.free 2 2)) [0, 1, 2] :=
  .split rfl ⟨rfl, rfl, rfl⟩ rfl rfl (.alloc rfl ⟨rfl, rfl, rfl⟩) (.free rfl ⟨rfl, rfl, rfl⟩)

/-- A request of one makes two calls of `bmalloc`, for the blocks 3 and 4, and all calls after these
may fail. -/
theorem alloc_handled_iff_later : AllocHandled (fun n => decide (n < 5)) ⟨some 0, halfTaken⟩
    (.split 0 4 (.alloc 0 2) (.free 2 2)) 1 := by
  obtain ⟨tr, hrun⟩ := halfTaken_run
  obtain ⟨t, F, hm, hiff⟩ := alloc_handled_iff hrun
  obtain rfl := hm.owns.rep.unique halfTaken_rep
  refine (hiff 1 _ (by decide)).2 ?_
  decide

end Eece4029
