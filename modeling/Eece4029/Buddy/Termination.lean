import Eece4029.Buddy.Canonical

/-!
# When `_buddy_alloc` returns

`_buddy_alloc` compares the request with the size of a free node and with half of it, and nothing
bounds the request from below: `IOCTL_ALLOC` passes on what the user gave. For a positive request
the halving stops at a node that is too small to be split. For any other one the first free node is
split for ever, because `n->size / 2 >= size` holds for every size down to `0`. So the call returns
exactly for the positive requests and on the trees without a free node (`alloc_terminates_iff`).
-/

namespace Eece4029

open Transition Node

variable {S : Nat} {t t' : Node} {size rt : Int} {tr : List (Step Node Event)}

namespace Node

/-- No node of the tree is `FREE`. -/
def Full (t : Node) : Prop := ∀ n ∈ t.nodes, n.state ≠ .FREE

instance (t : Node) : Decidable t.Full := inferInstanceAs (Decidable (∀ n ∈ t.nodes, _))

/-- A split is full when both of its children are. -/
theorem full_split {idx sz : Nat} {l r : Node} : (split idx sz l r).Full ↔ l.Full ∧ r.Full := by
  simp [Full, nodes, or_imp, forall_and]

/-- A request that is not positive returns exactly on a full tree, and then it fails. -/
theorem allocReturns_nonpos (hs : size ≤ 0) :
    AllocReturns t size rt t' ↔ t.Full ∧ rt = -1 ∧ t' = t := by
  induction t generalizing rt t' with
  | free idx sz =>
    refine iff_of_false (not_allocReturns_free hs) ?_
    rintro ⟨hfull, -⟩
    exact hfull (.free idx sz) (List.mem_singleton_self _) rfl
  | alloc idx sz =>
    rw [allocReturns_alloc]
    exact (and_iff_right fun n hn => List.mem_singleton.1 hn ▸ nofun).symm
  | split idx sz l r ihl ihr =>
    rw [allocReturns_split, full_split]
    simp only [ihl, ihr]
    refine ⟨?_, ?_⟩
    · rintro (⟨_, ⟨_, rfl, _⟩, h0, _⟩ | ⟨_, _, _, ⟨hl, _, rfl⟩, _, ⟨hr, rfl, rfl⟩, rfl⟩)
      · omega
      · exact ⟨⟨hl, hr⟩, rfl, rfl⟩
    · rintro ⟨⟨hl, hr⟩, rfl, rfl⟩
      exact .inr ⟨-1, l, r, ⟨hl, rfl, rfl⟩, by omega, ⟨hr, rfl, rfl⟩, rfl⟩

end Node

/-- A call of `buddy_alloc(size)` on the tree `t` of a pool of `S` bytes ends, and it returns `-1`
or the index of a page of the pool. -/
def AllocTerminates (S : Nat) (t : Node) (size : Int) : Prop :=
  ∃ rt t', AllocReturns t size rt t' ∧
    (rt = -1 ∨ ∃ p ∈ t'.pages, rt = p.start ∧ p.Inside ⟨0, S⟩)

/-- **Exactly when `buddy_alloc` terminates**: the request is positive or nothing is free. -/
theorem alloc_terminates_iff (h : BuddyRun S tr t) (size : Int) :
    AllocTerminates S t size ↔ 0 < size ∨ t.Full := by
  have ht := BuddyTree.of_run h
  refine ⟨?_, ?_⟩
  · rintro ⟨rt, t', hret, -⟩
    rcases Int.lt_or_le 0 size with h0 | hs
    · exact .inl h0
    · exact .inr ((allocReturns_nonpos hs).1 hret).1
  · intro hcond
    obtain ⟨rt, t', hret⟩ : ∃ rt t', AllocReturns t size rt t' := by
      rcases Int.lt_or_le 0 size with h0 | hs
      · exact BuddyTree.alloc_returns h0 t
      · exact ⟨-1, t, (allocReturns_nonpos hs).2
          ⟨hcond.resolve_left (Int.not_lt.2 hs), rfl, rfl⟩⟩
    refine ⟨rt, t', hret, ?_⟩
    rcases ht.alloc_spec hret with ⟨hfail, -⟩ | ⟨p, lo, hi, hrt, -, ht', -, hp'⟩
    · exact .inl hfail
    · have hp : p ∈ t'.pages := by simp [hp']
      exact .inr ⟨p, hp, hrt, (ht'.pages_inside p hp).1⟩

/-- `buddy_alloc(0)` on a fresh pool of four bytes does not return. -/
theorem alloc_zero_diverges : ¬ ∀ S tr t, BuddyRun S tr t → ∀ size, AllocTerminates S t size := by
  intro h
  obtain ⟨rt, t', hret, -⟩ := h 4 [] (Node.init 4) .nil 0
  exact not_allocReturns_free (Int.le_refl 0) hret

theorem alloc_terminates_iff_init : AllocTerminates 4 (Node.init 4) 1 ∧
    ¬ AllocTerminates 4 (Node.init 4) (-3) :=
  ⟨(alloc_terminates_iff .nil 1).2 (.inl (by decide)),
    fun h => absurd ((alloc_terminates_iff .nil (-3)).1 h) (by decide)⟩

end Eece4029
