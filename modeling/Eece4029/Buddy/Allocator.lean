import Eece4029.Buddy.Runs
import Mathlib.Order.Bounds.Basic
import Mathlib.Data.Set.Insert

/-!
# The abstract allocator

What the allocator is for, without a tree: the state is the set of pages in use, a request takes the
lowest free block of the level that fits it best, and freeing removes the page that starts at the
index. The blocks of level `k` are the regions that halving the pool `k` times gives, and a block is
free when it is disjoint from every page. `buddyRun_refines` maps every run of `buddy.c` to a run of
this allocator with the same calls and results; `alloc_refines` and `free_refines` are the same for
one call of `buddy_alloc` and of `buddy_free`, with the exact conditions of their failures.
-/

namespace Eece4029

open Transition Node

/-! ## The abstract state and its steps -/

/-- `k` is the best level for a request: the largest one whose blocks hold it. -/
def BestLevel (S : Nat) (size : Int) (k : Nat) : Prop :=
  IsGreatest {j : Nat | size ≤ ((S / 2 ^ j : Nat) : Int)} k

/-- The blocks of level `k` of a pool of `S` bytes. -/
def blocks (S k : Nat) : List Region := Region.halvings k ⟨0, S⟩

/-- A block that is disjoint from every page in use. -/
def FreeBlock (taken : Set Region) (c : Region) : Prop := ∀ p ∈ taken, c.Disjoint p

/-- The free block of level `k` with the lowest address. -/
structure LowestFree (S k : Nat) (taken : Set Region) (c : Region) : Prop where
  block : c ∈ blocks S k
  free : FreeBlock taken c
  lowest : ∀ d ∈ blocks S k, FreeBlock taken d → c.start ≤ d.start

/-- A step of the abstract allocator on the set of pages in use. -/
inductive AllocatorStep (S : Nat) : Set Region → Event → Set Region → Prop
  | page {taken : Set Region} {size : Int} {k : Nat} {c : Region} (h0 : 0 < size)
      (hk : BestLevel S size k) (hc : LowestFree S k taken c) :
      AllocatorStep S taken (.alloc size c.start) (insert c taken)
  | full {taken : Set Region} {size : Int} {k : Nat} (h0 : 0 < size) (hk : BestLevel S size k)
      (hno : ∀ c ∈ blocks S k, ¬ FreeBlock taken c) : AllocatorStep S taken (.alloc size (-1)) taken
  | tooBig {taken : Set Region} {size : Int} (h : (S : Int) < size) :
      AllocatorStep S taken (.alloc size (-1)) taken
  | nonpos {taken : Set Region} {size : Int} (h : size ≤ 0) :
      AllocatorStep S taken (.alloc size (-1)) taken
  | free {taken : Set Region} {p : Region} (hp : p ∈ taken) :
      AllocatorStep S taken (.free p.start 0) (taken \ {p})
  | notFound {taken : Set Region} {idx : Int} (h : ∀ p ∈ taken, (p.start : Int) ≠ idx) :
      AllocatorStep S taken (.free idx (-1)) taken

/-! ## Refinement -/

variable {S k : Nat} {size rt idx : Int} {t t' : Node} {e : Event} {tr : List (Step Node Event)}

/-- The abstraction of a tree: the set of its pages. -/
def pageSet (t : Node) : Set Region := {p | p ∈ t.pages}

/-- The best level in terms of the two levels next to each other. -/
theorem BestLevel.bounds (h : BestLevel S size k) :
    size ≤ ((S / 2 ^ k : Nat) : Int) ∧ ((S / 2 ^ (k + 1) : Nat) : Int) < size :=
  ⟨h.1, Int.not_le.1 fun hle => absurd (h.2 hle) (Nat.not_succ_le_self k)⟩

theorem BestLevel.of_bounds (hk : size ≤ ((S / 2 ^ k : Nat) : Int))
    (hk' : ((S / 2 ^ (k + 1) : Nat) : Int) < size) : BestLevel S size k := by
  refine ⟨hk, fun j hj => Nat.le_of_lt_succ (Nat.lt_of_not_le ?_)⟩
  intro hlt
  have hpow : 2 ^ (k + 1) ≤ 2 ^ j := Nat.pow_le_pow_right (by decide) hlt
  have hdiv : S / 2 ^ j ≤ S / 2 ^ (k + 1) := Nat.div_le_div_left hpow (Nat.two_pow_pos _)
  have hj' : size ≤ ((S / 2 ^ j : Nat) : Int) := hj
  omega

/-- First fit over the pages of a tree is the abstract choice of a block. -/
theorem lowestFree_of_firstFit {c : Region}
    (h : Region.firstFit k ⟨0, S⟩ t.pages = some c) : LowestFree S k (pageSet t) c :=
  have ⟨hc, hfree, hlow⟩ := Region.firstFit_eq_some h
  ⟨hc, hfree, hlow⟩

/-- The pages after an allocation are the pages before it and the new one. -/
theorem pageSet_insert {p : Region} {lo hi : List Region} (hp : t.pages = lo ++ hi)
    (hp' : t'.pages = lo ++ p :: hi) : pageSet t' = insert p (pageSet t) := by
  ext q
  simp only [pageSet, hp, hp', Set.mem_insert_iff, Set.mem_ofPred_eq, List.mem_append,
    List.mem_cons]
  exact ⟨fun h => by rcases h with h | h | h <;> simp [h], fun h => by
    rcases h with h | h | h <;> simp [h]⟩

/-- The pages after a page was freed are the other ones. -/
theorem pageSet_erase {b p : Region} {lo hi : List Region} (ht : BuddyTree b t)
    (hp : t.pages = lo ++ p :: hi) (hp' : t'.pages = lo ++ hi) :
    pageSet t' = pageSet t \ {p} := by
  have hne := ht.start_ne hp
  ext q
  simp only [pageSet, Set.mem_sdiff, Set.mem_ofPred_eq, Set.mem_singleton_iff, hp']
  constructor
  · intro hq
    exact ⟨hp ▸ List.perm_middle.mem_iff.2 (List.mem_cons_of_mem p hq),
      fun heq => hne q hq (heq ▸ rfl)⟩
  · rintro ⟨hq, hqp⟩
    rw [hp] at hq
    exact (List.mem_cons.1 (List.perm_middle.mem_iff.1 hq)).resolve_left hqp

/-- Every returned call is a step of the abstract allocator. -/
theorem buddyStep_refines (ht : BuddyTree ⟨0, S⟩ t) (hs : BuddyStep t e t') :
    AllocatorStep S (pageSet t) e (pageSet t') := by
  cases e with
  | alloc size rt =>
    rcases Int.lt_or_le 0 size with h0 | h0
    · rcases Int.lt_or_le S size with hS | hS
      · obtain ⟨rfl, rfl⟩ := (ht.alloc_too_big hS).1 hs
        exact .tooBig hS
      · obtain ⟨k, hk, hk'⟩ := BuddyTree.exists_level (b := ⟨0, S⟩) h0 hS
        rcases (ht.alloc_firstFit h0 hk hk' hs).inv with
          ⟨hnone, rfl, rfl⟩ | ⟨c, lo, hi, hfit, rfl, -, hp, hp'⟩
        · exact .full h0 (.of_bounds hk hk') (Region.firstFit_eq_none.1 hnone)
        · rw [pageSet_insert hp hp']
          exact .page h0 (.of_bounds hk hk') (lowestFree_of_firstFit hfit)
    · obtain ⟨rfl, rfl⟩ := ht.alloc_nonpos h0 hs
      exact .nonpos h0
  | free idx rt =>
    obtain ⟨-, heff⟩ := ht.step hs
    generalize hps : t.pages = ps at heff
    generalize hps' : t'.pages = ps' at heff
    cases heff with
    | freed lo hi =>
      rw [pageSet_erase ht hps hps']
      exact .free (by simp [pageSet, hps])
    | notFound _ h =>
      rw [show pageSet t' = pageSet t by simp only [pageSet, hps, hps']]
      exact .notFound (by simpa [pageSet, hps] using h)

/-- **Every run of the allocator is a run of the abstract allocator** with the same calls and
results. -/
theorem buddyRun_refines (h : BuddyRun S tr t) :
    ∃ atr, Run (AllocatorStep S) ∅ atr (pageSet t) ∧ atr.map (·.label) = tr.map (·.label) := by
  have hempty : pageSet (Node.init S) = ∅ := by simp [pageSet, Node.init]
  obtain ⟨atr, hrun, hlabel⟩ := h.simulates pageSet (some ∘ (·.label)) fun s l s' hs hstep =>
    .inr ⟨l, rfl, buddyStep_refines (.of_reachable hs) hstep⟩
  exact ⟨atr, hempty ▸ hrun, hlabel.trans (by rw [List.filterMap_eq_map])⟩

/-! ## One allocation -/

/-- What `buddy_alloc` returns and does to the live pages when `k` is the best level of the request:
it fails exactly when no block of that level is free, and then changes nothing; otherwise it returns
the start of the lowest free block, which becomes a live page. -/
structure AllocSpec (S k : Nat) (tr : List (Step Node Event)) (t : Node) (size rt : Int)
    (t' : Node) : Prop where
  fails_iff : rt = -1 ↔ ∀ c ∈ blocks S k, ¬ FreeBlock {p | p ∈ livePages tr} c
  unchanged : rt = -1 → t' = t
  makes : rt ≠ -1 → ∃ c, LowestFree S k {p | p ∈ livePages tr} c ∧ rt = c.start ∧
    livePages (tr ++ [⟨t, .alloc size rt, t'⟩]) = c :: livePages tr

/-- The live pages of a run are the pages of its tree. -/
theorem livePages_eq (h : BuddyRun S tr t) : {p | p ∈ livePages tr} = pageSet t :=
  Set.ext fun _ => (HistoryInv.of_run h).leaves.mem_iff.symm

/-- **`buddy_alloc` refines the abstract allocator.** A positive request that fits the pool returns,
and it returns the lowest free block of its best level or fails because there is none; a request
larger than the pool returns `-1` and changes nothing. -/
theorem alloc_refines (h : BuddyRun S tr t) (size : Int) :
    (1 ≤ size → size ≤ S → ∀ k, BestLevel S size k →
      (∃ rt t', AllocReturns t size rt t') ∧
        ∀ rt t', AllocReturns t size rt t' → AllocSpec S k tr t size rt t') ∧
    ((S : Int) < size → ∀ rt t', AllocReturns t size rt t' ↔ rt = -1 ∧ t' = t) := by
  have ht : BuddyTree ⟨0, S⟩ t := .of_run h
  refine ⟨?_, fun hS rt t' => ht.alloc_too_big hS⟩
  intro h0 hS k hk
  refine ⟨BuddyTree.alloc_returns h0 t, ?_⟩
  intro rt t' hret
  rcases (ht.alloc_firstFit h0 hk.bounds.1 hk.bounds.2 hret).inv with
    ⟨hnone, rfl, rfl⟩ | ⟨c, lo, hi, hfit, rfl, ht', hp, hp'⟩
  · have hno := Region.firstFit_eq_none.1 hnone
    refine ⟨⟨fun _ => ?_, fun _ => rfl⟩, fun _ => rfl, fun hne => absurd rfl hne⟩
    rw [livePages_eq h]
    exact hno
  · have hlow := lowestFree_of_firstFit hfit
    rw [← livePages_eq h] at hlow
    have hmem : c ∈ t'.pages := by simp [hp']
    refine ⟨⟨?_, fun hno => absurd hlow.free (hno c hlow.block)⟩, ?_,
      fun _ => ⟨c, hlow, rfl, ?_⟩⟩
    · intro hneg
      omega
    · intro hneg
      omega
    · simp [livePages, live_snoc, liveStep, ht'.pageAt_eq hmem]

theorem alloc_refines_twoPages :
    (∀ rt t', AllocReturns twoPages 2 rt t' → AllocSpec 4 1 twoPagesRun twoPages 2 rt t') ∧
      ∀ rt t', AllocReturns twoPages 5 rt t' ↔ rt = -1 ∧ t' = twoPages :=
  ⟨((alloc_refines twoPages_run 2).1 (by decide) (by decide) 1
      (.of_bounds (by decide) (by decide))).2,
    (alloc_refines twoPages_run 5).2 (by decide)⟩

/-! ## One freeing -/

/-- What `buddy_free` returns and does to the live pages: it returns `0` exactly when a live page
starts at the index, and then that one page is no longer live; otherwise it returns `-1` and leaves
the tree as it was. -/
structure FreeSpec (tr : List (Step Node Event)) (t : Node) (idx : Int) : Prop where
  frees_iff : (buddyFree t idx).1 = 0 ↔ ∃ p ∈ livePages tr, (p.start : Int) = idx
  frees : ∀ p ∈ livePages tr, (p.start : Int) = idx →
    (buddyFree t idx).2.pages.Perm ((livePages tr).erase p) ∧
      livePages (tr ++ [⟨t, .free idx 0, (buddyFree t idx).2⟩]) = (livePages tr).erase p
  fails : (buddyFree t idx).1 ≠ 0 → buddyFree t idx = (-1, t)

/-- The live pages of a run are distinct. -/
theorem livePages_nodup (h : BuddyRun S tr t) : (livePages tr).Nodup := by
  have hsafe := buddy_run_safe h
  refine hsafe.leaves.nodup_iff.1 ((BuddyTree.of_run h).pages_pairwise.imp_of_mem ?_)
  intro p q hp _ hpq heq
  have h0 := ((BuddyTree.of_run h).pages_inside p hp).2
  simp only [heq, Region.Before] at hpq h0
  omega

/-- Removing the live pages that start where `p` does removes `p` alone. -/
theorem livePages_filter (h : BuddyRun S tr t) {p : Region} (hp : p ∈ livePages tr) :
    ((livePages tr).filter fun q => (q.start : Int) ≠ p.start) = (livePages tr).erase p := by
  have hsafe := buddy_run_safe h
  rw [(livePages_nodup h).erase_eq_filter]
  refine List.filter_congr ?_
  intro q hq
  rw [Bool.eq_iff_iff, decide_eq_true_iff, bne_iff_ne]
  refine not_congr ⟨?_, fun heq => heq ▸ rfl⟩
  intro hqp
  exact (BuddyTree.of_run h).page_of_start (hsafe.leaves.mem_iff.2 hq)
    (hsafe.leaves.mem_iff.2 hp) (Int.ofNat_inj.1 hqp)

/-- **`buddy_free` frees exactly one page or nothing**, at every index and in every reachable
tree. -/
theorem free_refines (h : BuddyRun S tr t) (idx : Int) : FreeSpec tr t idx := by
  have hsafe := buddy_run_safe h
  have hres := (BuddyTree.of_run h).free_spec (i := idx)
  generalize hf : buddyFree t idx = r at hres
  obtain ⟨rt, t'⟩ := r
  dsimp only at hres
  cases hres with
  | @freed p _ lo hi ht' hs hp hp' =>
    have hlive : p ∈ livePages tr := hsafe.leaves.mem_iff.1 (by simp [hp])
    have hone : ∀ q ∈ livePages tr, (q.start : Int) = idx → q = p := by
      intro q hq hqi
      exact (BuddyTree.of_run h).page_of_start (hsafe.leaves.mem_iff.2 hq) (by simp [hp])
        (Int.ofNat_inj.1 (hqi.trans hs.symm))
    refine ⟨⟨fun _ => ⟨p, hlive, hs⟩, fun _ => by rw [hf]⟩, ?_, fun hne => absurd (by rw [hf]) hne⟩
    intro q hq hqi
    obtain rfl := hone q hq hqi
    constructor
    · rw [hf, hp']
      calc (lo ++ hi).Perm ((q :: (lo ++ hi)).erase q) := by rw [List.erase_cons_head]
        _ |>.Perm ((lo ++ q :: hi).erase q) := List.perm_middle.symm.erase q
        _ |>.Perm ((livePages tr).erase q) := hp ▸ hsafe.leaves.erase q
    · rw [← livePages_filter h hq, ← hs, livePages, live_snoc]
      simp only [liveStep, if_true, livePages, List.filter_map]
      rfl
  | notFound hno =>
    have hnone : ¬ ∃ p ∈ livePages tr, (p.start : Int) = idx := by
      rintro ⟨p, hp, hpi⟩
      exact hno p (hsafe.leaves.mem_iff.2 hp) hpi
    refine ⟨⟨fun h0 => ?_, fun hex => absurd hex hnone⟩, ?_, fun _ => hf⟩
    · rw [hf] at h0
      cases h0
    · exact fun p hp hpi => absurd ⟨p, hp, hpi⟩ hnone

theorem free_refines_twoPages : FreeSpec twoPagesRun twoPages 2 ∧ FreeSpec twoPagesRun twoPages 1 :=
  ⟨free_refines twoPages_run 2, free_refines twoPages_run 1⟩

end Eece4029
