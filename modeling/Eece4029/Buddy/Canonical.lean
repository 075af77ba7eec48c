import Eece4029.Buddy.Runs

/-!
# The tree depends on the live pages alone

Free space is coalesced in every tree that the allocator can reach, so the live pages determine the
tree: which blocks were split and merged on the way leaves no trace in it. `buddy_canonical` is that
statement for two runs, with the consequences for a batch of pages that is made and freed again and
for a pool whose last page is freed.
-/

namespace Eece4029

open Transition Node

variable {b p : Region} {S : Nat} {i rt size : Int} {t t' t₁ : Node} {tr : List (Step Node Event)}

/-! ## Coalesced trees -/

namespace Node

/-- The node and all nodes below it. -/
def nodes : Node → List Node
  | .free idx size => [.free idx size]
  | .split idx size left right => .split idx size left right :: (left.nodes ++ right.nodes)
  | .alloc idx size => [.alloc idx size]

/-- No split has two free children. -/
def Coalesced (t : Node) : Prop :=
  ∀ idx size l r, .split idx size l r ∈ t.nodes → ¬ (l.state = .FREE ∧ r.state = .FREE)

end Node

/-- The trees of the allocator are coalesced. -/
theorem BuddyTree.coalesced (ht : BuddyTree b t) : t.Coalesced := by
  induction ht with
  | free | alloc => simp [Coalesced, nodes]
  | split b _ _ hne ihl ihr =>
    intro idx size l r hmem
    rcases List.mem_cons.1 hmem with heq | hmem
    · cases heq
      exact hne
    · rcases List.mem_append.1 hmem with hmem | hmem
      · exact ihl idx size l r hmem
      · exact ihr idx size l r hmem

/-! ## Batches of calls -/

/-- The index a successful `buddy_alloc` returns. -/
def allocated : Event → Option Int
  | .alloc _ rt => if 0 ≤ rt then some rt else none
  | .free _ _ => none

/-- The event is a call of `buddy_alloc`. -/
def Event.IsAlloc : Event → Prop
  | .alloc _ _ => True
  | .free _ _ => False

instance : DecidablePred Event.IsAlloc
  | .alloc _ _ => .isTrue trivial
  | .free _ _ => .isFalse id

/-- The tree after `buddy_free` of every index of a list in turn. -/
def freeAll (t : Node) (is : List Int) : Node :=
  is.foldl (fun t i => (buddyFree t i).2) t

/-- The pages after a call of `buddy_free` are those that start at another index. -/
theorem BuddyTree.mem_pages_free (ht : BuddyTree b t) :
    p ∈ (buddyFree t i).2.pages ↔ p ∈ t.pages ∧ (p.start : Int) ≠ i := by
  have hres := ht.free_spec (i := i)
  generalize (buddyFree t i).1 = rt at hres
  generalize (buddyFree t i).2 = t' at hres
  cases hres with
  | @freed q _ lo hi _ hidx hq hq' =>
    subst hidx
    rw [hq, hq', Int.ofNat_inj.ne, List.perm_middle.mem_iff, List.mem_cons]
    constructor
    · exact fun hp => ⟨.inr hp, ht.start_ne hq p hp⟩
    · rintro ⟨rfl | hp, hne⟩
      · exact absurd rfl hne
      · exact hp
  | notFound h => exact ⟨fun hp => ⟨hp, h p hp⟩, And.left⟩

/-- The pages before a call of `buddy_alloc` are those that do not start at the index it returns. -/
theorem BuddyTree.mem_pages_alloc (ht : BuddyTree b t) (h : AllocReturns t size rt t') :
    p ∈ t.pages ↔ p ∈ t'.pages ∧ (p.start : Int) ≠ rt := by
  rcases ht.alloc_spec h with ⟨rfl, rfl⟩ | ⟨q, lo, hi, rfl, -, ht', hq, hq'⟩
  · exact ⟨fun hp => ⟨hp, by omega⟩, And.left⟩
  · rw [hq, hq', Int.ofNat_inj.ne, List.perm_middle.mem_iff, List.mem_cons]
    constructor
    · exact fun hp => ⟨.inr hp, ht'.start_ne hq' p hp⟩
    · rintro ⟨rfl | hp, hne⟩
      · exact absurd rfl hne
      · exact hp

/-- Freeing a list of indices keeps the invariant and removes the pages that start at one of
them. -/
theorem BuddyTree.freeAll (ht : BuddyTree b t) (is : List Int) :
    BuddyTree b (freeAll t is) ∧
      ∀ p, p ∈ (Eece4029.freeAll t is).pages ↔ p ∈ t.pages ∧ (p.start : Int) ∉ is := by
  induction is generalizing t with
  | nil => exact ⟨ht, by simp [Eece4029.freeAll]⟩
  | cons i is ih =>
    obtain ⟨ht', hp⟩ := ih (ht.step (e := .free i (buddyFree t i).1) rfl).1
    refine ⟨ht', ?_⟩
    intro p
    rw [show Eece4029.freeAll t (i :: is) = Eece4029.freeAll (buddyFree t i).2 is from rfl, hp,
      ht.mem_pages_free, List.mem_cons, not_or, and_assoc]

/-- A run of calls of `buddy_alloc` keeps the invariant and adds the pages that start at an index
it returned. -/
theorem BuddyTree.allocs (ht : BuddyTree b t) (h : Run BuddyStep t tr t₁)
    (hall : ∀ x ∈ tr, x.label.IsAlloc) :
    BuddyTree b t₁ ∧ ∀ p, p ∈ t.pages ↔
      p ∈ t₁.pages ∧ (p.start : Int) ∉ tr.filterMap fun x => allocated x.label := by
  induction h with
  | nil => exact ⟨ht, by simp⟩
  | @snoc tr s s' e hr hs ih =>
    obtain ⟨hts, hp⟩ := ih fun x hx => hall x (List.mem_append_left _ hx)
    have he : e.IsAlloc := hall ⟨s, e, s'⟩ (by simp)
    cases e with
    | free => exact he.elim
    | alloc size rt =>
      refine ⟨(hts.step hs).1, ?_⟩
      intro p
      have hrt : (p.start : Int) ≠ rt ↔
          (p.start : Int) ∉ [(⟨s, .alloc size rt, s'⟩ : Step Node Event)].filterMap
            fun x => allocated x.label := by
        by_cases h0 : 0 ≤ rt
        · simp [allocated, h0]
        · simp [allocated, h0]
          omega
      rw [hp, hts.mem_pages_alloc hs, hrt, List.filterMap_append, List.mem_append, not_or,
        and_assoc, and_comm (a := _ ∉ List.filterMap _ tr)]

/-! ## History independence -/

/-- **The tree at the end of a run is coalesced and depends on the live pages alone.** Two runs with
the same live pages end in the same tree; pages that are made and then freed, in any order, leave
the tree as it was; and with the last live page freed the tree is the one `buddy_init` made. -/
theorem buddy_canonical (h : BuddyRun S tr t) :
    t.Coalesced ∧
    (∀ tr' t', BuddyRun S tr' t' → (∀ p, p ∈ livePages tr ↔ p ∈ livePages tr') → t = t') ∧
    (∀ tr₁ t₁ is, Run BuddyStep t tr₁ t₁ → (∀ x ∈ tr₁, x.label.IsAlloc) →
      (∀ i, i ∈ is ↔ i ∈ tr₁.filterMap fun x => allocated x.label) → freeAll t₁ is = t) ∧
    ∀ is : List Int, (∀ p ∈ livePages tr, (p.start : Int) ∈ is) →
      freeAll t is = Node.init S := by
  have hinv := HistoryInv.of_run h
  have ht := hinv.tree
  refine ⟨ht.coalesced, ?_, ?_, ?_⟩
  · intro tr' t' h' hlive
    have hinv' := HistoryInv.of_run h'
    refine ht.ext hinv'.tree fun p => ?_
    rw [hinv.leaves.mem_iff, hinv'.leaves.mem_iff]
    exact hlive p
  · intro tr₁ t₁ is hr hall his
    obtain ⟨ht₁, hp₁⟩ := ht.allocs hr hall
    obtain ⟨ht₂, hp₂⟩ := ht₁.freeAll is
    refine ht₂.ext ht fun p => ?_
    rw [hp₂, hp₁, his]
  · intro is his
    obtain ⟨ht', hp⟩ := ht.freeAll is
    refine ht'.ext (.init S) fun p => ?_
    rw [hp]
    exact ⟨fun hmem => absurd (his p (hinv.leaves.mem_iff.1 hmem.1)) hmem.2,
      fun hmem => nomatch hmem⟩

/-- The two pages again, the lower one freed and made a second time. -/
theorem twoPages_run_again :
    BuddyRun 4 (twoPagesRun ++ [⟨twoPages, .free 0 0, .split 0 4 (.free 0 2) (.alloc 2 2)⟩,
      ⟨.split 0 4 (.free 0 2) (.alloc 2 2), .alloc 2 0, twoPages⟩]) twoPages :=
  twoPages_run.append (.snoc (.snoc .nil rfl) ⟨3, rfl⟩)

theorem buddy_canonical_twoPages :
    twoPages.Coalesced ∧ twoPages = twoPages ∧ freeAll twoPages [2, 0] = Node.init 4 ∧
      freeAll twoPages [0, 2] = Node.init 4 :=
  have h := buddy_canonical twoPages_run
  ⟨h.1, h.2.1 _ _ twoPages_run_again fun p => by
      rw [show livePages twoPagesRun = [⟨2, 2⟩, ⟨0, 2⟩] from rfl]
      exact (List.Perm.swap (⟨0, 2⟩ : Region) ⟨2, 2⟩ []).mem_iff,
    (buddy_canonical (S := 4) .nil).2.2.1 _ _ _ twoPages_run (by decide)
      fun i => by
        rw [show (twoPagesRun.filterMap fun x => allocated x.label) = [0, 2] from rfl]
        exact (List.Perm.swap (0 : Int) 2 []).mem_iff,
    h.2.2.2 [0, 2] (by decide)⟩

end Eece4029
