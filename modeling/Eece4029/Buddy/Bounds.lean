import Eece4029.Buddy.Allocator
import Eece4029.Buddy.Ownership
import Eece4029.Buddy.Termination
import Mathlib.Data.Nat.Log

/-!
# What the allocator costs

The functions of the allocator recurse as deep as the tree is, on the stack of the kernel, and every
split asks `bmalloc` for two blocks. A tree over `S` bytes has at most `log2 S` splits above each
page, because a split halves its bytes and both halves of a reachable split have some; and one of
the two halves leads to a page, so the number of blocks is bounded by the number of pages
(`pool_bounds`). A page is shorter than twice what was asked for, so less than half of the pages is
wasted (`waste_bounded`).
-/

namespace Eece4029

open Transition Node Blocks

/-- The first byte of a node and its size. -/
def Node.extent : Node → Region
  | .free idx size | .split idx size _ _ | .alloc idx size => ⟨idx, size⟩

variable {S : Nat} {t t' : Node} {b : Region} {tr : List (Step Node Event)}

namespace BuddyTree

/-- Both halves of a split have bytes. -/
theorem two_le_len {l r : Node} (h : BuddyTree b (.split b.start b.len l r)) : 2 ≤ b.len := by
  obtain ⟨p, hp, -, h0⟩ := h.exists_page
  cases h with
  | split _ hl hr hne =>
    rcases List.mem_append.1 hp with hp | hp
    · have hin := (hl.pages_inside p hp).1
      simp only [Region.Inside, Region.left_start, Region.left_len] at hin
      omega
    · have hin := (hr.pages_inside p hp).1
      simp only [Region.Inside, Region.right_start, Region.right_len] at hin
      omega

/-- A tree is as deep as its bytes can be halved. -/
theorem pow_height_le (ht : BuddyTree b t) : 2 ^ t.height ≤ 2 * max b.len 1 := by
  induction ht with
  | free b | alloc b => exact Nat.mul_le_mul_left 2 (Nat.le_max_right b.len 1)
  | @split b l r hl hr hne ihl ihr =>
    have hlen := two_le_len (.split b hl hr hne)
    rw [Region.left_len] at ihl
    rw [Region.right_len] at ihr
    have hmax : 2 ^ max l.height r.height ≤ 2 * max (b.len / 2) 1 := by
      rcases Nat.le_total l.height r.height with hle | hle
      · rwa [Nat.max_eq_right hle]
      · rwa [Nat.max_eq_left hle]
    rw [Node.height, Nat.pow_succ]
    omega

theorem height_le (ht : BuddyTree ⟨0, S⟩ t) : t.height ≤ Nat.log 2 S + 1 := by
  have hpow : 2 ^ t.height ≤ 2 * max S 1 := ht.pow_height_le
  have hlt : S < 2 ^ (Nat.log 2 S + 1) := Nat.lt_pow_succ_log_self (by decide) S
  refine Nat.le_of_lt_succ ((Nat.pow_lt_pow_iff_right (a := 2) (by decide)).1 ?_)
  rw [Nat.pow_succ]
  omega

/-- On the way down to each page there are fewer splits than that, with two nodes below each. -/
theorem length_nodes_le (ht : BuddyTree b t) :
    t.nodes.length ≤ 2 * (t.pages.length * (t.height - 1)) + 1 := by
  induction ht with
  | free b | alloc b => exact Nat.le_add_left 1 _
  | @split b l r hl hr hne ihl ihr =>
    obtain ⟨p, hp, -⟩ := exists_page (.split b hl hr hne)
    have hpos : 1 ≤ l.pages.length + r.pages.length := by
      rw [← List.length_append]
      exact List.length_pos_of_mem hp
    have hdepth : ∀ n : Node, n.height - 1 + 1 = n.height := by
      intro n
      cases n <;> rfl
    have hmax : max l.height r.height = max (l.height - 1) (r.height - 1) + 1 := by
      rw [← hdepth l, ← hdepth r]
      omega
    have hleft := Nat.mul_le_mul_left l.pages.length (Nat.le_max_left (l.height - 1) (r.height - 1))
    have hright :=
      Nat.mul_le_mul_left r.pages.length (Nat.le_max_right (l.height - 1) (r.height - 1))
    simp only [Node.nodes, Node.height, Node.pages_split, List.length_cons, List.length_append,
      Nat.add_sub_cancel, hmax, Nat.mul_add, Nat.add_mul, Nat.mul_one]
    omega

theorem nodes_inside (ht : BuddyTree b t) : ∀ n ∈ t.nodes, n.extent.Inside b := by
  induction ht with
  | free b | alloc b => exact List.forall_mem_singleton.2 ⟨Nat.le_refl _, Nat.le_refl _⟩
  | @split b l r hl hr hne ihl ihr =>
    refine List.forall_mem_cons.2 ⟨⟨Nat.le_refl _, Nat.le_refl _⟩, ?_⟩
    refine List.forall_mem_append.2 ⟨fun n hn => ?_, fun n hn => ?_⟩
    · have hin := ihl n hn
      simp only [Region.Inside, Region.left_start, Region.left_len] at hin ⊢
      omega
    · have hin := ihr n hn
      simp only [Region.Inside, Region.right_start, Region.right_len] at hin ⊢
      omega

end BuddyTree

/-! ## The depth of the recursion -/

/-- A call recurses no deeper than the tree that it leaves. -/
theorem Node.AllocReturns.depth {size rt : Int} (h : AllocReturns t size rt t') :
    buddyAlloc t'.height t size = some (rt, t') := by
  induction t' generalizing t rt with
  | free idx sz =>
    cases t with
    | free idx' sz' =>
      rcases allocReturns_free.1 h with ⟨hlt, rfl, heq⟩ | ⟨-, _, -, heq⟩ | ⟨-, -, -, heq⟩
      · cases heq
        exact if_pos hlt
      · cases heq
      · cases heq
    | alloc => cases (allocReturns_alloc.1 h).2
    | split =>
      rcases allocReturns_split.1 h with ⟨_, -, -, heq⟩ | ⟨_, _, _, -, -, -, heq⟩
      · cases heq
      · cases heq
  | alloc idx sz =>
    cases t with
    | free idx' sz' =>
      rcases allocReturns_free.1 h with ⟨-, -, heq⟩ | ⟨-, _, -, heq⟩ | ⟨hle, hhalf, rfl, heq⟩
      · cases heq
      · cases heq
      · cases heq
        exact (if_neg (Int.not_lt.2 hle)).trans (if_neg (Int.not_le.2 hhalf))
    | alloc =>
      obtain ⟨rfl, heq⟩ := allocReturns_alloc.1 h
      cases heq
      rfl
    | split =>
      rcases allocReturns_split.1 h with ⟨_, -, -, heq⟩ | ⟨_, _, _, -, -, -, heq⟩
      · cases heq
      · cases heq
  | split idx sz l' r' ihl ihr =>
    have hl : l'.height ≤ max l'.height r'.height := Nat.le_max_left ..
    have hr : r'.height ≤ max l'.height r'.height := Nat.le_max_right ..
    cases t with
    | free idx' sz' =>
      rcases allocReturns_free.1 h with ⟨-, -, heq⟩ | ⟨hhalf, _, hleft, heq⟩ | ⟨-, -, -, heq⟩
      · cases heq
      · cases heq
        have hcall := buddyAlloc_mono hl (ihl hleft)
        have hfits : ¬ (sz : Int) < size := by omega
        rw [Node.height, buddyAlloc, if_neg hfits, if_pos hhalf, hcall]
        rfl
      · cases heq
    | alloc => cases (allocReturns_alloc.1 h).2
    | split =>
      rcases allocReturns_split.1 h with ⟨_, hleft, h0, heq⟩ | ⟨rtl, _, _, hleft, hneg, hright, heq⟩
      · cases heq
        have hcall := buddyAlloc_mono hl (ihl hleft)
        simp only [Node.height, buddyAlloc, hcall]
        exact if_pos h0
      · cases heq
        have hcall := buddyAlloc_mono hl (ihl hleft)
        have hcall' := buddyAlloc_mono hr (ihr hright)
        simp only [Node.height, buddyAlloc, hcall, hcall']
        exact if_neg (Int.not_le.2 hneg)

/-! ## The blocks of the nodes -/

namespace Owns

variable {h : Blocks} {a : Nat} {F : List Nat}

/-- Every node has one block. -/
theorem length_eq (ho : Owns h a t F) : F.length = t.nodes.length := by
  induction t generalizing a F with
  | free idx sz | alloc idx sz =>
    obtain ⟨-, -, -, rfl⟩ := ho.leaf (by simp)
    rfl
  | split idx sz lt rt ihl ihr =>
    obtain ⟨l, r, fl, fr, hs, rfl⟩ := owns_split.1 ho
    simp only [List.length_cons, List.length_append, Node.nodes, ihl hs.left, ihr hs.right]

/-- And the block holds the index and the size of its node. -/
theorem extent_of_cell (ho : Owns h a t F) {p : Nat} (hp : p ∈ F) :
    ∃ c n, h.cell p = some c ∧ n ∈ t.nodes ∧ c.idx = some n.extent.start ∧
      c.size = some n.extent.len := by
  induction t generalizing a F with
  | free idx sz =>
    cases ho.rep with
    | free hc hn =>
      rw [List.mem_singleton.1 hp]
      exact ⟨_, _, hc, List.mem_singleton_self _, hn.idx, hn.size⟩
  | alloc idx sz =>
    cases ho.rep with
    | alloc hc hn =>
      rw [List.mem_singleton.1 hp]
      exact ⟨_, _, hc, List.mem_singleton_self _, hn.idx, hn.size⟩
  | split idx sz lt rt ihl ihr =>
    obtain ⟨l, r, fl, fr, hs, rfl⟩ := owns_split.1 ho
    obtain rfl | hp := List.mem_cons.1 hp
    · obtain ⟨c, hc, hn, -⟩ := hs.cell
      exact ⟨c, _, hc, List.mem_cons_self, hn.idx, hn.size⟩
    · obtain hp | hp := List.mem_append.1 hp
      · obtain ⟨c, n, hc, hn, hfields⟩ := ihl hs.left hp
        exact ⟨c, n, hc, List.mem_cons_of_mem _ (List.mem_append_left _ hn), hfields⟩
      · obtain ⟨c, n, hc, hn, hfields⟩ := ihr hs.right hp
        exact ⟨c, n, hc, List.mem_cons_of_mem _ (List.mem_append_right _ hn), hfields⟩

end Owns

/-! ## Over whole runs -/

/-- What a pool of `S` bytes with so many live pages bounds between two calls: how deep the
functions recurse, how many blocks the nodes take, and the numbers that stand in them. -/
structure PoolBounds (S pages : Nat) (m : BuddyMem) : Prop where
  alloc : ∀ size : Int, 0 < size → ∃ rt heap,
    buddyAlloc always (Nat.log 2 S + 1) m.heap m.buddyHead size = .ok (rt, heap)
  free : ∀ idx, ∃ rt heap,
    buddyFree (Nat.log 2 S + 1) m.heap m.buddyHead idx = .ok (rt, heap)
  size : ∀ idx, ∃ rt, buddySize (Nat.log 2 S + 1) m.heap m.buddyHead idx = .ok rt
  kill : ∃ heap, buddyKill (Nat.log 2 S + 1) m.heap m.buddyHead = .ok heap
  blocks : ∃ F : List Nat, (∀ b, m.heap.Live b ↔ b ∈ F) ∧
    F.length ≤ 2 * (pages * Nat.log 2 S) + 1
  fields : ∀ b c, m.heap.cell b = some c → ∃ idx size, c.idx = some idx ∧ c.size = some size ∧
    idx + size ≤ S

/-- The bounds of the blocks are those of the tree. -/
theorem MemRep.bounds {m : BuddyMem} {F : List Nat} (hm : MemRep m 0 t F)
    (ht : BuddyTree ⟨0, S⟩ t)
    (hstep : ∀ size rt t', AllocReturns t size rt t' → BuddyTree ⟨0, S⟩ t') :
    PoolBounds S t.pages.length m := by
  have hdeep : ¬ Nat.log 2 S + 1 < t.height := Nat.not_lt.2 ht.height_le
  refine ⟨fun size hsize => ?_, fun idx => ?_, fun idx => ?_, ?_, ⟨F, fun _ => hm.live_iff, ?_⟩,
    fun p c hc => ?_⟩
  · obtain ⟨rt, t', hret⟩ := BuddyTree.alloc_returns hsize t
    have hcall := buddyAlloc_mono (hstep size rt t' hret).height_le hret.depth
    rw [hm.head]
    rcases buddyAlloc_sim (Nat.log 2 S + 1) size hm.owns with
      ⟨hnone, -⟩ | ⟨rt', _, heap, _, -, hh, -⟩
    · cases hcall.symm.trans hnone
    · exact ⟨rt', heap, hh⟩
  · rw [hm.head]
    rcases buddyFree_sim (Nat.log 2 S + 1) idx hm.owns with ⟨hlt, -⟩ | ⟨heap, _, hh, -⟩
    · exact absurd hlt hdeep
    · exact ⟨_, heap, hh⟩
  · rw [hm.head]
    rcases buddySize_sim (Nat.log 2 S + 1) idx hm.owns with ⟨hlt, -⟩ | hh
    · exact absurd hlt hdeep
    · exact ⟨_, hh⟩
  · rw [hm.head]
    rcases buddyKill_sim (Nat.log 2 S + 1) hm.owns with ⟨hlt, -⟩ | ⟨heap, hh, -⟩
    · exact absurd hlt hdeep
    · exact ⟨heap, hh⟩
  · have hnodes := ht.length_nodes_le
    have hmul : t.pages.length * (t.height - 1) ≤ t.pages.length * Nat.log 2 S :=
      Nat.mul_le_mul_left _ (Nat.sub_le_of_le_add ht.height_le)
    rw [hm.owns.length_eq]
    omega
  · have hp := hm.live_iff.1 (Heap.live_of_cell hc)
    obtain ⟨c', n, hc', hn, hidx, hsize⟩ := hm.owns.extent_of_cell hp
    cases hc.symm.trans hc'
    have hin := (ht.nodes_inside n hn).2
    exact ⟨_, _, hidx, hsize, by simpa using hin⟩

/-- **What the allocator costs.** After any returned calls every call of the four functions, for a
positive request where it asks for a page, ends within `log2 S + 1` nested calls; each live page
accounts for at most `2 * log2 S` blocks besides the one of the head node; and no node reaches past
the `S` bytes. -/
theorem pool_bounds {tr : List (Step BuddyMem MemCall)} {m : BuddyMem} (hr : MemRun S tr m) :
    ∃ atr t, BuddyRun S atr t ∧
      atr.map (·.label) = tr.filterMap (fun x => x.label.event) ∧
      PoolBounds S (livePages atr).length m := by
  obtain ⟨atr, t, F, hrun, hlabels, hm⟩ := hr.refines
  have hbounds : PoolBounds S t.pages.length m := by
    refine hm.bounds (.of_run hrun) fun size rt t' hret => ?_
    have hstep : BuddyStep t (.alloc size rt) t' := hret
    exact .of_run (hrun.snoc hstep)
  have hlive : t.pages.length = (livePages atr).length := (HistoryInv.of_run hrun).leaves.length_eq
  exact ⟨atr, t, hrun, hlabels, hlive ▸ hbounds⟩

/-- A pool of two bytes with a page of one. -/
theorem pool_bounds_onePage : ∃ tr m, MemRun 2 tr m ∧ tr.map (·.label) = [.alloc 1 0] ∧
    ∃ atr t, BuddyRun 2 atr t ∧ atr.map (·.label) = [.alloc 1 0] ∧
      PoolBounds 2 (livePages atr).length m := by
  have hrun : MemRun 2 _ _ := ⟨_, _, rfl, Run.nil.snoc (@MemStep.alloc _ 1 0 2 _ rfl)⟩
  exact ⟨_, _, hrun, rfl, pool_bounds hrun⟩

/-! ## What is wasted -/

/-- A page that the abstract allocator makes is shorter than twice the request. -/
theorem AllocatorStep.page_lt {taken taken' : Set Region} {size rt : Int}
    (h : AllocatorStep S taken (.alloc size rt) taken') (hrt : 0 ≤ rt) :
    ∃ c ∈ taken', (c.start : Int) = rt ∧ (c.len : Int) < 2 * size := by
  cases h with
  | @page _ k c h0 hk hc =>
    have hlen : c.len = S / 2 ^ k := Region.halvings_len hc.block
    have hhalf := hk.bounds.2
    rw [Nat.pow_succ, ← Nat.div_div_eq_div_mul, ← hlen] at hhalf
    exact ⟨c, Set.mem_insert c taken, rfl, by omega⟩
  | full | tooBig | nonpos => omega

/-- So is every live page. -/
theorem live_lt (h : BuddyRun S tr t) :
    ∀ q ∈ live tr, (q.page.len : Int) < 2 * q.request := by
  induction h with
  | nil => exact fun q hq => absurd hq List.not_mem_nil
  | @snoc tr t t' e hr hs ih =>
    rw [live_snoc]
    cases e with
    | alloc size rt =>
      change ∀ q ∈ if 0 ≤ rt then ⟨pageAt t' rt, size⟩ :: live tr else live tr, _
      obtain hrt | hrt := Int.lt_or_le rt 0
      · rw [if_neg (Int.not_le.2 hrt)]
        exact ih
      · rw [if_pos hrt]
        refine List.forall_mem_cons.2 ⟨?_, ih⟩
        obtain ⟨c, hc, rfl, hlt⟩ := (buddyStep_refines (.of_run hr) hs).page_lt hrt
        have ht' : BuddyTree ⟨0, S⟩ t' := .of_run (hr.snoc hs)
        rw [ht'.pageAt_eq hc]
        exact hlt
    | free idx rt =>
      change ∀ q ∈ if rt = 0 then (live tr).filter _ else live tr, _
      split
      · exact fun q hq => ih q (List.mem_filter.1 hq).1
      · exact ih

/-- The bytes that were asked for in the live pages. -/
def requested (L : List LivePage) : Int := (L.map (·.request)).sum

/-- The bytes of the live pages. -/
def inUse (L : List LivePage) : Nat := (L.map (·.page.len)).sum

/-- **Less than half of the memory in use is wasted.** After any returned calls a live page has at
least the bytes that were asked for and less than twice as many, so all of them together have at
least the bytes asked for, and less than twice as many by one for each page. -/
theorem waste_bounded (h : BuddyRun S tr t) :
    (∀ q ∈ live tr, q.request ≤ q.page.len ∧ (q.page.len : Int) < 2 * q.request) ∧
    requested (live tr) ≤ inUse (live tr) ∧
    inUse (live tr) + (live tr).length ≤ 2 * requested (live tr) := by
  have hpages : ∀ q ∈ live tr, q.request ≤ q.page.len ∧ (q.page.len : Int) < 2 * q.request :=
    fun q hq => ⟨(HistoryInv.of_run h).holds q hq, live_lt h q hq⟩
  refine ⟨hpages, ?_⟩
  generalize live tr = L at hpages
  induction L with
  | nil => exact ⟨Int.le_refl 0, Int.le_refl 0⟩
  | cons q L ih =>
    obtain ⟨hq, hL⟩ := List.forall_mem_cons.1 hpages
    have hrest := ih hL
    simp only [requested, inUse, List.map_cons, List.sum_cons, List.length_cons] at hrest ⊢
    omega

theorem waste_bounded_twoPages : requested (live twoPagesRun) ≤ inUse (live twoPagesRun) ∧
    inUse (live twoPagesRun) + (live twoPagesRun).length ≤ 2 * requested (live twoPagesRun) :=
  (waste_bounded twoPages_run).2

end Eece4029
