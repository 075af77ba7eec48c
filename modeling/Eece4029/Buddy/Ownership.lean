import Eece4029.Buddy.Simulation
import Eece4029.Buddy.Runs

/-!
# Who owns the nodes

A run of `buddy.c` on blocks: `buddy_init`, any calls of `buddy_alloc`, `buddy_free` and
`buddy_size` that return, and `buddy_kill`. It is a run of the trees with the same results
(`MemRun.refines`), and at every point between two calls the live blocks are the nodes that
`buddy_head` leads to, each by one path; no call touches a block that was freed or reads a field
that nothing was assigned to, and `buddy_kill` frees them all (`nodes_owned`).
-/

namespace Eece4029

open Transition Blocks

/-! ## Runs -/

/-- `buddy_head` and the blocks of the nodes. -/
structure BuddyMem where
  buddyHead : Ptr
  heap : Blocks

/-- A returned call with its result. -/
inductive MemCall
  | alloc (size rt : Int)
  | free (idx rt : Int)
  | size (idx rt : Int)

/-- The call as an event of a run of trees, unless it only looks. -/
def MemCall.event : MemCall → Option Event
  | .alloc request rt => some (.alloc request rt)
  | .free idx rt => some (.free idx rt)
  | .size .. => none

/-- What the call does on the tree. -/
def MemCall.OnTree (t : Node) : MemCall → Node → Prop
  | .alloc request rt, t' => BuddyStep t (.alloc request rt) t'
  | .free idx rt, t' => BuddyStep t (.free idx rt) t'
  | .size idx rt, t' => t' = t ∧ rt = t.buddySize idx

/-- The step of a returned call. Every call of `bmalloc` succeeds. -/
inductive MemStep (m : BuddyMem) : MemCall → BuddyMem → Prop
  | alloc {size rt : Int} {fuel : Nat} {heap : Blocks}
      (h : buddyAlloc always fuel m.heap m.buddyHead size = .ok (rt, heap)) :
      MemStep m (.alloc size rt) { m with heap := heap }
  | free {idx rt : Int} {fuel : Nat} {heap : Blocks}
      (h : buddyFree fuel m.heap m.buddyHead idx = .ok (rt, heap)) :
      MemStep m (.free idx rt) { m with heap := heap }
  | size {idx rt : Int} {fuel : Nat} (h : buddySize fuel m.heap m.buddyHead idx = .ok rt) :
      MemStep m (.size idx rt) m

/-- `tr` is a run of returned calls to the state `m` after `buddy_init(S)` returned `0`. -/
def MemRun (S : Nat) (tr : List (Step BuddyMem MemCall)) (m : BuddyMem) : Prop :=
  ∃ head heap, buddyInit always .empty S = .ok (0, head, heap) ∧
    Run MemStep ⟨head, heap⟩ tr m

/-! ## Paths -/

/-- From the pointer `p` the turns `w`, `true` to the right, lead through `SPLIT` nodes to the block
`b`. -/
inductive Path (h : Blocks) : Ptr → List Bool → Nat → Prop
  | here {a : Nat} : Path h (some a) [] a
  | left {a b : Nat} {p : Ptr} {w : List Bool} {c : NodeCell} (hc : h.cell a = some c)
      (hs : c.state = some .SPLIT) (hl : c.left = some p) (hp : Path h p w b) :
      Path h (some a) (false :: w) b
  | right {a b : Nat} {p : Ptr} {w : List Bool} {c : NodeCell} (hc : h.cell a = some c)
      (hs : c.state = some .SPLIT) (hr : c.right = some p) (hp : Path h p w b) :
      Path h (some a) (true :: w) b

/-- The live blocks are the nodes that `buddy_head` leads to, each by one path. -/
structure NodesOwned (m : BuddyMem) : Prop where
  live_iff : ∀ b, m.heap.Live b ↔ ∃ w, Path m.heap m.buddyHead w b
  one_path : ∀ b w w', Path m.heap m.buddyHead w b → Path m.heap m.buddyHead w' b → w = w'

variable {h : Blocks} {a b idx sz S fuel : Nat} {t : Node} {F : List Nat} {w w' : List Bool}
  {m m' : BuddyMem} {call : MemCall} {tr : List (Step BuddyMem MemCall)}

/-- A path from a node that is not split ends there. -/
theorem Path.of_leaf {c : NodeCell} (hp : Path h (some a) w b) (hc : h.cell a = some c)
    (hs : c.state ≠ some .SPLIT) : b = a ∧ w = [] := by
  cases hp with
  | here => exact ⟨rfl, rfl⟩
  | left hc' hs' | right hc' hs' =>
    cases hc.symm.trans hc'
    exact absurd hs' hs

/-- The paths of a `SPLIT` node: to itself, and into its two children. -/
theorem path_split {l r : Nat} {lt rt : Node} {fl fr : List Nat}
    (hs : Split h a idx sz l r lt rt fl fr) : Path h (some a) w b ↔
      (b = a ∧ w = []) ∨ (∃ v, w = false :: v ∧ Path h (some l) v b) ∨
        ∃ v, w = true :: v ∧ Path h (some r) v b := by
  obtain ⟨c, hc, hn, hl, hr⟩ := hs.cell
  constructor
  · intro hp
    cases hp with
    | here => exact .inl ⟨rfl, rfl⟩
    | left hc' _ hl' hp =>
      cases hc.symm.trans hc'
      cases hl.symm.trans hl'
      exact .inr (.inl ⟨_, rfl, hp⟩)
    | right hc' _ hr' hp =>
      cases hc.symm.trans hc'
      cases hr.symm.trans hr'
      exact .inr (.inr ⟨_, rfl, hp⟩)
  · rintro (⟨rfl, rfl⟩ | ⟨v, rfl, hp⟩ | ⟨v, rfl, hp⟩)
    · exact .here
    · exact .left hc hn.state hl hp
    · exact .right hc hn.state hr hp

namespace Owns

/-- A tree without a split is one block. -/
theorem leaf (ho : Owns h a t F) (ht : t.state ≠ .SPLIT) :
    ∃ c, h.cell a = some c ∧ c.state ≠ some .SPLIT ∧ F = [a] := by
  cases ho.rep with
  | free hc hn | alloc hc hn => exact ⟨_, hc, by simp [hn.state], rfl⟩
  | split => exact absurd rfl ht

/-- The blocks of a tree are the nodes that its root leads to. -/
theorem mem_iff_path (ho : Owns h a t F) : b ∈ F ↔ ∃ w, Path h (some a) w b := by
  induction t generalizing a F with
  | free idx sz | alloc idx sz =>
    obtain ⟨c, hc, hs, rfl⟩ := ho.leaf (by simp)
    rw [List.mem_singleton]
    constructor
    · rintro rfl
      exact ⟨[], .here⟩
    · rintro ⟨w, hp⟩
      exact (hp.of_leaf hc hs).1
  | split idx sz lt rt ihl ihr =>
    obtain ⟨l, r, fl, fr, hs, rfl⟩ := owns_split.1 ho
    simp only [path_split hs, List.mem_cons, List.mem_append, ihl hs.left, ihr hs.right]
    constructor
    · rintro (rfl | ⟨v, hv⟩ | ⟨v, hv⟩)
      · exact ⟨[], .inl ⟨rfl, rfl⟩⟩
      · exact ⟨_, .inr (.inl ⟨v, rfl, hv⟩)⟩
      · exact ⟨_, .inr (.inr ⟨v, rfl, hv⟩)⟩
    · rintro ⟨w, ⟨rfl, -⟩ | ⟨v, -, hv⟩ | ⟨v, -, hv⟩⟩
      · exact .inl rfl
      · exact .inr (.inl ⟨v, hv⟩)
      · exact .inr (.inr ⟨v, hv⟩)

/-- And it leads to each of them by one path. -/
theorem path_unique (ho : Owns h a t F) (hw : Path h (some a) w b) (hw' : Path h (some a) w' b) :
    w = w' := by
  induction t generalizing a F w w' with
  | free idx sz | alloc idx sz =>
    obtain ⟨c, hc, hs, -⟩ := ho.leaf (by simp)
    exact (hw.of_leaf hc hs).2.trans (hw'.of_leaf hc hs).2.symm
  | split idx sz lt rt ihl ihr =>
    obtain ⟨l, r, fl, fr, hs, rfl⟩ := owns_split.1 ho
    have hleft : ∀ {v}, Path h (some l) v b → b ∈ fl := fun hv => hs.left.mem_iff_path.2 ⟨_, hv⟩
    have hright : ∀ {v}, Path h (some r) v b → b ∈ fr := fun hv => hs.right.mem_iff_path.2 ⟨_, hv⟩
    rcases (path_split hs).1 hw with ⟨rfl, rfl⟩ | ⟨v, rfl, hv⟩ | ⟨v, rfl, hv⟩ <;>
      rcases (path_split hs).1 hw' with ⟨h', rfl⟩ | ⟨v', rfl, hv'⟩ | ⟨v', rfl, hv'⟩
    · rfl
    · exact absurd (hleft hv') hs.root_left
    · exact absurd (hright hv') hs.root_right
    · exact absurd (h' ▸ hleft hv) hs.root_left
    · rw [ihl hs.left hv hv']
    · exact absurd (hleft hv) (hs.apart _ (hright hv'))
    · exact absurd (h' ▸ hright hv) hs.root_right
    · exact absurd (hleft hv') (hs.apart _ (hright hv))
    · rw [ihr hs.right hv hv']

end Owns

/-! ## The blocks refine the tree -/

/-- The blocks represent the tree, and there are no other ones. -/
structure MemRep (m : BuddyMem) (a : Nat) (t : Node) (F : List Nat) : Prop where
  head : m.buddyHead = some a
  owns : Owns m.heap a t F
  all : ∀ b, m.heap.Live b → b ∈ F

namespace MemRep

theorem live_iff (hm : MemRep m a t F) : m.heap.Live b ↔ b ∈ F :=
  ⟨hm.all b, hm.owns.rep.live b⟩

theorem nodesOwned (hm : MemRep m a t F) : NodesOwned m where
  live_iff b := by rw [hm.live_iff, hm.owns.mem_iff_path, hm.head]
  one_path b w w' hw hw' := by
    rw [hm.head] at hw hw'
    exact hm.owns.path_unique hw hw'

/-- After the assignments of `buddy_init` the one block is the head node. -/
theorem initHead {h h' : Blocks} {c : NodeCell} (hc : h.cell a = some c)
    (hall : ∀ b, h.Live b → b = a) (hi : Blocks.initHead h (some a) S = .ok h') :
    MemRep ⟨some a, h'⟩ a (.init S) [a] := by
  obtain ⟨h'', hret, hcell⟩ := initHead_cell S hc
  cases hret.symm.trans hi
  refine ⟨rfl, ⟨.free (c := ⟨some 0, some .FREE, some S, some none, some none⟩) ?_ ⟨rfl, rfl, rfl⟩,
    by simp⟩, ?_⟩
  · rw [hcell, Function.update_self]
  · intro b hb
    by_contra hne
    rw [List.mem_singleton] at hne
    refine hne (hall b ?_)
    rw [Heap.Live, hcell, Function.update_of_ne hne] at hb
    exact hb

/-- `buddy_init` makes the block of the head node. -/
theorem init {head : Ptr} {heap : Blocks}
    (hi : buddyInit always .empty S = .ok (0, head, heap)) :
    MemRep ⟨head, heap⟩ 0 (.init S) [0] := by
  have hc : ((Heap.empty : Blocks).malloc .raw).2.cell 0 = some .raw := rfl
  have hall : ∀ b, ((Heap.empty : Blocks).malloc .raw).2.Live b → b = 0 := by
    intro b hb
    by_contra hne
    exact hb (Function.update_of_ne hne _ _)
  obtain ⟨h', hret, -⟩ := initHead_cell S hc
  have hinit : buddyInit always .empty S = .ok (0, some 0, h') := by
    simp only [buddyInit, bmalloc, if_true, Heap.malloc_fst, reduceCtorEq, if_false]
    rw [show (Heap.empty : Blocks).next = 0 from rfl, hret]
    rfl
  cases hi.symm.trans hinit
  exact .initHead hc hall hret

/-- A returned call does what it does on the tree. -/
theorem step (hm : MemRep m a t F) (hs : MemStep m call m') :
    ∃ t' F', MemRep m' a t' F' ∧ call.OnTree t t' := by
  cases hs with
  | @alloc request rt fuel heap hret =>
    rw [hm.head] at hret
    rcases buddyAlloc_sim fuel request hm.owns with
      ⟨-, hh⟩ | ⟨rt', t', h', F', ht, hh, ho, hmove⟩
    · cases hh.symm.trans hret
    · cases hh.symm.trans hret
      exact ⟨t', F', ⟨hm.head, ho, hmove.owns_all hm.all⟩, fuel, ht⟩
  | @free idx rt fuel heap hret =>
    rw [hm.head] at hret
    rcases buddyFree_sim fuel idx hm.owns with ⟨-, hh⟩ | ⟨h', F', hh, ho, hmove⟩
    · cases hh.symm.trans hret
    · cases hh.symm.trans hret
      exact ⟨_, F', ⟨hm.head, ho, hmove.owns_all hm.all⟩, rfl⟩
  | @size idx rt fuel hret =>
    rw [hm.head] at hret
    rcases buddySize_sim fuel idx hm.owns with ⟨-, hh⟩ | hh
    · cases hh.symm.trans hret
    · cases hh.symm.trans hret
      exact ⟨t, F, hm, rfl, rfl⟩

end MemRep

/-- **A run on blocks is a run on trees.** The calls that change the tree return what they return on
the tree, and its blocks are the ones that are live. -/
theorem MemRun.refines (hr : MemRun S tr m) : ∃ atr t F, BuddyRun S atr t ∧
    atr.map (·.label) = tr.filterMap (fun x => x.label.event) ∧ MemRep m 0 t F := by
  obtain ⟨head, heap, hi, hr⟩ := hr
  induction hr with
  | nil => exact ⟨[], _, _, .nil, rfl, .init hi⟩
  | @snoc tr m m' call _ hs ih =>
    obtain ⟨atr, t, F, hrun, hlabels, hm⟩ := ih
    obtain ⟨t', F', hm', hcall⟩ := hm.step hs
    cases call with
    | alloc size rt =>
      have hstep : BuddyStep t (.alloc size rt) t' := hcall
      exact ⟨_, t', F', hrun.snoc hstep, by simp [hlabels, MemCall.event], hm'⟩
    | free idx rt =>
      have hstep : BuddyStep t (.free idx rt) t' := hcall
      exact ⟨_, t', F', hrun.snoc hstep, by simp [hlabels, MemCall.event], hm'⟩
    | size idx rt =>
      obtain ⟨rfl, -⟩ := hcall
      exact ⟨atr, _, F', hrun, by simp [hlabels, MemCall.event], hm'⟩

/-! ## No mistakes -/

/-- What can be said of a call at any fuel: it does not stop for a mistake. -/
def NoFault {β : Type} (x : Except Stop β) : Prop := ∀ e, x = .error e → e = .fuel

namespace MemRep

theorem alloc_noFault (hm : MemRep m a t F) (fuel : Nat) (size : Int) :
    NoFault (buddyAlloc always fuel m.heap m.buddyHead size) := by
  intro e he
  rw [hm.head] at he
  rcases buddyAlloc_sim fuel size hm.owns with ⟨-, hh⟩ | ⟨_, _, _, _, -, hh, -, -⟩ <;>
    cases hh.symm.trans he
  rfl

theorem free_noFault (hm : MemRep m a t F) (fuel : Nat) (idx : Int) :
    NoFault (buddyFree fuel m.heap m.buddyHead idx) := by
  intro e he
  rw [hm.head] at he
  rcases buddyFree_sim fuel idx hm.owns with ⟨-, hh⟩ | ⟨_, _, hh, -, -⟩ <;> cases hh.symm.trans he
  rfl

theorem size_noFault (hm : MemRep m a t F) (fuel : Nat) (idx : Int) :
    NoFault (buddySize fuel m.heap m.buddyHead idx) := by
  intro e he
  rw [hm.head] at he
  rcases buddySize_sim fuel idx hm.owns with ⟨-, hh⟩ | hh <;> cases hh.symm.trans he
  rfl

theorem kill_noFault (hm : MemRep m a t F) (fuel : Nat) :
    NoFault (buddyKill fuel m.heap m.buddyHead) := by
  intro e he
  rw [hm.head] at he
  rcases buddyKill_sim fuel hm.owns with ⟨-, hh⟩ | ⟨_, hh, -⟩ <;> cases hh.symm.trans he
  rfl

/-- `buddy_kill` leaves no block. -/
theorem kill_all (hm : MemRep m a t F) {heap : Blocks}
    (hret : buddyKill fuel m.heap m.buddyHead = .ok heap) (b : Nat) : ¬ heap.Live b := by
  intro hb
  rw [hm.head] at hret
  rcases buddyKill_sim fuel hm.owns with ⟨-, hh⟩ | ⟨_, hh, hmove⟩ <;> cases hh.symm.trans hret
  exact List.not_mem_nil (hmove.owns_all hm.all b hb)

/-- `buddy_kill` returns. -/
theorem kill_returns (hm : MemRep m a t F) :
    ∃ fuel heap, buddyKill fuel m.heap m.buddyHead = .ok heap := by
  rw [hm.head]
  rcases buddyKill_sim t.height hm.owns with ⟨hlt, -⟩ | ⟨heap, hh, -⟩
  · exact absurd hlt (Nat.lt_irrefl _)
  · exact ⟨_, heap, hh⟩

end MemRep

/-- **Ownership of the nodes.** After any run the live blocks are the nodes that `buddy_head` leads
to through `SPLIT` nodes, each by one path. No call that may follow, however far it gets, touches a
block that is not live (so that none is freed twice) or reads a field without a value; and
`buddy_kill` returns and leaves no block. -/
theorem nodes_owned (hr : MemRun S tr m) : NodesOwned m ∧
    (∀ fuel size, NoFault (buddyAlloc always fuel m.heap m.buddyHead size)) ∧
    (∀ fuel idx, NoFault (buddyFree fuel m.heap m.buddyHead idx)) ∧
    (∀ fuel idx, NoFault (buddySize fuel m.heap m.buddyHead idx)) ∧
    (∀ fuel, NoFault (buddyKill fuel m.heap m.buddyHead)) ∧
    (∀ fuel heap, buddyKill fuel m.heap m.buddyHead = .ok heap → ∀ b, ¬ heap.Live b) ∧
    ∃ fuel heap, buddyKill fuel m.heap m.buddyHead = .ok heap := by
  obtain ⟨-, t, F, -, -, hm⟩ := hr.refines
  exact ⟨hm.nodesOwned, hm.alloc_noFault, hm.free_noFault, hm.size_noFault, hm.kill_noFault,
    fun _ _ hret => hm.kill_all hret, hm.kill_returns⟩

/-- A pool of two bytes with a page of one. -/
theorem nodes_owned_onePage : ∃ tr m, MemRun 2 tr m ∧ tr.map (·.label) = [.alloc 1 0] ∧
    NodesOwned m := by
  have hrun : MemRun 2 _ _ := ⟨_, _, rfl, Run.nil.snoc (@MemStep.alloc _ 1 0 2 _ rfl)⟩
  exact ⟨_, _, hrun, rfl, (nodes_owned hrun).1⟩

end Eece4029
