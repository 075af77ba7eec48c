import Eece4029.Lib.Heap
import Eece4029.Buddy.Node

/-!
# The nodes of the buddy allocator as blocks

`buddy.c` gets every `node_t` from `bmalloc`, which leaves its fields undefined, and gives it back
with `bfree`. Here are its functions on a heap of such blocks, with every field read where the
source reads it: `_buddy_alloc` fills in only one of the two pointers of each child that it makes,
and `_buddy_free` merges the children of a node while calls that visited them are still to return.
The recursions count their depth down from `fuel`, and the calls of `bmalloc` are answered by
`avail`, which is asked with the number of the block that would be made.
-/

namespace Eece4029

/-- `struct node_t` as a block: a field that nothing was assigned to has no value. -/
structure NodeCell where
  idx : Option Nat
  state : Option NodeState
  size : Option Nat
  left : Option Ptr
  right : Option Ptr
deriving DecidableEq, Repr

/-- What `bmalloc(sizeof(node_t))` returns a pointer to. -/
def NodeCell.raw : NodeCell := ⟨none, none, none, none, none⟩

/-- The blocks of the nodes. -/
abbrev Blocks := Heap NodeCell

namespace Blocks

variable (avail : Nat → Bool)

/-- The value of the field that the pointer leads to. -/
def field {β : Type} (h : Blocks) (p : Ptr) (f : NodeCell → Option β) : Except Stop β := do
  let c ← h.load p
  match f c with
  | none => .error .unassigned
  | some v => .ok v

/-- `bmalloc(sizeof(node_t))`. -/
def bmalloc (h : Blocks) : Ptr × Blocks :=
  if avail h.next then
    let (a, h) := h.malloc .raw
    (some a, h)
  else
    (none, { h with next := h.next + 1, fresh := fun b hb => h.fresh b (Nat.le_of_succ_le hb) })

/-- The assignments of `buddy_init(size)` to the head node. -/
def initHead (h : Blocks) (head : Ptr) (size : Nat) : Except Stop Blocks := do
  let h ← h.store head fun c => { c with left := some none }
  let h ← h.store head fun c => { c with right := some none }
  let h ← h.store head fun c => { c with state := some .FREE }
  let h ← h.store head fun c => { c with size := some size }
  h.store head fun c => { c with idx := some 0 }

/-- `buddy_init(size)` after the pool was allocated: its result, `buddy_head` and the blocks. -/
def buddyInit (h : Blocks) (size : Nat) : Except Stop (Int × Ptr × Blocks) := do
  let (head, h) := bmalloc avail h
  if head = none then
    return (-1, head, h)
  else
    let h ← initHead h head size
    return (0, head, h)

/-- The part of `_buddy_alloc` that splits the node `n`. -/
def splitNode (h : Blocks) (n : Ptr) : Except Stop Blocks := do
  let h ← h.store n fun c => { c with state := some .SPLIT }
  let (left, h) := bmalloc avail h
  let h ← h.store n fun c => { c with left := some left }
  let (right, h) := bmalloc avail h
  let h ← h.store n fun c => { c with right := some right }
  let size ← field h n (·.size)
  let idx ← field h n (·.idx)
  let h ← h.store left fun c => { c with state := some .FREE }
  let h ← h.store right fun c => { c with state := some .FREE }
  let h ← h.store left fun c => { c with size := some (size / 2) }
  let h ← h.store right fun c => { c with size := some (size / 2) }
  let h ← h.store left fun c => { c with idx := some idx }
  let h ← h.store right fun c => { c with idx := some (idx + size / 2) }
  let h ← h.store left fun c => { c with left := some none }
  h.store right fun c => { c with right := some none }

/-- `_buddy_alloc`. -/
def buddyAlloc : Nat → Blocks → Ptr → Int → Except Stop (Int × Blocks)
  | 0, _, _, _ => .error .fuel
  | fuel + 1, h, n, size => do
    let state ← field h n (·.state)
    if state = .SPLIT then
      let left ← field h n (·.left)
      let (rt, h) ← buddyAlloc fuel h left size
      if 0 ≤ rt then
        return (rt, h)
      else
        let right ← field h n (·.right)
        buddyAlloc fuel h right size
    else if state ≠ .FREE then
      return (-1, h)
    else
      let sz ← field h n (·.size)
      if (sz : Int) < size then
        return (-1, h)
      else if size ≤ ((sz / 2 : Nat) : Int) then
        let h ← splitNode avail h n
        let left ← field h n (·.left)
        buddyAlloc fuel h left size
      else
        let h ← h.store n fun c => { c with state := some .ALLOC }
        let idx ← field h n (·.idx)
        return (idx, h)

/-- The condition of a merge: `n->left->state == FREE && n->right->state == FREE`. -/
def bothFree (h : Blocks) (n : Ptr) : Except Stop Bool := do
  let left ← field h n (·.left)
  let leftState ← field h left (·.state)
  if leftState = .FREE then
    let right ← field h n (·.right)
    let rightState ← field h right (·.state)
    return rightState = .FREE
  else
    return false

/-- The part of `_buddy_free` that merges the children of the node `n`. -/
def mergeNode (h : Blocks) (n : Ptr) : Except Stop Blocks := do
  let left ← field h n (·.left)
  let h ← h.free left
  let right ← field h n (·.right)
  let h ← h.free right
  let h ← h.store n fun c => { c with left := some none }
  let h ← h.store n fun c => { c with right := some none }
  h.store n fun c => { c with state := some .FREE }

/-- `_buddy_free`. -/
def buddyFree : Nat → Blocks → Ptr → Int → Except Stop (Int × Blocks)
  | 0, _, _, _ => .error .fuel
  | fuel + 1, h, n, i => do
    let state ← field h n (·.state)
    if state = .SPLIT then
      let left ← field h n (·.left)
      let (rtLeft, h) ← buddyFree fuel h left i
      let right ← field h n (·.right)
      let (rtRight, h) ← buddyFree fuel h right i
      let merge ← bothFree h n
      let h ← if merge then mergeNode h n else pure h
      return (if rtLeft = 0 ∨ rtRight = 0 then 0 else -1, h)
    else
      let idx ← field h n (·.idx)
      if (idx : Int) = i ∧ state = .ALLOC then
        let h ← h.store n fun c => { c with state := some .FREE }
        return (0, h)
      else
        return (-1, h)

/-- `_buddy_size`. -/
def buddySize : Nat → Blocks → Ptr → Int → Except Stop Int
  | 0, _, _, _ => .error .fuel
  | fuel + 1, h, n, i => do
    let state ← field h n (·.state)
    if state = .SPLIT then
      let right ← field h n (·.right)
      let rt ← buddySize fuel h right i
      if rt < 0 then
        let left ← field h n (·.left)
        buddySize fuel h left i
      else
        return rt
    else
      let idx ← field h n (·.idx)
      let size ← field h n (·.size)
      return if (idx : Int) ≤ i ∧ i < idx + size ∧ state = .ALLOC then (idx + size) - i else -1

/-- `_buddy_kill`. -/
def buddyKill : Nat → Blocks → Ptr → Except Stop Blocks
  | 0, _, _ => .error .fuel
  | fuel + 1, h, n => do
    let state ← field h n (·.state)
    if state = .SPLIT then
      let left ← field h n (·.left)
      let h ← buddyKill fuel h left
      let right ← field h n (·.right)
      let h ← buddyKill fuel h right
      h.free n
    else
      h.free n

end Blocks

/-! ## A tree in the blocks -/

/-- The values of a node. -/
structure NodeCell.Is (c : NodeCell) (idx : Nat) (state : NodeState) (size : Nat) : Prop where
  idx : c.idx = some idx
  state : c.state = some state
  size : c.size = some size

theorem NodeCell.Is.eq_of_cell {c c' : NodeCell} {idx idx' size size' : Nat}
    {state state' : NodeState} (hn : c.Is idx state size) (hn' : c'.Is idx' state' size')
    (hc : some c = some c') : idx = idx' ∧ state = state' ∧ size = size' := by
  cases hc
  exact ⟨Option.some.inj (hn.idx.symm.trans hn'.idx),
    Option.some.inj (hn.state.symm.trans hn'.state), Option.some.inj (hn.size.symm.trans hn'.size)⟩

/-- The block `a` is the root of the tree `t`, and the nodes of the tree are the blocks of `F`. -/
inductive Rep (h : Blocks) : Nat → Node → List Nat → Prop
  | free {a idx size : Nat} {c : NodeCell} (hc : h.cell a = some c) (hn : c.Is idx .FREE size) :
      Rep h a (.free idx size) [a]
  | alloc {a idx size : Nat} {c : NodeCell} (hc : h.cell a = some c) (hn : c.Is idx .ALLOC size) :
      Rep h a (.alloc idx size) [a]
  | split {a idx size l r : Nat} {c : NodeCell} {lt rt : Node} {fl fr : List Nat}
      (hc : h.cell a = some c) (hn : c.Is idx .SPLIT size) (hl : c.left = some (some l))
      (hr : c.right = some (some r)) (left : Rep h l lt fl) (right : Rep h r rt fr) :
      Rep h a (.split idx size lt rt) (a :: (fl ++ fr))

/-- The tree is in the blocks of `F`, and no two of its nodes are the same block. -/
structure Owns (h : Blocks) (a : Nat) (t : Node) (F : List Nat) : Prop where
  rep : Rep h a t F
  nodup : F.Nodup

namespace Rep

variable {h h' : Blocks} {a : Nat} {t : Node} {F : List Nat}

theorem root_mem (hr : Rep h a t F) : a ∈ F := by
  cases hr <;> exact List.mem_cons_self

/-- The nodes of a tree are live. -/
theorem live (hr : Rep h a t F) : ∀ b ∈ F, h.Live b := by
  induction hr with
  | free hc | alloc hc =>
    intro b hb
    rw [List.mem_singleton.1 hb]
    exact Heap.live_of_cell hc
  | split hc _ _ _ _ _ ihl ihr =>
    intro b hb
    rcases List.mem_cons.1 hb with rfl | hb
    · exact Heap.live_of_cell hc
    · rcases List.mem_append.1 hb with hb | hb
      · exact ihl b hb
      · exact ihr b hb

/-- A tree depends on its own blocks only. -/
theorem same (hr : Rep h a t F) (hs : Heap.SameOn F h h') : Rep h' a t F := by
  induction hr with
  | free hc hn => exact .free ((hs _ List.mem_cons_self).trans hc) hn
  | alloc hc hn => exact .alloc ((hs _ List.mem_cons_self).trans hc) hn
  | split hc hn hl hr _ _ ihl ihr =>
    refine .split ((hs _ List.mem_cons_self).trans hc) hn hl hr (ihl ?_) (ihr ?_)
    · exact hs.subset fun b hb => List.mem_cons_of_mem _ (List.mem_append_left _ hb)
    · exact hs.subset fun b hb => List.mem_cons_of_mem _ (List.mem_append_right _ hb)

/-- The blocks determine the tree. -/
theorem unique {t' : Node} {F' : List Nat} (hr : Rep h a t F) (hr' : Rep h a t' F') : t = t' := by
  induction hr generalizing t' F' with
  | free hc hn =>
    cases hr' with
    | free hc' hn' =>
      obtain ⟨rfl, -, rfl⟩ := hn.eq_of_cell hn' (hc.symm.trans hc')
      rfl
    | alloc hc' hn' | split hc' hn' => cases (hn.eq_of_cell hn' (hc.symm.trans hc')).2.1
  | alloc hc hn =>
    cases hr' with
    | alloc hc' hn' =>
      obtain ⟨rfl, -, rfl⟩ := hn.eq_of_cell hn' (hc.symm.trans hc')
      rfl
    | free hc' hn' | split hc' hn' => cases (hn.eq_of_cell hn' (hc.symm.trans hc')).2.1
  | split hc hn hl hr _ _ ihl ihr =>
    cases hr' with
    | split hc' hn' hl' hr' left right =>
      obtain ⟨rfl, -, rfl⟩ := hn.eq_of_cell hn' (hc.symm.trans hc')
      cases hc.symm.trans hc'
      cases hl.symm.trans hl'
      cases hr.symm.trans hr'
      rw [ihl left, ihr right]
    | free hc' hn' | alloc hc' hn' => cases (hn.eq_of_cell hn' (hc.symm.trans hc')).2.1

/-- The state of the root. -/
theorem cell (hr : Rep h a t F) : ∃ c, h.cell a = some c ∧ c.state = some t.state := by
  cases hr with
  | free hc hn | alloc hc hn | split hc hn => exact ⟨_, hc, hn.state⟩

end Rep

end Eece4029
