import Eece4029.Buddy.Blocks

/-!
# The blocks follow the tree

The functions of `buddy.c` on blocks do what they do on the tree that the blocks represent: they
return the same results, and leave blocks that represent the tree they should leave. Each lemma also
says what becomes of the blocks (`Heap.Moves`): an owner of the blocks of the tree before the call
becomes an owner of those of the tree after it. A call that goes down to one child leaves the node
and the other child alone (`Split.moveLeft`, `Split.moveRight`), which carries the recursions.
-/

namespace Eece4029

open Blocks

variable {h h' : Blocks} {a idx sz : Nat} {c : NodeCell} {t : Node} {F : List Nat}

namespace Blocks

theorem field_some {β : Type} {f : NodeCell → Option β} {v : β} (hc : h.cell a = some c)
    (hf : f c = some v) : field h (some a) f = .ok v := by
  unfold field
  rw [Heap.load_some hc]
  simp only [bind, Except.bind, hf]

/-- Every call of `bmalloc` succeeds. -/
abbrev always : Nat → Bool := fun _ => true

/-- `buddy_init` gives the head node its values. -/
theorem initHead_cell (size : Nat) (hc : h.cell a = some c) :
    ∃ h', initHead h (some a) size = .ok h' ∧
      h'.cell = Function.update h.cell a
        (some ⟨some 0, some .FREE, some size, some none, some none⟩) := by
  simp only [initHead, Heap.store, hc, bind, Except.bind, Heap.cell_upd, Function.update_self,
    Option.isSome_some, Option.map_some, if_true]
  exact ⟨_, rfl, by simp [hc]⟩

/-- Splitting a free node makes two blocks for its two halves. -/
theorem splitNode_cells (hc : h.cell a = some c) (hn : c.Is idx .FREE sz) :
    ∃ h', splitNode always h (some a) = .ok h' ∧ h'.next = h.next + 2 ∧
      h'.cell a = some { c with
        state := some .SPLIT, left := some (some h.next), right := some (some (h.next + 1)) } ∧
      h'.cell h.next = some ⟨some idx, some .FREE, some (sz / 2), some none, none⟩ ∧
      h'.cell (h.next + 1) =
        some ⟨some (idx + sz / 2), some .FREE, some (sz / 2), none, some none⟩ ∧
      ∀ b, b ≠ a → b ≠ h.next → b ≠ h.next + 1 → h'.cell b = h.cell b := by
  have ha : a ≠ h.next := Nat.ne_of_lt (Heap.live_of_cell hc).lt
  have ha' : a ≠ h.next + 1 := Nat.ne_of_lt (Nat.lt_succ_of_lt (Heap.live_of_cell hc).lt)
  have hpq : h.next ≠ h.next + 1 := Nat.ne_of_lt (Nat.lt_succ_self _)
  simp only [splitNode, bmalloc, Heap.store, field, Heap.load, hc, Function.update_apply, bind,
    Except.bind, Heap.cell_upd, Option.isSome_some, if_true, Heap.cell_malloc, Heap.malloc_fst,
    Heap.next_upd, Heap.next_malloc, ha, ha', ha.symm, ha'.symm, hpq, hpq.symm, if_false,
    Option.map_some, hn.size, hn.idx]
  refine ⟨_, rfl, rfl, ?_, ?_, ?_, ?_⟩
  · simp [hc, ha, ha', Function.update_apply, hn.idx, hn.size]
  · simp [ha.symm, Function.update_apply, NodeCell.raw]
  · simp [ha'.symm, Function.update_apply, NodeCell.raw]
  · intro b hb hp hq
    simp [hb, hp, hq, Function.update_apply]

end Blocks

/-! ## A node and its children -/

/-- The block `a` is a `SPLIT` node whose children are the roots `l` and `r` of two trees. -/
structure Split (h : Blocks) (a idx sz l r : Nat) (lt rt : Node) (fl fr : List Nat) : Prop where
  cell : ∃ c, h.cell a = some c ∧ c.Is idx .SPLIT sz ∧ c.left = some (some l) ∧
    c.right = some (some r)
  left : Owns h l lt fl
  right : Owns h r rt fr
  root_left : a ∉ fl
  root_right : a ∉ fr
  apart : ∀ b ∈ fr, b ∉ fl

/-- The tree of a `SPLIT` node is the node and the trees of its children. -/
theorem owns_split {lt rt : Node} : Owns h a (.split idx sz lt rt) F ↔
    ∃ l r fl fr, Split h a idx sz l r lt rt fl fr ∧ F = a :: (fl ++ fr) := by
  constructor
  · rintro ⟨hr, hd⟩
    cases hr with
    | @split _ _ _ l r c _ _ fl fr hc hn hl hr left right =>
      obtain ⟨hroot, hd⟩ := List.nodup_cons.1 hd
      obtain ⟨hdl, hdr, hdisj⟩ := List.nodup_append.1 hd
      rw [List.mem_append, not_or] at hroot
      exact ⟨l, r, fl, fr, ⟨⟨c, hc, hn, hl, hr⟩, ⟨left, hdl⟩, ⟨right, hdr⟩, hroot.1, hroot.2,
        fun b hb hb' => hdisj b hb' b hb rfl⟩, rfl⟩
  · rintro ⟨l, r, fl, fr, ⟨⟨c, hc, hn, hl, hr⟩, left, right, hal, har, hapart⟩, rfl⟩
    refine ⟨.split hc hn hl hr left.rep right.rep, List.nodup_cons.2 ⟨?_, ?_⟩⟩
    · rw [List.mem_append, not_or]
      exact ⟨hal, har⟩
    · refine List.nodup_append.2 ⟨left.nodup, right.nodup, ?_⟩
      rintro b hb _ hb' rfl
      exact hapart b hb' hb

namespace Split

variable {l r : Nat} {lt lt' rt rt' : Node} {fl fl' fr fr' : List Nat}

/-- When the left tree changes, the node and the right tree stay as they are. -/
theorem moveLeft (hs : Split h a idx sz l r lt rt fl fr) (ho : Owns h' l lt' fl')
    (hm : Heap.Moves h fl h' fl') :
    Split h' a idx sz l r lt' rt fl' fr ∧
      Heap.Moves h (a :: (fl ++ fr)) h' (a :: (fl' ++ fr)) := by
  obtain ⟨c, hc, hn⟩ := hs.cell
  obtain ⟨hroot, hcell⟩ := hm.apart_cell hc hs.root_left
  obtain ⟨happart, hsame⟩ := hm.apart hs.right.rep.live hs.apart
  refine ⟨⟨⟨c, hcell, hn⟩, ho, ⟨hs.right.rep.same hsame, hs.right.nodup⟩, hroot, hs.root_right,
    happart⟩, ?_⟩
  refine hm.widen (G := a :: fr) ?_ ?_ <;> intro b <;>
    simp only [List.mem_cons, List.mem_append] <;> tauto

/-- When the right tree changes, the node and the left tree stay as they are. -/
theorem moveRight (hs : Split h a idx sz l r lt rt fl fr) (ho : Owns h' r rt' fr')
    (hm : Heap.Moves h fr h' fr') :
    Split h' a idx sz l r lt rt' fl fr' ∧
      Heap.Moves h (a :: (fl ++ fr)) h' (a :: (fl ++ fr')) := by
  obtain ⟨c, hc, hn⟩ := hs.cell
  obtain ⟨hroot, hcell⟩ := hm.apart_cell hc hs.root_right
  obtain ⟨happart, hsame⟩ := hm.apart hs.left.rep.live fun b hb hb' => hs.apart b hb' hb
  refine ⟨⟨⟨c, hcell, hn⟩, ⟨hs.left.rep.same hsame, hs.left.nodup⟩, ho, hs.root_left, hroot,
    fun b hb hb' => happart b hb' hb⟩, ?_⟩
  refine hm.widen (G := a :: fl) ?_ ?_ <;> intro b <;>
    simp only [List.mem_cons, List.mem_append] <;> tauto

end Split

/-! ## The four functions -/

namespace Blocks

/-- Splitting a free node. -/
theorem splitNode_owns (hc : h.cell a = some c) (hn : c.Is idx .FREE sz) :
    ∃ h' l r, splitNode always h (some a) = .ok h' ∧
      Split h' a idx sz l r (.free idx (sz / 2)) (.free (idx + sz / 2) (sz / 2)) [l] [r] ∧
      Heap.Moves h [a] h' [a, l, r] := by
  obtain ⟨h', hret, -, ha, hp, hq, hother⟩ := splitNode_cells hc hn
  have hlt := (Heap.live_of_cell hc).lt
  refine ⟨h', h.next, h.next + 1, hret, ⟨⟨_, ha, ⟨hn.idx, rfl, hn.size⟩, rfl, rfl⟩,
    ⟨.free hp ⟨rfl, rfl, rfl⟩, by simp⟩,
    ⟨.free hq ⟨rfl, rfl, rfl⟩, by simp⟩, ?_, ?_, ?_⟩, ?_, ?_, ?_⟩
  · simp only [List.mem_singleton]
    omega
  · simp only [List.mem_singleton]
    omega
  · simp only [List.mem_singleton]
    omega
  · intro b _ hb
    simp only [List.mem_cons, List.not_mem_nil, or_false, not_or] at hb
    exact hother b hb.1 hb.2.1 hb.2.2
  · intro b hb hb'
    simp only [List.mem_cons, List.not_mem_nil, or_false] at hb hb'
    exact h.fresh b (by omega)
  · intro b hb hb'
    exact absurd (List.mem_cons.2 (.inl (List.mem_singleton.1 hb))) hb'

variable {avail : Nat → Bool} {fuel : Nat} {size : Int}

/-- A call of `_buddy_alloc` at a page that is in use. -/
theorem buddyAlloc_at_alloc (hc : h.cell a = some c) (hn : c.Is idx .ALLOC sz) :
    buddyAlloc avail (fuel + 1) h (some a) size = .ok (-1, h) := by
  simp only [buddyAlloc, field_some hc hn.state]
  rfl

/-- A call at a free node: it is too small, or split, or taken. -/
theorem buddyAlloc_at_free (hc : h.cell a = some c) (hn : c.Is idx .FREE sz) :
    buddyAlloc avail (fuel + 1) h (some a) size =
      if (sz : Int) < size then .ok (-1, h)
      else if size ≤ ((sz / 2 : Nat) : Int) then do
        let h ← splitNode avail h (some a)
        let left ← field h (some a) (·.left)
        buddyAlloc avail fuel h left size
      else .ok (idx, h.upd a fun c => { c with state := some .ALLOC }) := by
  have hc' := Heap.cell_upd_self (f := fun c => { c with state := some .ALLOC }) hc
  have hidx := field_some (f := (·.idx)) (v := idx) hc' hn.idx
  simp only [buddyAlloc, field_some hc hn.state, field_some hc hn.size, Heap.store_some hc, hidx,
    bind, Except.bind, reduceCtorEq, if_false, ne_eq, not_true]
  rfl

/-- A call at a split node goes to the left child, and to the right one where that fails. -/
theorem buddyAlloc_at_split {l : Nat} (hc : h.cell a = some c) (hn : c.Is idx .SPLIT sz)
    (hl : c.left = some (some l)) :
    buddyAlloc avail (fuel + 1) h (some a) size = (do
      let (rt, h) ← buddyAlloc avail fuel h (some l) size
      if 0 ≤ rt then
        return (rt, h)
      else
        let right ← field h (some a) (·.right)
        buddyAlloc avail fuel h right size) := by
  simp only [buddyAlloc, field_some hc hn.state, field_some hc hl, bind, Except.bind, if_true]

/-- `_buddy_alloc` on the blocks does what it does on the tree, and ends with the same fuel. -/
theorem buddyAlloc_sim (fuel : Nat) (size : Int) (ho : Owns h a t F) :
    (Node.buddyAlloc fuel t size = none ∧ buddyAlloc always fuel h (some a) size = .error .fuel) ∨
    ∃ rt t' h' F', Node.buddyAlloc fuel t size = some (rt, t') ∧
      buddyAlloc always fuel h (some a) size = .ok (rt, h') ∧ Owns h' a t' F' ∧
      Heap.Moves h F h' F' := by
  induction fuel generalizing h a t F with
  | zero => exact .inl ⟨by cases t <;> rfl, rfl⟩
  | succ fuel ih =>
    cases t with
    | alloc idx sz =>
      obtain ⟨hr, hd⟩ := ho
      cases hr with
      | alloc hc hn =>
        exact .inr ⟨-1, _, h, _, rfl, buddyAlloc_at_alloc hc hn, ⟨.alloc hc hn, hd⟩, .refl h _⟩
    | free idx sz =>
      obtain ⟨hr, hd⟩ := ho
      cases hr with
      | free hc hn =>
        simp only [buddyAlloc_at_free hc hn, Node.buddyAlloc, bind, Except.bind]
        split
        · exact .inr ⟨_, _, _, _, rfl, rfl, ⟨.free hc hn, hd⟩, .refl h _⟩
        · split
          · obtain ⟨h₁, l, r, hret, hs, hm⟩ := splitNode_owns hc hn
            obtain ⟨c₁, hc₁, -, hl, -⟩ := hs.cell
            simp only [hret, field_some hc₁ hl]
            rcases ih hs.left with ⟨ht, hh⟩ | ⟨rt, t', h', F', ht, hh, ho', hm'⟩
            · exact .inl ⟨by rw [ht]; rfl, hh⟩
            · obtain ⟨hs', hmove⟩ := hs.moveLeft ho' hm'
              refine .inr ⟨rt, _, h', _, ?_, hh, owns_split.2 ⟨_, _, _, _, hs', rfl⟩,
                hm.trans hmove⟩
              rw [ht]
              rfl
          · have hc' := Heap.cell_upd_self (f := fun c => { c with state := some .ALLOC }) hc
            exact .inr ⟨_, _, _, _, rfl, rfl, ⟨.alloc hc' ⟨hn.idx, rfl, hn.size⟩, hd⟩,
              Heap.moves_upd List.mem_cons_self⟩
    | split idx sz lt rt =>
      obtain ⟨l, r, fl, fr, hs, rfl⟩ := owns_split.1 ho
      obtain ⟨c, hc, hn, hl, hr⟩ := hs.cell
      simp only [buddyAlloc_at_split hc hn hl, Node.buddyAlloc, bind, Except.bind]
      rcases ih hs.left with ⟨ht, hh⟩ | ⟨rtl, lt', h₁, fl', ht, hh, ho₁, hm₁⟩
      · rw [ht, hh]
        exact .inl ⟨rfl, rfl⟩
      · obtain ⟨hs₁, hmove₁⟩ := hs.moveLeft ho₁ hm₁
        obtain ⟨c₁, hc₁, -, -, hr₁⟩ := hs₁.cell
        simp only [ht, hh, Option.bind_some, field_some hc₁ hr₁]
        split
        · exact .inr ⟨_, _, _, _, rfl, rfl, owns_split.2 ⟨_, _, _, _, hs₁, rfl⟩, hmove₁⟩
        · rcases ih hs₁.right with ⟨ht', hh'⟩ | ⟨rtr, rt', h₂, fr', ht', hh', ho₂, hm₂⟩
          · rw [ht', hh']
            exact .inl ⟨rfl, rfl⟩
          · obtain ⟨hs₂, hmove₂⟩ := hs₁.moveRight ho₂ hm₂
            rw [ht', hh']
            exact .inr ⟨_, _, _, _, rfl, rfl, owns_split.2 ⟨_, _, _, _, hs₂, rfl⟩,
              hmove₁.trans hmove₂⟩

variable {l r : Nat} {lt rt : Node} {fl fr : List Nat}

/-- The condition of a merge reads the states of the two children. -/
theorem bothFree_split (hs : Split h a idx sz l r lt rt fl fr) :
    bothFree h (some a) = .ok (decide (lt.state = .FREE ∧ rt.state = .FREE)) := by
  obtain ⟨c, hc, -, hl, hr⟩ := hs.cell
  obtain ⟨cl, hcl, hsl⟩ := hs.left.rep.cell
  obtain ⟨cr, hcr, hsr⟩ := hs.right.rep.cell
  simp only [bothFree, field_some hc hl, field_some hc hr, field_some hcl hsl, field_some hcr hsr,
    bind, Except.bind]
  by_cases hfree : lt.state = .FREE <;> simp [hfree, pure, Except.pure]

/-- Merging two free children frees their blocks. -/
theorem mergeNode_owns (hs : Split h a idx sz l r lt rt fl fr) (hlf : lt.state = .FREE)
    (hrf : rt.state = .FREE) :
    ∃ h', mergeNode h (some a) = .ok h' ∧ Owns h' a (.free idx sz) [a] ∧
      Heap.Moves h (a :: (fl ++ fr)) h' [a] := by
  obtain ⟨c, hc, hn, hl, hr⟩ := hs.cell
  obtain ⟨cl, hcl, -⟩ := hs.left.rep.cell
  obtain ⟨cr, hcr, -⟩ := hs.right.rep.cell
  obtain rfl : fl = [l] := by
    cases hs.left.rep with
    | free => rfl
    | alloc | split => cases hlf
  obtain rfl : fr = [r] := by
    cases hs.right.rep with
    | free => rfl
    | alloc | split => cases hrf
  have hal : a ≠ l := by simpa using hs.root_left
  have har : a ≠ r := by simpa using hs.root_right
  have hrl : r ≠ l := by simpa using hs.apart
  have hc₁ : (h.drop l).cell a = some c := (Function.update_of_ne hal _ _).trans hc
  have hcr₁ : (h.drop l).cell r = some cr := (Function.update_of_ne hrl _ _).trans hcr
  have hc₂ : ((h.drop l).drop r).cell a = some c := (Function.update_of_ne har _ _).trans hc₁
  have hc₃ := Heap.cell_upd_self (f := fun c => { c with left := some none }) hc₂
  have hc₄ := Heap.cell_upd_self (f := fun c => { c with right := some none }) hc₃
  have hc₅ := Heap.cell_upd_self (f := fun c => { c with state := some .FREE }) hc₄
  simp only [mergeNode, field_some hc hl, Heap.free_some hcl, field_some hc₁ hr,
    Heap.free_some hcr₁, Heap.store_some hc₂, Heap.store_some hc₃, Heap.store_some hc₄, bind,
    Except.bind]
  refine ⟨_, rfl, ⟨.free hc₅ ⟨hn.idx, rfl, hn.size⟩, by simp⟩, ?_⟩
  have hleft : Heap.Moves h (a :: ([l] ++ [r])) (h.drop l) [a, r] :=
    (Heap.moves_drop (l := [])).widen (G := [a, r]) (by simp; tauto) (by simp)
  have hright : Heap.Moves (h.drop l) [a, r] ((h.drop l).drop r) [a] :=
    (Heap.moves_drop (l := [])).widen (G := [a]) (by simp; tauto) (by simp)
  have ha : a ∈ [a] := List.mem_cons_self
  exact (hleft.trans hright).trans
    (((Heap.moves_upd ha).trans (Heap.moves_upd ha)).trans (Heap.moves_upd ha))

end Blocks

/-- The depth of a tree, that is of the recursions that visit all of its nodes. -/
def Node.height : Node → Nat
  | .free .. => 1
  | .split _ _ left right => max left.height right.height + 1
  | .alloc .. => 1

namespace Blocks

variable {l r : Nat} {lt rt : Node} {fl fr : List Nat}

/-- `_buddy_free` on the blocks does what it does on the tree. -/
theorem buddyFree_sim (fuel : Nat) (i : Int) (ho : Owns h a t F) :
    (fuel < t.height ∧ buddyFree fuel h (some a) i = .error .fuel) ∨
    ∃ h' F', buddyFree fuel h (some a) i = .ok ((t.buddyFree i).1, h') ∧
      Owns h' a (t.buddyFree i).2 F' ∧ Heap.Moves h F h' F' := by
  induction fuel generalizing h a t F with
  | zero => exact .inl ⟨by cases t <;> exact Nat.succ_pos _, rfl⟩
  | succ fuel ih =>
    cases t with
    | free idx sz =>
      obtain ⟨hr, hd⟩ := ho
      cases hr with
      | free hc hn =>
        refine .inr ⟨h, _, ?_, ⟨.free hc hn, hd⟩, .refl h _⟩
        simp [buddyFree, Node.buddyFree, field_some hc hn.state, field_some hc hn.idx, bind,
          Except.bind, pure, Except.pure]
    | alloc idx sz =>
      obtain ⟨hr, hd⟩ := ho
      cases hr with
      | alloc hc hn =>
        have hc' := Heap.cell_upd_self (f := fun c => { c with state := some .FREE }) hc
        simp only [buddyFree, Node.buddyFree, field_some hc hn.state, field_some hc hn.idx, bind,
          Except.bind, Heap.store_some hc, reduceCtorEq, if_false, and_true]
        split
        · exact .inr ⟨_, _, rfl, ⟨.free hc' ⟨hn.idx, rfl, hn.size⟩, hd⟩,
            Heap.moves_upd List.mem_cons_self⟩
        · exact .inr ⟨_, _, rfl, ⟨.alloc hc hn, hd⟩, .refl h _⟩
    | split idx sz lt rt =>
      obtain ⟨l, r, fl, fr, hs, rfl⟩ := owns_split.1 ho
      obtain ⟨c, hc, hn, hl, hr⟩ := hs.cell
      simp only [buddyFree, field_some hc hn.state, field_some hc hl, bind, Except.bind, if_true]
      rcases ih hs.left with ⟨hf, hh⟩ | ⟨h₁, fl', hh, ho₁, hm₁⟩
      · rw [hh]
        exact .inl ⟨by simp only [Node.height]; omega, rfl⟩
      obtain ⟨hs₁, hmove₁⟩ := hs.moveLeft ho₁ hm₁
      obtain ⟨c₁, hc₁, -, -, hr₁⟩ := hs₁.cell
      simp only [hh, field_some hc₁ hr₁]
      rcases ih hs₁.right with ⟨hf, hh'⟩ | ⟨h₂, fr', hh', ho₂, hm₂⟩
      · rw [hh']
        exact .inl ⟨by simp only [Node.height]; omega, rfl⟩
      obtain ⟨hs₂, hmove₂⟩ := hs₁.moveRight ho₂ hm₂
      simp only [hh', bothFree_split hs₂, Node.buddyFree]
      by_cases hfree : (lt.buddyFree i).2.state = .FREE ∧ (rt.buddyFree i).2.state = .FREE
      · obtain ⟨h₃, hret, ho₃, hm₃⟩ := mergeNode_owns hs₂ hfree.1 hfree.2
        refine .inr ⟨h₃, [a], ?_, ?_, (hmove₁.trans hmove₂).trans hm₃⟩
        · simp only [hfree, and_self, decide_true, if_true, hret]
          rfl
        · rw [if_pos hfree]
          exact ho₃
      · refine .inr ⟨h₂, _, ?_, ?_, hmove₁.trans hmove₂⟩
        · simp only [hfree, decide_false, Bool.false_eq_true, if_false]
          rfl
        · rw [if_neg hfree]
          exact owns_split.2 ⟨_, _, _, _, hs₂, rfl⟩

/-- `_buddy_size` on the blocks does what it does on the tree. -/
theorem buddySize_sim (fuel : Nat) (i : Int) (ho : Owns h a t F) :
    (fuel < t.height ∧ buddySize fuel h (some a) i = .error .fuel) ∨
      buddySize fuel h (some a) i = .ok (t.buddySize i) := by
  induction fuel generalizing a t F with
  | zero => exact .inl ⟨by cases t <;> exact Nat.succ_pos _, rfl⟩
  | succ fuel ih =>
    cases t with
    | free idx sz =>
      cases ho.rep with
      | free hc hn =>
        simp [buddySize, Node.buddySize, field_some hc hn.state, field_some hc hn.idx,
          field_some hc hn.size, bind, Except.bind, pure, Except.pure]
    | alloc idx sz =>
      cases ho.rep with
      | alloc hc hn =>
        simp [buddySize, Node.buddySize, field_some hc hn.state, field_some hc hn.idx,
          field_some hc hn.size, bind, Except.bind, pure, Except.pure]
    | split idx sz lt rt =>
      obtain ⟨l, r, fl, fr, hs, rfl⟩ := owns_split.1 ho
      obtain ⟨c, hc, hn, hl, hr⟩ := hs.cell
      simp only [buddySize, Node.buddySize, field_some hc hn.state, field_some hc hl,
        field_some hc hr, bind, Except.bind, if_true]
      rcases ih hs.right with ⟨hf, hh⟩ | hh
      · rw [hh]
        exact .inl ⟨by simp only [Node.height]; omega, rfl⟩
      simp only [hh]
      split
      · rcases ih hs.left with ⟨hf, hh'⟩ | hh'
        · rw [hh']
          exact .inl ⟨by simp only [Node.height]; omega, rfl⟩
        · exact .inr hh'
      · exact .inr rfl

/-- `_buddy_kill` frees every block of the tree. -/
theorem buddyKill_sim (fuel : Nat) (ho : Owns h a t F) :
    (fuel < t.height ∧ buddyKill fuel h (some a) = .error .fuel) ∨
    ∃ h', buddyKill fuel h (some a) = .ok h' ∧ Heap.Moves h F h' [] := by
  induction fuel generalizing h a t F with
  | zero => exact .inl ⟨by cases t <;> exact Nat.succ_pos _, rfl⟩
  | succ fuel ih =>
    cases t with
    | free idx sz =>
      cases ho.rep with
      | free hc hn =>
        refine .inr ⟨h.drop a, ?_, Heap.moves_drop⟩
        simp [buddyKill, field_some hc hn.state, Heap.free_some hc, bind, Except.bind]
    | alloc idx sz =>
      cases ho.rep with
      | alloc hc hn =>
        refine .inr ⟨h.drop a, ?_, Heap.moves_drop⟩
        simp [buddyKill, field_some hc hn.state, Heap.free_some hc, bind, Except.bind]
    | split idx sz lt rt =>
      obtain ⟨l, r, fl, fr, hs, rfl⟩ := owns_split.1 ho
      obtain ⟨c, hc, hn, hl, hr⟩ := hs.cell
      simp only [buddyKill, field_some hc hn.state, field_some hc hl, bind, Except.bind, if_true]
      rcases ih hs.left with ⟨hf, hh⟩ | ⟨h₁, hh, hm₁⟩
      · rw [hh]
        exact .inl ⟨by simp only [Node.height]; omega, rfl⟩
      -- the node and the right tree are still there
      have hc₁ : h₁.cell a = some c := (hm₁.apart_cell hc hs.root_left).2
      have ho₁ : Owns h₁ r rt fr :=
        ⟨hs.right.rep.same (hm₁.apart hs.right.rep.live hs.apart).2, hs.right.nodup⟩
      simp only [hh, field_some hc₁ hr]
      rcases ih ho₁ with ⟨hf, hh'⟩ | ⟨h₂, hh', hm₂⟩
      · rw [hh']
        exact .inl ⟨by simp only [Node.height]; omega, rfl⟩
      have hc₂ : h₂.cell a = some c := (hm₂.apart_cell hc₁ hs.root_right).2
      simp only [hh', Heap.free_some hc₂]
      have hleft : h.Moves (a :: (fl ++ fr)) h₁ (a :: fr) :=
        hm₁.widen (G := a :: fr) (fun b => by simp; tauto) fun b => by simp
      have hright : h₁.Moves (a :: fr) h₂ [a] :=
        hm₂.widen (G := [a]) (fun b => by simp; tauto) fun b => by simp
      exact .inr ⟨_, rfl, (hleft.trans hright).trans Heap.moves_drop⟩

end Blocks

end Eece4029
