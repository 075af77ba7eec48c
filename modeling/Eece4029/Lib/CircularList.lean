import Eece4029.Lib.LinkedList

/-!
# Circular lists with a head

The doubly linked list of an operating system kernel is a ring of blocks through a fixed one, its
head, which is no element: the `next` field of the head is the first element and its `prev` field
the last one, and both are the head itself while the list is empty. So nothing in such a list is a
special case, neither putting a block at the end (`listAddTail`) nor taking one out (`listDel`), and
a loop over it ends when it is back at the head. The pointers of a block that was taken out are
poisoned, here `none`.

`Circular h head l` says that the elements are the blocks of `l`, in this order. What a loop over
them finds is `Circular.next_getElem?`.
-/

universe u
variable {δ : Type u}

/-- A block with a `struct list_head` in it. -/
structure ListNode (δ : Type u) where
  data : δ
  next : Ptr
  prev : Ptr
deriving DecidableEq

/-- `INIT_LIST_HEAD`. -/
def initListHead (h : Heap (ListNode δ)) (a : Nat) : Except Stop (Heap (ListNode δ)) := do
  let h ← h.store (some a) fun c => { c with next := some a }
  h.store (some a) fun c => { c with prev := some a }

/-- `list_add_tail`. -/
def listAddTail (h : Heap (ListNode δ)) (a head : Nat) : Except Stop (Heap (ListNode δ)) := do
  let c ← h.load (some head)
  let h ← h.store (some head) fun c => { c with prev := some a }
  let h ← h.store (some a) fun c => { c with next := some head }
  let h ← h.store (some a) fun b => { b with prev := c.prev }
  h.store c.prev fun c => { c with next := some a }

/-- `list_del`. -/
def listDel (h : Heap (ListNode δ)) (a : Nat) : Except Stop (Heap (ListNode δ)) := do
  let c ← h.load (some a)
  let h ← h.store c.next fun b => { b with prev := c.prev }
  let h ← h.store c.prev fun b => { b with next := c.next }
  h.store (some a) fun c => { c with next := none, prev := none }

/-- The blocks of `l` are the elements of the list with this head, in this order. -/
structure Circular (h : Heap (ListNode δ)) (head : Nat) (l : List Nat) : Prop where
  linked : Linked ListNode.next ListNode.prev h (l.getLast?.or (some head)) (head :: l) (some head)
  nodup : (head :: l).Nodup

/-- The blocks hold the same data, whatever has become of their pointers. -/
def Heap.SameData (h h' : Heap (ListNode δ)) : Prop :=
  ∀ a, (h'.cell a).map ListNode.data = (h.cell a).map ListNode.data

variable {h h' h'' : Heap (ListNode δ)} {a b head : Nat} {l : List Nat} {c : ListNode δ}
  {f : ListNode δ → ListNode δ}

/-! ## Data -/

theorem Heap.SameData.trans (h₁ : h.SameData h') (h₂ : h'.SameData h'') : h.SameData h'' :=
  fun a => (h₂ a).trans (h₁ a)

theorem Heap.sameData_upd (hf : ∀ c, (f c).data = c.data) : h.SameData (h.upd a f) := by
  intro b
  obtain rfl | hb := eq_or_ne b a
  · rw [cell_upd, Function.update_self, Option.map_map]
    exact congrArg (Option.map · _) (funext hf)
  · rw [cell_upd, Function.update_of_ne hb]

/-- The blocks that are live are the same, too. -/
theorem Heap.SameData.live (hs : h.SameData h') : h'.Live a ↔ h.Live a := by
  have hnone := congrArg (· = none) (hs a)
  simp only [Option.map_eq_none_iff, eq_iff_iff] at hnone
  exact not_congr hnone

/-! ## Links -/

namespace Circular

/-- The elements are live, and so is the head. -/
theorem live (hl : Circular h head l) : ∀ a ∈ head :: l, h.Live a := hl.linked.live

/-- A list depends on its own blocks only. -/
theorem same (hl : Circular h head l) (hs : Heap.SameOn (head :: l) h h') :
    Circular h' head l :=
  ⟨hl.linked.same hs, hl.nodup⟩

/-- What a loop finds after the head is the first element. -/
theorem next_head (hl : Circular h head l) :
    ∃ c, h.cell head = some c ∧ c.next = l[0]?.or (some head) := by
  obtain ⟨⟨c, hc, -, hn⟩, -⟩ := hl.linked
  exact ⟨c, hc, by rw [hn, List.head?_eq_getElem?]⟩

end Circular

/-- The `next` field of an element is the element after it. -/
theorem Linked.next_getElem? {before after : Ptr} {i : Nat}
    (hl : Linked ListNode.next ListNode.prev h before l after) (hi : l[i]? = some a) :
    ∃ c, h.cell a = some c ∧ c.next = l[i + 1]?.or after := by
  induction l generalizing before i with
  | nil => cases hi
  | cons b l ih =>
    obtain ⟨⟨c, hc, -, hn⟩, htail⟩ := hl
    cases i with
    | zero =>
      cases hi
      exact ⟨c, hc, by rw [hn, List.head?_eq_getElem?, List.getElem?_cons_succ]⟩
    | succ i => exact ih htail hi

/-- A change of a block that leaves its pointers alone. -/
theorem Linked.upd {before after : Ptr} (hf : ∀ c, (f c).next = c.next ∧ (f c).prev = c.prev)
    (hl : Linked ListNode.next ListNode.prev h before l after) :
    Linked ListNode.next ListNode.prev (h.upd a f) before l after := by
  induction l generalizing before with
  | nil => trivial
  | cons b l ih =>
    obtain ⟨⟨c, hc, hp, hn⟩, htail⟩ := hl
    refine ⟨?_, ih htail⟩
    obtain rfl | hb := eq_or_ne b a
    · exact ⟨f c, Heap.cell_upd_self hc, (hf c).2.trans hp, (hf c).1.trans hn⟩
    · exact ⟨c, by rw [Heap.cell_upd, Function.update_of_ne hb, hc], hp, hn⟩

namespace Circular

/-- What a loop finds after an element is the next one, or the head. -/
theorem next_getElem? {i : Nat} (hl : Circular h head l) (hi : l[i]? = some a) :
    ∃ c, h.cell a = some c ∧ c.next = l[i + 1]?.or (some head) :=
  hl.linked.next_getElem? (i := i + 1) hi

theorem upd (hl : Circular h head l) (hf : ∀ c, (f c).next = c.next ∧ (f c).prev = c.prev) :
    Circular (h.upd a f) head l :=
  ⟨hl.linked.upd hf, hl.nodup⟩

/-! ## Operations -/

/-- `INIT_LIST_HEAD` of a head makes an empty list, and it changes no other block. -/
theorem init (hc : h.cell head = some c) :
    ∃ h', initListHead h head = .ok h' ∧ Circular h' head [] ∧ h.SameData h' ∧
      ∀ l, head ∉ l → Heap.SameOn l h h' := by
  let h₁ := h.upd head fun c => { c with next := some head }
  let h₂ := h₁.upd head fun c => { c with prev := some head }
  have hnext : h₁.cell head = some { c with next := some head } := Heap.cell_upd_self hc
  have hprev : h₂.cell head = some { c with next := some head, prev := some head } :=
    Heap.cell_upd_self hnext
  have hs₁ : h.SameData h₁ := Heap.sameData_upd fun _ => rfl
  have hs₂ : h₁.SameData h₂ := Heap.sameData_upd fun _ => rfl
  refine ⟨h₂, ?_, ⟨linked_singleton.2 ⟨_, hprev, rfl, rfl⟩, by simp⟩, hs₁.trans hs₂, ?_⟩
  · simp only [initListHead, Heap.store_some hc, bind, Except.bind]
    exact Heap.store_some hnext
  · exact fun l hl => (Heap.sameOn_upd hl).trans (Heap.sameOn_upd hl)

/-- `list_add_tail` puts a block that is no element at the end. -/
theorem addTail (hl : Circular h head l) (hc : h.cell a = some c) (ha : a ∉ head :: l) :
    ∃ h', listAddTail h a head = .ok h' ∧ Circular h' head (l ++ [a]) ∧ h.SameData h' := by
  obtain ⟨l₀, x, hx⟩ := (List.eq_nil_or_concat (head :: l)).resolve_left (List.cons_ne_nil _ _)
  rw [List.concat_eq_append] at hx
  have hlast : l.getLast?.or (some head) = some x := by
    have hlast := congrArg List.getLast? hx
    rw [List.getLast?_concat, List.getLast?_cons] at hlast
    rw [← hlast]
    cases l.getLast? <;> rfl
  obtain ⟨⟨d, hd, hdprev, -⟩, -⟩ := hl.linked
  rw [hlast] at hdprev
  have hhead : head ≠ a := (List.ne_of_not_mem_cons ha).symm
  have hxa : x ≠ a := fun hxa => ha (by rw [hx]; simp [hxa])
  -- the assignments, one after the other
  let h₁ := h.upd head fun c => { c with prev := some a }
  let h₂ := h₁.upd a fun c => { c with next := some head }
  let h₃ := h₂.upd a fun b => { b with prev := d.prev }
  let h₄ := h₃.upd x fun c => { c with next := some a }
  have hc₁ : h₁.cell a = some c := by
    rw [Heap.cell_upd, Function.update_of_ne hhead.symm, hc]
  have hc₂ : h₂.cell a = some { c with next := some head } := Heap.cell_upd_self hc₁
  have hc₃ : h₃.cell a = some { c with next := some head, prev := d.prev } := Heap.cell_upd_self hc₂
  -- the list that was there, now between the new block and itself
  have hl₁ : Linked ListNode.next ListNode.prev h₁ (some a) (head :: l) (some head) :=
    hl.linked.setPrev (List.nodup_cons.1 hl.nodup).1 fun _ => ⟨rfl, rfl⟩
  have hl₃ : Linked ListNode.next ListNode.prev h₃ (some a) (head :: l) (some head) :=
    hl₁.same ((Heap.sameOn_upd ha).trans (Heap.sameOn_upd ha))
  have hnodup := hl.nodup
  rw [hx] at hl₃ hnodup
  have hxl₀ : x ∉ l₀ := fun h => (List.nodup_append.1 hnodup).2.2 x h x List.mem_cons_self rfl
  have hl₄ : Linked ListNode.next ListNode.prev h₄ (some a) (l₀ ++ [x]) (some a) :=
    hl₃.setNext hxl₀ fun _ => ⟨rfl, rfl⟩
  obtain ⟨e, he⟩ : ∃ e, h₃.cell x = some e := by
    obtain ⟨e, he, -⟩ := (linked_append.1 hl₃).2.1
    exact ⟨e, he⟩
  refine ⟨h₄, ?_, ⟨?_, ?_⟩, ?_⟩
  · simp only [listAddTail, Heap.load_some hd, Heap.store_some hd, bind, Except.bind]
    rw [Heap.store_some hc₁]
    simp only
    rw [Heap.store_some hc₂]
    change h₃.store d.prev _ = .ok h₄
    rw [hdprev]
    exact Heap.store_some he
  · rw [List.getLast?_concat, ← List.cons_append, hx]
    refine linked_append.2 ⟨hl₄, linked_singleton.2 ⟨{ c with next := some head, prev := d.prev },
      ?_, ?_, rfl⟩⟩
    · rw [Heap.cell_upd, Function.update_of_ne hxa.symm, hc₃]
    · rw [List.getLast?_concat, hdprev]
      rfl
  · rw [← List.cons_append]
    exact List.nodup_append.2 ⟨hl.nodup, by simp, fun b hb d hd hbd =>
      ha (by rw [← List.mem_singleton.1 hd, ← hbd]; exact hb)⟩
  · have hs₁ : h.SameData h₁ := Heap.sameData_upd fun _ => rfl
    have hs₂ : h₁.SameData h₂ := Heap.sameData_upd fun _ => rfl
    have hs₃ : h₂.SameData h₃ := Heap.sameData_upd fun _ => rfl
    have hs₄ : h₃.SameData h₄ := Heap.sameData_upd fun _ => rfl
    exact ((hs₁.trans hs₂).trans hs₃).trans hs₄

/-- `list_del` takes the first element out. -/
theorem delFirst (hl : Circular h head (a :: l)) :
    ∃ h', listDel h a = .ok h' ∧ Circular h' head l ∧ h.SameData h' := by
  have hhead : head ∉ a :: l := (List.nodup_cons.1 hl.nodup).1
  have hnodup : (a :: l).Nodup := (List.nodup_cons.1 hl.nodup).2
  have ha : a ∉ head :: l := by
    simp only [List.mem_cons, not_or]
    exact ⟨fun hah => hhead (by simp [hah]), (List.nodup_cons.1 hnodup).1⟩
  obtain ⟨⟨d, hd, hdprev, -⟩, ⟨c, hc, hcprev, hcnext⟩, hrest⟩ := hl.linked
  have hah : a ≠ head := List.ne_of_not_mem_cons ha
  -- the block after `a`, which is the head where there is no other element
  obtain ⟨y, hy⟩ : ∃ y, c.next = some y := by
    rw [hcnext]
    cases l.head? with
    | none => exact ⟨head, rfl⟩
    | some y => exact ⟨y, rfl⟩
  let h₁ := h.upd y fun b => { b with prev := c.prev }
  let h₂ := h₁.upd head fun b => { b with next := c.next }
  let h₃ := h₂.upd a fun c => { c with next := none, prev := none }
  have hs₁ : h.SameData h₁ := Heap.sameData_upd fun _ => rfl
  have hs₂ : h₁.SameData h₂ := Heap.sameData_upd fun _ => rfl
  have hs₃ : h₂.SameData h₃ := Heap.sameData_upd fun _ => rfl
  have hsame₃ : Heap.SameOn (head :: l) h₂ h₃ := Heap.sameOn_upd ha
  have hlinked : (∃ e, h.cell y = some e) ∧
      Linked ListNode.next ListNode.prev h₂ (l.getLast?.or (some head)) (head :: l)
        (some head) := by
    cases l with
    | nil =>
      obtain rfl : head = y := Option.some.inj (hcnext.symm.trans hy)
      refine ⟨⟨d, hd⟩, linked_singleton.2 ⟨_, Heap.cell_upd_self (Heap.cell_upd_self hd), ?_, ?_⟩⟩
      · exact hcprev
      · exact hcnext
    | cons b l =>
      obtain rfl : b = y := Option.some.inj (hcnext.symm.trans hy)
      have hbhead : head ∉ b :: l := fun hm => hhead (List.mem_cons_of_mem _ hm)
      have hb : b ∉ l := (List.nodup_cons.1 (List.nodup_cons.1 hnodup).2).1
      have hrest₁ : Linked ListNode.next ListNode.prev h₁ (some head) (b :: l) (some head) :=
        hrest.setPrev hb fun _ => ⟨hcprev, rfl⟩
      have hd₁ : h₁.cell head = some d := by
        rw [Heap.cell_upd, Function.update_of_ne (List.ne_of_not_mem_cons hbhead), hd]
      obtain ⟨⟨e, he, -⟩, -⟩ := hrest
      refine ⟨⟨e, he⟩, ⟨_, Heap.cell_upd_self hd₁, ?_, hy⟩, hrest₁.same (Heap.sameOn_upd hbhead)⟩
      rw [hdprev, List.getLast?_cons_cons]
  obtain ⟨⟨e, he⟩, hl₂⟩ := hlinked
  have live₁ : ∃ e, h₁.cell head = some e :=
    Option.ne_none_iff_exists'.1 (hs₁.live.2 (Heap.live_of_cell hd))
  have live₂ : ∃ e, h₂.cell a = some e :=
    Option.ne_none_iff_exists'.1 ((hs₁.trans hs₂).live.2 (Heap.live_of_cell hc))
  obtain ⟨e₁, he₁⟩ := live₁
  obtain ⟨e₂, he₂⟩ := live₂
  refine ⟨h₃, ?_, ⟨hl₂.same hsame₃, ?_⟩, (hs₁.trans hs₂).trans hs₃⟩
  · simp only [listDel, Heap.load_some hc, bind, Except.bind]
    rw [show h.store c.next (fun b => { b with prev := c.prev }) = .ok h₁ by
      rw [hy]
      exact Heap.store_some he]
    simp only
    rw [show h₁.store c.prev (fun b => { b with next := c.next }) = .ok h₂ by
      rw [hcprev]
      exact Heap.store_some he₁]
    exact Heap.store_some he₂
  · have hmem : head ∉ l := fun hm => hhead (List.mem_cons_of_mem _ hm)
    exact List.nodup_cons.2 ⟨hmem, (List.nodup_cons.1 hnodup).2⟩

end Circular
