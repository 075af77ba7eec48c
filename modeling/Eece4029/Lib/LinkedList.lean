import Eece4029.Lib.Heap

/-!
# Doubly linked lists in a heap

`Linked next prev h before l after` says of a segment of a doubly linked list that its blocks are
the ones of `l`, in this order: they are live, the `next` field of each is the block after it, and
`after` for the last one, and the `prev` field of each is the block before it, and `before` for the
first one. The fields are functions of what a block holds, so that any record with two such fields
can be linked. Segments split and join (`linked_append`), and they depend on their own blocks only
(`Linked.same`); `Linked.link` and `Linked.unlink` are the two assignments to neighbours with which
a block is put at the end of a list and taken out of its interior.
-/

universe u

variable {κ : Type u}

/-- The blocks of `l` are linked in this order, between `before` and `after`. -/
def Linked (next prev : κ → Ptr) (h : Heap κ) : Ptr → List Nat → Ptr → Prop
  | _, [], _ => True
  | before, a :: l, after =>
    (∃ c, h.cell a = some c ∧ prev c = before ∧ next c = l.head?.or after) ∧
      Linked next prev h (some a) l after

variable {next prev : κ → Ptr} {h h' : Heap κ} {before before' after after' : Ptr}
  {l l' : List Nat} {a x y : Nat} {f g : κ → κ}

/-- A list of two parts is linked when each part is, with the other one as its neighbour. -/
theorem linked_append : Linked next prev h before (l ++ l') after ↔
    Linked next prev h before l (l'.head?.or after) ∧
      Linked next prev h (l.getLast?.or before) l' after := by
  induction l generalizing before with
  | nil => simp [Linked]
  | cons a l ih =>
    have hlast : (a :: l).getLast?.or before = l.getLast?.or (some a) := by
      rw [List.getLast?_cons]
      cases l.getLast? <;> rfl
    rw [List.cons_append, Linked, Linked, ih, List.head?_append, Option.or_assoc, hlast, and_assoc]

/-- Two segments of one block each. -/
theorem linked_singleton : Linked next prev h before [a] after ↔
    ∃ c, h.cell a = some c ∧ prev c = before ∧ next c = after := by
  simp [Linked]

namespace Linked

/-- The blocks of a list are live. -/
theorem live (hl : Linked next prev h before l after) : ∀ a ∈ l, h.Live a := by
  induction l generalizing before with
  | nil => exact fun a ha => nomatch ha
  | cons b l ih =>
    obtain ⟨⟨c, hc, -, -⟩, htail⟩ := hl
    intro a ha
    rcases List.mem_cons.1 ha with rfl | ha
    · exact Heap.live_of_cell hc
    · exact ih htail a ha

/-- A list depends on its own blocks only. -/
theorem same (hl : Linked next prev h before l after) (hs : Heap.SameOn l h h') :
    Linked next prev h' before l after := by
  induction l generalizing before with
  | nil => trivial
  | cons b l ih =>
    obtain ⟨⟨c, hc, hp, hn⟩, htail⟩ := hl
    refine ⟨⟨c, ?_, hp, hn⟩, ih htail (hs.subset fun a ha => List.mem_cons_of_mem b ha)⟩
    rw [hs b List.mem_cons_self, hc]

/-- A list that ends is determined by its first block. -/
theorem unique (hl : Linked next prev h before l none) (hl' : Linked next prev h before' l' none)
    (hhead : l.head? = l'.head?) : l = l' := by
  induction l generalizing before before' l' with
  | nil => exact (List.head?_eq_none_iff.1 hhead.symm).symm
  | cons a l ih =>
    cases l' with
    | nil => cases hhead
    | cons b l' =>
      obtain rfl : a = b := Option.some.inj hhead
      obtain ⟨⟨c, hc, -, hn⟩, htail⟩ := hl
      obtain ⟨⟨d, hd, -, hn'⟩, htail'⟩ := hl'
      cases hc.symm.trans hd
      rw [Option.or_none] at hn hn'
      rw [ih htail htail' (hn.symm.trans hn')]

/-- A list that ends has no block twice. -/
theorem nodup (hl : Linked next prev h before l none) : l.Nodup := by
  induction l generalizing before with
  | nil => exact List.nodup_nil
  | cons a l ih =>
    refine List.nodup_cons.2 ⟨fun ha => ?_, ih hl.2⟩
    -- from its second place on, the block would lead to the end as from the first
    obtain ⟨front, back, rfl⟩ := List.append_of_mem ha
    have heq := hl.unique (linked_append.1 hl.2).2 rfl
    have hlen := congrArg List.length heq
    simp only [List.length_cons, List.length_append] at hlen
    omega

/-- Assigning to the `next` field of the last block changes what comes after the list. -/
theorem setNext (hl : Linked next prev h before (l ++ [x]) after) (hx : x ∉ l)
    (hf : ∀ c, next (f c) = after' ∧ prev (f c) = prev c) :
    Linked next prev (h.upd x f) before (l ++ [x]) after' := by
  obtain ⟨hfront, hlast⟩ := linked_append.1 hl
  obtain ⟨c, hc, hp, -⟩ := linked_singleton.1 hlast
  refine linked_append.2 ⟨hfront.same (Heap.sameOn_upd hx), linked_singleton.2 ⟨f c, ?_, ?_, ?_⟩⟩
  · simp [hc]
  · rw [(hf c).2, hp]
  · exact (hf c).1

/-- Assigning to the `prev` field of the first block changes what comes before the list. -/
theorem setPrev (hl : Linked next prev h before (y :: l) after) (hy : y ∉ l)
    (hg : ∀ c, prev (g c) = before' ∧ next (g c) = next c) :
    Linked next prev (h.upd y g) before' (y :: l) after := by
  obtain ⟨⟨c, hc, -, hn⟩, htail⟩ := hl
  refine ⟨⟨g c, ?_, (hg c).1, ?_⟩, htail.same (Heap.sameOn_upd hy)⟩
  · simp [hc]
  · rw [(hg c).2, hn]

/-- A block that points back to the last one of a list is put at its end by one assignment. -/
theorem link (hl : Linked next prev h none (l ++ [x]) none) (hnodup : (l ++ [x]).Nodup)
    (ha : a ∉ l ++ [x]) (hcell : ∃ c, h.cell a = some c ∧ prev c = some x ∧ next c = none)
    (hf : ∀ c, next (f c) = some a ∧ prev (f c) = prev c) :
    Linked next prev (h.upd x f) none ((l ++ [x]) ++ [a]) none := by
  have hx : x ∉ l := fun hx => (List.nodup_append.1 hnodup).2.2 x hx x List.mem_cons_self rfl
  have hax : a ∉ [x] := fun h => ha (List.mem_append_right l h)
  refine linked_append.2 ⟨hl.setNext hx (by simpa using hf), ?_⟩
  rw [List.getLast?_concat]
  obtain ⟨c, hc, hp, hn⟩ := hcell
  refine linked_singleton.2 ⟨c, ?_, hp, hn⟩
  rw [Heap.cell_upd, Function.update_of_ne (by simpa using hax), hc]

/-- A block between two others is taken out of a list by two assignments. -/
theorem unlink (hl : Linked next prev h none ((l ++ [x]) ++ a :: y :: l') none)
    (hnodup : ((l ++ [x]) ++ a :: y :: l').Nodup)
    (hf : ∀ c, next (f c) = some y ∧ prev (f c) = prev c)
    (hg : ∀ c, prev (g c) = some x ∧ next (g c) = next c) :
    Linked next prev ((h.upd x f).upd y g) none ((l ++ [x]) ++ y :: l') none := by
  obtain ⟨hn₁, hn₂, hdisj⟩ := List.nodup_append.1 hnodup
  have hx : x ∉ l := fun hx => (List.nodup_append.1 hn₁).2.2 x hx x List.mem_cons_self rfl
  have hy : y ∉ l' := (List.nodup_cons.1 (List.nodup_cons.1 hn₂).2).1
  have hyfront : y ∉ l ++ [x] := fun h => hdisj y h y (by simp) rfl
  have hxback : x ∉ y :: l' := fun h => hdisj x (by simp) x (List.mem_cons_of_mem a h) rfl
  obtain ⟨hfront, hback⟩ := linked_append.1 hl
  have hrest : Linked next prev h (some a) (y :: l') none := hback.2
  refine linked_append.2 ⟨?_, ?_⟩
  · exact (hfront.setNext hx (by simpa using hf)).same (Heap.sameOn_upd hyfront)
  · rw [List.getLast?_concat]
    exact (hrest.same (Heap.sameOn_upd hxback)).setPrev hy (by simpa using hg)

end Linked
