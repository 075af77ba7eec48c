import Mathlib.Logic.Function.Basic
import Mathlib.Data.List.Basic

/-!
# Heaps of blocks

A program with `malloc` and `free` works on a heap: for every block that is live, what it holds.
Blocks are numbered in the order in which they are made, and a number is not used again, so that a
pointer to a block that was freed never becomes a good one. A pointer is the number of a block or
`NULL`. What a program must not do stops it: an access through `NULL` or to a block that is not
live, and the use of a field that nothing was assigned to. `Stop.fuel` is not a mistake of the
program, it is the end of the steps that a definition by recursion on fuel may take.

`Heap.SameOn` compares two heaps on a list of blocks, and `Heap.Moves` says what became of the
blocks that something in the heap owns; these carry the frame lemmas of what is built in the heap.
-/

universe u

/-- Why a program stops. -/
inductive Stop
  | null
  | freed
  | unassigned
  | fuel
deriving DecidableEq, Repr

/-- A pointer: the number of a block, or `NULL`. -/
abbrev Ptr := Option Nat

/-- The blocks that are live and what they hold. Blocks from `next` on have not been made. -/
structure Heap (κ : Type u) where
  cell : Nat → Option κ
  next : Nat
  fresh : ∀ a, next ≤ a → cell a = none

namespace Heap

variable {κ : Type u}

/-- The heap without a block. -/
def empty : Heap κ := ⟨fun _ => none, 0, fun _ _ => rfl⟩

/-- The heap with what `f` makes of the content of the block `a`. -/
def upd (h : Heap κ) (a : Nat) (f : κ → κ) : Heap κ where
  cell := Function.update h.cell a ((h.cell a).map f)
  next := h.next
  fresh b hb := by
    by_cases hab : b = a
    · subst hab
      simp [h.fresh b hb]
    · simp [Function.update_of_ne hab, h.fresh b hb]

/-- The heap without the block `a`. -/
def drop (h : Heap κ) (a : Nat) : Heap κ where
  cell := Function.update h.cell a none
  next := h.next
  fresh b hb := by
    by_cases hab : b = a
    · subst hab
      simp
    · simp [Function.update_of_ne hab, h.fresh b hb]

/-- `malloc`: the number of the new block, and the heap with it. -/
def malloc (h : Heap κ) (c : κ) : Nat × Heap κ :=
  (h.next,
    { cell := Function.update h.cell h.next (some c)
      next := h.next + 1
      fresh := fun b hb => by
        rw [Function.update_of_ne (Nat.ne_of_gt hb)]
        exact h.fresh b (Nat.le_of_succ_le hb) })

/-- What the block holds that the pointer points to. -/
def load (h : Heap κ) : Ptr → Except Stop κ
  | none => .error .null
  | some a =>
    match h.cell a with
    | none => .error .freed
    | some c => .ok c

/-- The heap after an assignment through the pointer. -/
def store (h : Heap κ) (p : Ptr) (f : κ → κ) : Except Stop (Heap κ) :=
  match p with
  | none => .error .null
  | some a => if (h.cell a).isSome then .ok (h.upd a f) else .error .freed

/-- `free`. Freeing `NULL` does nothing. -/
def free (h : Heap κ) : Ptr → Except Stop (Heap κ)
  | none => .ok h
  | some a => if (h.cell a).isSome then .ok (h.drop a) else .error .freed

/-- The block is live. -/
def Live (h : Heap κ) (a : Nat) : Prop := h.cell a ≠ none

variable {h h' h'' : Heap κ} {a b : Nat} {c : κ} {f : κ → κ} {l : List Nat}

/-! ## One operation -/

@[simp] theorem cell_upd (h : Heap κ) (a : Nat) (f : κ → κ) :
    (h.upd a f).cell = Function.update h.cell a ((h.cell a).map f) := rfl

@[simp] theorem cell_drop (h : Heap κ) (a : Nat) :
    (h.drop a).cell = Function.update h.cell a none := rfl

@[simp] theorem cell_malloc (h : Heap κ) (c : κ) :
    (h.malloc c).2.cell = Function.update h.cell h.next (some c) := rfl

@[simp] theorem malloc_fst (h : Heap κ) (c : κ) : (h.malloc c).1 = h.next := rfl

@[simp] theorem next_upd (h : Heap κ) (a : Nat) (f : κ → κ) : (h.upd a f).next = h.next := rfl

@[simp] theorem next_malloc (h : Heap κ) (c : κ) : (h.malloc c).2.next = h.next + 1 := rfl

theorem load_some (hc : h.cell a = some c) : h.load (some a) = .ok c := by simp [load, hc]

theorem store_some (hc : h.cell a = some c) : h.store (some a) f = .ok (h.upd a f) := by
  simp [store, hc]

theorem cell_upd_self (hc : h.cell a = some c) : (h.upd a f).cell a = some (f c) := by simp [hc]

theorem free_some (hc : h.cell a = some c) : h.free (some a) = .ok (h.drop a) := by simp [free, hc]

/-- A live block has been made. -/
theorem Live.lt (hl : h.Live a) : a < h.next :=
  Nat.not_le.1 fun hle => hl (h.fresh a hle)

theorem live_of_cell (hc : h.cell a = some c) : h.Live a := by simp [Live, hc]

/-! ## Comparing heaps -/

/-- The heaps hold the same in the blocks of the list. -/
def SameOn (l : List Nat) (h h' : Heap κ) : Prop := ∀ a ∈ l, h'.cell a = h.cell a

theorem SameOn.trans (h₁ : SameOn l h h') (h₂ : SameOn l h' h'') : SameOn l h h'' :=
  fun a ha => (h₂ a ha).trans (h₁ a ha)

theorem SameOn.subset {l' : List Nat} (hs : SameOn l h h') (hsub : ∀ a ∈ l', a ∈ l) :
    SameOn l' h h' :=
  fun a ha => hs a (hsub a ha)

theorem sameOn_upd (ha : a ∉ l) : SameOn l h (h.upd a f) :=
  fun _ hb => Function.update_of_ne (ne_of_mem_of_not_mem hb ha) _ _

theorem sameOn_drop (ha : a ∉ l) : SameOn l h (h.drop a) :=
  fun _ hb => Function.update_of_ne (ne_of_mem_of_not_mem hb ha) _ _

theorem sameOn_malloc (hl : ∀ b ∈ l, h.Live b) : SameOn l h (h.malloc c).2 :=
  fun b hb => Function.update_of_ne (Nat.ne_of_lt (hl b hb).lt) _ _

/-! ## Who owns which blocks -/

/-- Something that owned the blocks of `F` has become, in the heap `h'`, something that owns the
blocks of `F'`: what is new was made, what is no longer owned was freed, and no other block has
changed. -/
structure Moves (h : Heap κ) (F : List Nat) (h' : Heap κ) (F' : List Nat) : Prop where
  frame : ∀ b, b ∉ F → b ∉ F' → h'.cell b = h.cell b
  made : ∀ b ∈ F', b ∉ F → h.cell b = none
  freed : ∀ b ∈ F, b ∉ F' → h'.cell b = none

namespace Moves

variable {F F' F'' G : List Nat}

theorem refl (h : Heap κ) (F : List Nat) : Moves h F h F :=
  ⟨fun _ _ _ => rfl, fun _ hb hb' => absurd hb hb', fun _ hb hb' => absurd hb hb'⟩

theorem trans (h₁ : Moves h F h' F') (h₂ : Moves h' F' h'' F'') : Moves h F h'' F'' := by
  refine ⟨?_, ?_, ?_⟩
  · intro b hb hb''
    by_cases hb' : b ∈ F'
    · exact (h₂.freed b hb' hb'').trans (h₁.made b hb' hb).symm
    · exact (h₂.frame b hb' hb'').trans (h₁.frame b hb hb')
  · intro b hb'' hb
    by_cases hb' : b ∈ F'
    · exact h₁.made b hb' hb
    · exact (h₁.frame b hb hb').symm.trans (h₂.made b hb'' hb')
  · intro b hb hb''
    by_cases hb' : b ∈ F'
    · exact h₂.freed b hb' hb''
    · exact (h₂.frame b hb' hb'').trans (h₁.freed b hb hb')

/-- The owner may own other blocks besides, which stay as they are. -/
theorem widen (hm : Moves h F h' F') {A A' : List Nat} (hA : ∀ b, b ∈ A ↔ b ∈ F ∨ b ∈ G)
    (hA' : ∀ b, b ∈ A' ↔ b ∈ F' ∨ b ∈ G) : Moves h A h' A' := by
  refine ⟨?_, ?_, ?_⟩
  · intro b hb hb'
    exact hm.frame b (fun h => hb ((hA b).2 (.inl h))) fun h => hb' ((hA' b).2 (.inl h))
  · intro b hb' hb
    rcases (hA' b).1 hb' with h | h
    · exact hm.made b h fun h' => hb ((hA b).2 (.inl h'))
    · exact absurd ((hA b).2 (.inr h)) hb
  · intro b hb hb'
    rcases (hA b).1 hb with h | h
    · exact hm.freed b h fun h' => hb' ((hA' b).2 (.inl h'))
    · exact absurd ((hA' b).2 (.inr h)) hb'

/-- A block of another owner stays as it is, and it is still not one of these. -/
theorem apart_cell (hm : Moves h F h' F') (hc : h.cell a = some c) (ha : a ∉ F) :
    a ∉ F' ∧ h'.cell a = some c := by
  have hF' : a ∉ F' := fun ha' => live_of_cell hc (hm.made a ha' ha)
  exact ⟨hF', (hm.frame a ha hF').trans hc⟩

/-- What another owner has stays as it is, and the two still share no block. -/
theorem apart (hm : Moves h F h' F') (hlive : ∀ b ∈ G, h.Live b) (hG : ∀ b ∈ G, b ∉ F) :
    (∀ b ∈ G, b ∉ F') ∧ SameOn G h h' := by
  have hF' : ∀ b ∈ G, b ∉ F' := fun b hb hb' => hlive b hb (hm.made b hb' (hG b hb))
  exact ⟨hF', fun b hb => hm.frame b (hG b hb) (hF' b hb)⟩

/-- The blocks of the owner are the live ones, before and after. -/
theorem owns_all (hm : Moves h F h' F') (hF : ∀ b, h.Live b → b ∈ F) :
    ∀ b, h'.Live b → b ∈ F' := by
  intro b hb
  by_contra hb'
  by_cases hbF : b ∈ F
  · exact hb (hm.freed b hbF hb')
  · have hlive : h.Live b := by
      rw [Live, ← hm.frame b hbF hb']
      exact hb
    exact hbF (hF b hlive)

end Moves

theorem moves_upd (ha : a ∈ l) : Moves h l (h.upd a f) l :=
  ⟨fun _ hb _ => Function.update_of_ne (ne_of_mem_of_not_mem ha hb).symm _ _,
    fun _ hb hb' => absurd hb hb', fun _ hb hb' => absurd hb hb'⟩

theorem moves_drop : Moves h (a :: l) (h.drop a) l := by
  refine ⟨?_, ?_, ?_⟩
  · intro b hb _
    exact Function.update_of_ne (fun heq => hb (List.mem_cons.2 (.inl heq))) _ _
  · exact fun b hb hb' => absurd (List.mem_cons_of_mem _ hb) hb'
  · intro b hb hb'
    rcases List.mem_cons.1 hb with rfl | hb
    · exact Function.update_self _ _ _
    · exact absurd hb hb'

end Heap
