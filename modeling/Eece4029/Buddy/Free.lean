import Eece4029.Buddy.Tree

/-!
# `_buddy_free` frees one page and coalesces

`_buddy_free` searches both sides of every split and merges two free buddies on its way back up.
Over a tree with coalesced free space at most one leaf matches, and the merge happens exactly on the
way up from it: the call frees the one page that starts at the index and restores the invariant, or
it returns `-1` and leaves the tree as it was (`BuddyTree.free_spec`). `BuddyTree.size_spec` says
what `_buddy_size` computes on such a tree.
-/

namespace Eece4029

namespace BuddyTree

open Node

variable {b : Region} {l r t t' : Node} {i rt : Int}

/-! ## The merge on the way back up -/

/-- What `_buddy_free` makes of a split whose children are now `l` and `r`. -/
def merge (b : Region) (l r : Node) : Node :=
  if l.state = .FREE ∧ r.state = .FREE then .free b.start b.len else .split b.start b.len l r

/-- The merge restores the invariant. -/
theorem merge_tree (hl : BuddyTree b.left l) (hr : BuddyTree b.right r) :
    BuddyTree b (merge b l r) := by
  unfold merge
  split
  · exact .free b
  · next h => exact .split b hl hr h

/-- The merge changes no page. -/
theorem merge_pages (hl : BuddyTree b.left l) (hr : BuddyTree b.right r) :
    (merge b l r).pages = l.pages ++ r.pages := by
  unfold merge
  split
  · next h => rw [pages_free, hl.pages_eq_nil.2 h.1, hr.pages_eq_nil.2 h.2]; rfl
  · rfl

/-! ## Freeing -/

/-- What a call of `_buddy_free` for the index `i` on the tree `t` returns and leaves: the page that
starts at `i` is freed, or there is none and nothing changes. -/
inductive FreeResult (b : Region) (t : Node) (i : Int) : Int → Node → Prop
  | freed {p : Region} {t' : Node} (lo hi : List Region) (ht : BuddyTree b t')
      (hs : (p.start : Int) = i) (hp : t.pages = lo ++ p :: hi) (hp' : t'.pages = lo ++ hi) :
      FreeResult b t i 0 t'
  | notFound (h : ∀ p ∈ t.pages, (p.start : Int) ≠ i) : FreeResult b t i (-1) t

/-- The result of a call on a split, from the results of the calls on its children. -/
theorem FreeResult.split {rtl rtr : Int} {l' r' : Node} (hl : BuddyTree b.left l)
    (hr : BuddyTree b.right r) (hne : ¬ (l.state = .FREE ∧ r.state = .FREE))
    (hfl : FreeResult b.left l i rtl l') (hfr : FreeResult b.right r i rtr r') :
    FreeResult b (.split b.start b.len l r) i (if rtl = 0 ∨ rtr = 0 then 0 else -1)
      (merge b l' r') := by
  cases hfl with
  | @freed p _ lo hi hl' hs hp hp' =>
    cases hfr with
    | @freed q _ lo' hi' hr' hs' hq hq' =>
      -- two pages of different halves do not start at one index
      have h1 := hl.pages_inside p (by simp [hp])
      have h2 := hr.pages_inside q (by simp [hq])
      simp only [Region.Inside, Region.left_start, Region.left_len, Region.right_start,
        Region.right_len] at h1 h2
      omega
    | notFound h =>
      refine .freed lo (hi ++ r.pages) (merge_tree hl' hr) hs ?_ ?_
      · rw [pages_split, hp, List.append_assoc, List.cons_append]
      · rw [merge_pages hl' hr, hp', List.append_assoc]
  | notFound h =>
    cases hfr with
    | freed lo hi hr' hs hq hq' =>
      refine .freed (l.pages ++ lo) hi (merge_tree hl hr') hs ?_ ?_
      · rw [pages_split, hq, ← List.append_assoc]
      · rw [merge_pages hl hr', hq', ← List.append_assoc]
    | notFound h' =>
      rw [merge, if_neg hne]
      exact .notFound fun p hp => (List.mem_append.1 hp).elim (h p) (h' p)

/-- **A call of `_buddy_free`** frees the one page that starts at the index, or there is no such
page and it leaves the tree as it was. -/
theorem free_spec (ht : BuddyTree b t) : FreeResult b t i (buddyFree t i).1 (buddyFree t i).2 := by
  induction ht with
  | free b => exact .notFound fun p hp => nomatch hp
  | alloc b hb =>
    simp only [buddyFree]
    split
    · next h => exact .freed [] [] (.free b) h rfl rfl
    · next h => exact .notFound fun p hp => List.mem_singleton.1 hp ▸ h
  | split b hl hr hne ihl ihr => exact FreeResult.split hl hr hne ihl ihr

/-! ## The size of a page from an index inside it -/

/-- `_buddy_size` at an index inside a page is the number of bytes to the end of that page, and it
is `-1` at an index inside no page. -/
theorem size_spec (ht : BuddyTree b t) :
    (∃ p ∈ t.pages, p.Has i ∧ buddySize t i = p.start + p.len - i) ∨
      ((∀ p ∈ t.pages, ¬ p.Has i) ∧ buddySize t i = -1) := by
  induction ht with
  | free b => exact .inr ⟨fun p hp => (nomatch hp), rfl⟩
  | alloc b hb =>
    simp only [buddySize]
    split
    · next h => exact .inl ⟨b, List.mem_singleton_self b, h, rfl⟩
    · next h => exact .inr ⟨fun p hp => List.mem_singleton.1 hp ▸ h, rfl⟩
  | @split b l r hl hr hne ihl ihr =>
    simp only [buddySize, pages_split]
    rcases ihr with ⟨p, hp, hpi, hs⟩ | ⟨hno, hs⟩
    · have h0 : ¬ buddySize r i < 0 := by
        simp only [Region.Has] at hpi
        omega
      rw [if_neg h0]
      exact .inl ⟨p, List.mem_append_right _ hp, hpi, hs⟩
    · rw [if_pos (hs ▸ by decide)]
      rcases ihl with ⟨p, hp, hpi, hs⟩ | ⟨hno', hs⟩
      · exact .inl ⟨p, List.mem_append_left _ hp, hpi, hs⟩
      · exact .inr ⟨fun p hp => (List.mem_append.1 hp).elim (hno' p) (hno p), hs⟩

/-- `_buddy_size` is the number of bytes from an index to the end of the page it lies in. -/
theorem size_of_has (ht : BuddyTree b t) {p : Region} (hp : p ∈ t.pages) (hi : p.Has i) :
    buddySize t i = p.start + p.len - i := by
  rcases ht.size_spec (i := i) with ⟨q, hq, hqi, hs⟩ | ⟨hno, -⟩
  · rw [hs, ht.page_of_has hq hp hqi hi]
  · exact absurd hi (hno p hp)

/-- `_buddy_size` is `-1` at an index that lies in no page. -/
theorem size_of_not_has (ht : BuddyTree b t) (hno : ∀ p ∈ t.pages, ¬ p.Has i) :
    buddySize t i = -1 := by
  rcases ht.size_spec (i := i) with ⟨q, hq, hqi, -⟩ | ⟨-, hs⟩
  · exact absurd hqi (hno q hq)
  · exact hs

end BuddyTree

end Eece4029
