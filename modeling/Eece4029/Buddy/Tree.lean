import Eece4029.Buddy.Node

/-!
# The invariant of the buddy tree

`BuddyTree b t` says that `t` is a tree the allocator can have over the region `b`: the index and
the size of every node are those of the region that halving gives on the way to it, pages are not
empty, and no split has two free children, because `_buddy_free` merges them on its way back up.
The pages of such a tree are disjoint, in address order and inside `b` (`BuddyTree.pages_inside`,
`BuddyTree.pages_pairwise`), and they determine the tree (`BuddyTree.ext`).
-/

namespace Eece4029

/-- `t` is a tree over the region `b` with coalesced free space. -/
inductive BuddyTree : Region → Node → Prop
  | free (b : Region) : BuddyTree b (.free b.start b.len)
  | alloc (b : Region) (h : 0 < b.len) : BuddyTree b (.alloc b.start b.len)
  | split (b : Region) {l r : Node} (hl : BuddyTree b.left l) (hr : BuddyTree b.right r)
      (h : ¬ (l.state = .FREE ∧ r.state = .FREE)) : BuddyTree b (.split b.start b.len l r)

namespace BuddyTree

open Node

variable {b : Region} {l r t t' : Node}

/-- The tree that `buddy_init` makes. -/
theorem init (S : Nat) : BuddyTree ⟨0, S⟩ (Node.init S) := .free ⟨0, S⟩

/-- The tree over a region that is free as a whole. -/
theorem eq_free (h : BuddyTree b t) (ht : t.state = .FREE) : t = .free b.start b.len := by
  cases h with
  | free => rfl
  | alloc | split => cases ht

/-! ## The pages of a tree -/

/-- Every page lies inside the tree's region, is not empty and is no longer than the region. -/
theorem pages_inside (h : BuddyTree b t) : ∀ p ∈ t.pages, p.Inside b ∧ 0 < p.len := by
  induction h with
  | free => exact fun p hp => nomatch hp
  | alloc b hb =>
    intro p hp
    rw [List.mem_singleton.1 hp]
    exact ⟨.refl, hb⟩
  | split b _ _ _ ihl ihr =>
    intro p hp
    rcases List.mem_append.1 hp with hp | hp
    · exact ⟨(ihl p hp).1.trans Region.left_inside, (ihl p hp).2⟩
    · exact ⟨(ihr p hp).1.trans Region.right_inside, (ihr p hp).2⟩

/-- The pages are in address order and do not overlap. -/
theorem pages_pairwise (h : BuddyTree b t) : t.pages.Pairwise Region.Before := by
  induction h with
  | free | alloc => simp
  | split b hl hr _ ihl ihr =>
    exact List.pairwise_append.2 ⟨ihl, ihr, fun p hp q hq =>
      Region.before_of_halves (hl.pages_inside p hp).1 (hr.pages_inside q hq).1⟩

/-- A tree without a page is free as a whole, since its free space is coalesced. -/
theorem pages_eq_nil (h : BuddyTree b t) : t.pages = [] ↔ t.state = .FREE := by
  induction h with
  | free | alloc => simp
  | split b _ _ hne ihl ihr =>
    simp only [pages_split, List.append_eq_nil_iff, ihl, ihr, state_split, reduceCtorEq,
      iff_false]
    exact hne

/-- A split has a page below it. -/
theorem exists_page (h : BuddyTree b (.split b.start b.len l r)) :
    ∃ p, p ∈ l.pages ++ r.pages ∧ p.Inside b ∧ 0 < p.len := by
  obtain ⟨p, hp⟩ := List.exists_mem_of_ne_nil (l.pages ++ r.pages) fun h0 =>
    nomatch h.pages_eq_nil.1 h0
  exact ⟨p, hp, h.pages_inside p hp⟩

/-- Different pages of one tree are disjoint. -/
theorem pages_disjoint (h : BuddyTree b t) {p q : Region} (hp : p ∈ t.pages) (hq : q ∈ t.pages)
    (hne : p ≠ q) : p.Disjoint q :=
  (h.pages_pairwise.imp fun hb => hb.disjoint).forall hp hq hne

/-- Every address is in at most one page. -/
theorem page_of_has (h : BuddyTree b t) {p q : Region} (hp : p ∈ t.pages) (hq : q ∈ t.pages)
    {a : Int} (hpa : p.Has a) (hqa : q.Has a) : p = q := by
  by_contra hne
  exact h.pages_disjoint hp hq hne a hpa hqa

/-- Two pages of one tree that start at one index are one page. -/
theorem page_of_start (h : BuddyTree b t) {p q : Region} (hp : p ∈ t.pages) (hq : q ∈ t.pages)
    (hpq : p.start = q.start) : p = q := by
  have h1 := (h.pages_inside p hp).2
  have h2 := (h.pages_inside q hq).2
  refine h.page_of_has (a := p.start) hp hq ⟨Int.le_refl _, by omega⟩ ⟨by omega, by omega⟩

/-- No other page starts where a page starts. -/
theorem start_ne (h : BuddyTree b t) {p : Region} {lo hi : List Region}
    (hp : t.pages = lo ++ p :: hi) : ∀ q ∈ lo ++ hi, q.start ≠ p.start := by
  intro q hq
  have hq0 : 0 < q.len :=
    (h.pages_inside q (hp ▸ List.perm_middle.mem_iff.2 (List.mem_cons_of_mem p hq))).2
  have hp0 : 0 < p.len := (h.pages_inside p (by simp [hp])).2
  have hpw := h.pages_pairwise
  rw [hp] at hpw
  obtain ⟨-, hpw, hlo⟩ := List.pairwise_append.1 hpw
  rcases List.mem_append.1 hq with hq | hq
  · have := hlo q hq p (by simp)
    simp only [Region.Before] at this
    omega
  · have := List.rel_of_pairwise_cons hpw hq
    simp only [Region.Before] at this
    omega

/-! ## The tree is determined by its pages -/

/-- A page of a split is in the left child exactly when it starts in the left half. -/
theorem mem_left_pages (hl : BuddyTree b.left l) (hr : BuddyTree b.right r) {p : Region} :
    p ∈ l.pages ↔ p ∈ l.pages ++ r.pages ∧ p.start < b.start + b.len / 2 := by
  constructor
  · intro hp
    have hi := hl.pages_inside p hp
    simp only [Region.Inside, Region.left_start, Region.left_len] at hi
    exact ⟨List.mem_append_left _ hp, by omega⟩
  · rintro ⟨hp, hlt⟩
    rcases List.mem_append.1 hp with hp | hp
    · exact hp
    · have hi := hr.pages_inside p hp
      simp only [Region.Inside, Region.right_start, Region.right_len] at hi
      omega

/-- A page of a split is in the right child exactly when it starts in the right half. -/
theorem mem_right_pages (hl : BuddyTree b.left l) (hr : BuddyTree b.right r) {p : Region} :
    p ∈ r.pages ↔ p ∈ l.pages ++ r.pages ∧ b.start + b.len / 2 ≤ p.start := by
  constructor
  · intro hp
    have hi := hr.pages_inside p hp
    simp only [Region.Inside, Region.right_start, Region.right_len] at hi
    exact ⟨List.mem_append_right _ hp, by omega⟩
  · rintro ⟨hp, hle⟩
    rcases List.mem_append.1 hp with hp | hp
    · have hi := hl.pages_inside p hp
      simp only [Region.Inside, Region.left_start, Region.left_len] at hi
      omega
    · exact hp

/-- A page as long as the region is below no split of it, since it is longer than either half. -/
theorem not_mem_split (hl : BuddyTree b.left l) (hr : BuddyTree b.right r) (hb : 0 < b.len) :
    b ∉ l.pages ++ r.pages := by
  intro hmem
  rcases List.mem_append.1 hmem with hmem | hmem
  · have hi := (hl.pages_inside b hmem).1
    simp only [Region.Inside, Region.left_start, Region.left_len] at hi
    omega
  · have hi := (hr.pages_inside b hmem).1
    simp only [Region.Inside, Region.right_start, Region.right_len] at hi
    omega

/-- Two trees over one region with the same pages are equal. -/
theorem ext (h : BuddyTree b t) : ∀ {t' : Node}, BuddyTree b t' →
    (∀ p, p ∈ t.pages ↔ p ∈ t'.pages) → t = t' := by
  induction h with
  | free b =>
    intro t' h' hp
    have h0 : t'.pages = [] := List.eq_nil_iff_forall_not_mem.2 fun p hp' => nomatch (hp p).2 hp'
    exact (h'.eq_free (h'.pages_eq_nil.1 h0)).symm
  | alloc b hb =>
    intro t' h' hp
    have hb' : b ∈ t'.pages := (hp b).1 (List.mem_singleton_self b)
    cases h' with
    | free => cases hb'
    | alloc => rfl
    | split _ hl hr => exact absurd hb' (not_mem_split hl hr hb)
  | @split b l r hl hr hne ihl ihr =>
    intro t' h' hp
    cases h' with
    | free =>
      exact absurd (((split b hl hr hne).pages_eq_nil).1
        (List.eq_nil_iff_forall_not_mem.2 fun p hp' => nomatch (hp p).1 hp')) (by simp)
    | alloc _ hb =>
      have hb' : b ∈ l.pages ++ r.pages := (hp b).2 (List.mem_singleton_self b)
      exact absurd hb' (not_mem_split hl hr hb)
    | split _ hl' hr' =>
      have el := ihl hl' fun p => by
        rw [mem_left_pages hl hr, mem_left_pages hl' hr']
        exact and_congr_left' (hp p)
      have er := ihr hr' fun p => by
        rw [mem_right_pages hl hr, mem_right_pages hl' hr']
        exact and_congr_left' (hp p)
      rw [el, er]

end BuddyTree

end Eece4029
