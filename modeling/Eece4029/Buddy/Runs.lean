import Eece4029.Lib.Run
import Eece4029.Buddy.Alloc
import Eece4029.Buddy.Free

/-!
# Runs of the allocator

A run is a sequence of returned calls of `buddy_alloc` and `buddy_free` on the one tree of
`buddy.c`, from the tree `buddy_init` makes. `live` reads the pages in use off the calls and their
results alone: a page is live from the `buddy_alloc` that returned its index until the `buddy_free`
of that index that returned `0`, with the extent it had when it was made. `buddy_run_safe` compares
that history with the tree: at every point of every run the `ALLOC` leaves are the live pages.
-/

namespace Eece4029

open Transition Node

/-- A returned call of `buddy_alloc(size)` or `buddy_free(idx)` with its result. -/
inductive Event
  | alloc (size rt : Int)
  | free (idx rt : Int)
deriving DecidableEq, Repr

/-- The step of the allocator: the call of the event returns its result and leaves the second
tree. -/
def BuddyStep (t : Node) : Event → Node → Prop
  | .alloc size rt, t' => AllocReturns t size rt t'
  | .free idx rt, t' => buddyFree t idx = (rt, t')

/-- `tr` is a run of returned calls from `buddy_init(S)` to the tree `t`. -/
abbrev BuddyRun (S : Nat) (tr : List (Step Node Event)) (t : Node) : Prop :=
  Run BuddyStep (Node.init S) tr t

/-! ## Live pages -/

/-- A live page: its extent and the request that created it. -/
structure LivePage where
  page : Region
  request : Int

/-- The page that starts at the index `i` in the tree `t`, empty if there is none. -/
def pageAt (t : Node) (i : Int) : Region :=
  (t.pages.find? fun p => (p.start : Int) = i).getD ⟨i.toNat, 0⟩

/-- The live pages after one more call. -/
def liveStep (live : List LivePage) (x : Step Node Event) : List LivePage :=
  match x.label with
  | .alloc size rt => if 0 ≤ rt then ⟨pageAt x.post rt, size⟩ :: live else live
  | .free idx rt => if rt = 0 then live.filter fun q => (q.page.start : Int) ≠ idx else live

/-- The live pages at the end of a run, the youngest first. -/
def live (tr : List (Step Node Event)) : List LivePage :=
  tr.foldl liveStep []

/-- The extents of the live pages at the end of a run. -/
def livePages (tr : List (Step Node Event)) : List Region :=
  (live tr).map (·.page)

theorem live_snoc (tr : List (Step Node Event)) (x : Step Node Event) :
    live (tr ++ [x]) = liveStep (live tr) x := by
  simp [live, List.foldl_append]

/-! ## One call -/

variable {b : Region} {S : Nat} {t t' : Node} {e : Event} {tr : List (Step Node Event)}

/-- What a returned call does to the pages of the tree: a successful one adds or removes the page at
its index, every other one changes nothing. -/
inductive PageEffect : Event → List Region → List Region → Prop
  | made {p : Region} {size : Int} (lo hi : List Region) (h : size ≤ (p.len : Int)) :
      PageEffect (.alloc size p.start) (lo ++ hi) (lo ++ p :: hi)
  | noSpace {size : Int} (ps : List Region) : PageEffect (.alloc size (-1)) ps ps
  | freed {p : Region} (lo hi : List Region) :
      PageEffect (.free p.start 0) (lo ++ p :: hi) (lo ++ hi)
  | notFound {idx : Int} (ps : List Region) (h : ∀ p ∈ ps, (p.start : Int) ≠ idx) :
      PageEffect (.free idx (-1)) ps ps

/-- A call keeps the invariant of the tree and has one of the four effects on its pages. -/
theorem BuddyTree.step (ht : BuddyTree b t) (hs : BuddyStep t e t') :
    BuddyTree b t' ∧ PageEffect e t.pages t'.pages := by
  cases e with
  | alloc size rt =>
    rcases ht.alloc_spec hs with ⟨rfl, rfl⟩ | ⟨p, lo, hi, rfl, hsize, ht', hp, hp'⟩
    · exact ⟨ht, .noSpace _⟩
    · rw [hp, hp']
      exact ⟨ht', .made lo hi hsize⟩
  | free idx rt =>
    have hres : FreeResult b t idx rt t' := by
      have hres := ht.free_spec (i := idx)
      rwa [show buddyFree t idx = (rt, t') from hs] at hres
    cases hres with
    | freed lo hi ht' hidx hp hp' =>
      subst hidx
      rw [hp, hp']
      exact ⟨ht', .freed lo hi⟩
    | notFound h => exact ⟨ht, .notFound _ h⟩

/-- Every reachable tree satisfies the invariant. -/
theorem BuddyTree.of_reachable (h : Reachable BuddyStep (Node.init S) t) : BuddyTree ⟨0, S⟩ t :=
  Reachable.inv (.init S) (fun _ _ _ ht hs => (BuddyTree.step ht hs).1) h

/-- The tree at the end of a run satisfies the invariant. -/
theorem BuddyTree.of_run (h : BuddyRun S tr t) : BuddyTree ⟨0, S⟩ t :=
  .of_reachable ⟨tr, h⟩

/-! ## The history of a run -/

/-- The page at the index of one of its pages is that page. -/
theorem BuddyTree.pageAt_eq (ht : BuddyTree b t) {p : Region} (hp : p ∈ t.pages) :
    pageAt t p.start = p := by
  unfold pageAt
  cases hfind : t.pages.find? fun q => (q.start : Int) = p.start with
  | none =>
    have := List.find?_eq_none.1 hfind p hp
    simp at this
  | some q =>
    have hq : (q.start : Int) = p.start := by simpa using List.find?_some hfind
    exact ht.page_of_start (List.mem_of_find?_eq_some hfind) hp (Int.ofNat_inj.1 hq)

/-- What holds between the history and the tree at every point of a run. -/
structure HistoryInv (S : Nat) (L : List LivePage) (t : Node) : Prop where
  tree : BuddyTree ⟨0, S⟩ t
  leaves : t.pages.Perm (L.map (·.page))
  holds : ∀ q ∈ L, q.request ≤ (q.page.len : Int)

/-- A call keeps the history and the tree in step. -/
theorem HistoryInv.step {L : List LivePage} (h : HistoryInv S L t) (hs : BuddyStep t e t') :
    HistoryInv S (liveStep L ⟨t, e, t'⟩) t' := by
  obtain ⟨ht', heff⟩ := h.tree.step hs
  have hleaves := h.leaves
  revert hleaves
  generalize hps : t.pages = ps at heff
  generalize hps' : t'.pages = ps' at heff
  cases heff with
  | @made p size lo hi hsize =>
    intro hleaves
    have hat : pageAt t' p.start = p := ht'.pageAt_eq (by simp [hps'])
    have heq : liveStep L ⟨t, .alloc size p.start, t'⟩ = ⟨p, size⟩ :: L := by
      simp [liveStep, hat]
    rw [heq]
    refine ⟨ht', ?_, ?_⟩
    · rw [hps']
      exact List.perm_middle.trans (hleaves.cons p)
    · intro q hq
      rcases List.mem_cons.1 hq with rfl | hq
      · exact hsize
      · exact h.holds q hq
  | noSpace =>
    intro hleaves
    exact ⟨ht', hps' ▸ hleaves, h.holds⟩
  | @freed p lo hi =>
    intro hleaves
    have heq : liveStep L ⟨t, .free p.start 0, t'⟩ =
        L.filter fun q => (q.page.start : Int) ≠ p.start := by simp [liveStep]
    rw [heq]
    refine ⟨ht', ?_, fun q hq => h.holds q (List.mem_filter.1 hq).1⟩
    have hne := h.tree.start_ne hps
    calc t'.pages = (lo ++ p :: hi).filter fun q => (q.start : Int) ≠ p.start := by
          rw [hps', List.filter_append, List.filter_cons_of_neg (by simp), ← List.filter_append]
          exact (List.filter_eq_self.2 fun q hq => by simpa using hne q hq).symm
      _ |>.Perm ((L.map (·.page)).filter fun q => (q.start : Int) ≠ p.start) := hleaves.filter _
      _ = (L.filter fun q => (q.page.start : Int) ≠ p.start).map (·.page) := by
          rw [List.filter_map]; rfl
  | notFound =>
    intro hleaves
    exact ⟨ht', hps' ▸ hleaves, h.holds⟩

/-- The history and the tree agree at the end of every run. -/
theorem HistoryInv.of_run (h : BuddyRun S tr t) : HistoryInv S (live tr) t := by
  induction h with
  | nil => exact ⟨.init S, .refl _, fun q hq => nomatch hq⟩
  | snoc _ hs ih => rw [live_snoc]; exact ih.step hs

/-! ## Safety of every run -/

/-- The safety of the allocator at the end of a run: the `ALLOC` leaves are the live pages, the live
pages are pairwise disjoint, lie inside the pool and hold the requests that made them, and the next
call changes no page but the one it makes or frees. -/
structure RunSafe (S : Nat) (tr : List (Step Node Event)) (t : Node) : Prop where
  leaves : t.pages.Perm (livePages tr)
  disjoint : (livePages tr).Pairwise Region.Disjoint
  inside : ∀ p ∈ livePages tr, p.Inside ⟨0, S⟩
  holds : ∀ q ∈ live tr, q.request ≤ (q.page.len : Int)
  frame : ∀ e t', BuddyStep t e t' → PageEffect e t.pages t'.pages

/-- **The allocator is safe at every point of every run.** -/
theorem buddy_run_safe (h : BuddyRun S tr t) : RunSafe S tr t := by
  have hinv := HistoryInv.of_run h
  refine ⟨hinv.leaves, ?_, ?_, hinv.holds, fun e t' hs => (hinv.tree.step hs).2⟩
  · exact hinv.leaves.pairwise (hinv.tree.pages_pairwise.imp fun hb => hb.disjoint) fun h => h.symm
  · intro p hp
    exact (hinv.tree.pages_inside p (hinv.leaves.mem_iff.2 hp)).1

/-- Two pages of two bytes in a pool of four. -/
def twoPages : Node := .split 0 4 (.alloc 0 2) (.alloc 2 2)

/-- The run that makes them. -/
def twoPagesRun : List (Step Node Event) :=
  [⟨.free 0 4, .alloc 2 0, .split 0 4 (.alloc 0 2) (.free 2 2)⟩,
    ⟨.split 0 4 (.alloc 0 2) (.free 2 2), .alloc 2 2, twoPages⟩]

theorem twoPages_run : BuddyRun 4 twoPagesRun twoPages :=
  .snoc (.snoc .nil ⟨3, rfl⟩) ⟨3, rfl⟩

theorem buddy_run_safe_twoPages : RunSafe 4 twoPagesRun twoPages := buddy_run_safe twoPages_run

end Eece4029
