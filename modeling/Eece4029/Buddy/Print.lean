import Eece4029.Buddy.Runs
import Eece4029.Lib.Records

/-!
# What buddy_print draws

`_buddy_print` walks the tree and draws every leaf: for each of its bytes a dash, or the index of
the page, and a pipe after the leaf. The splits are not drawn, and neither is where a leaf starts,
if it is free. Still the drawing says everything: whoever reads it gets the pages back
(`readPages_buddyPrint`), and a tree that the calls can lead to is the only one with its drawing
(`print_determines`).

The text is the one of `printf`.
-/

namespace Eece4029

open Transition Records

/-- What stands for a byte of a leaf. -/
def drawnByte : Node → List Char
  | .free .. => "-".toList
  | .split idx .. | .alloc idx _ => decimal idx

/-- The loop of `_buddy_print` over the bytes of a leaf, from the moment when it has so many rounds
left. -/
def drawnBytes (n : Node) : Nat → List Char
  | 0 => []
  | rounds + 1 => drawnByte n ++ ",".toList ++ drawnBytes n rounds

/-- `_buddy_print`. -/
def buddyPrint : Node → List Char
  | .split _ _ left right => buddyPrint left ++ buddyPrint right
  | .free idx size => drawnBytes (.free idx size) size ++ "|".toList
  | .alloc idx size => drawnBytes (.alloc idx size) size ++ "|".toList

/-! ## Reading it -/

/-- The page that a leaf between two pipes stands for, if it is one. -/
def readLeaf (text : List Char) : Option Region :=
  match (text.splitOn ',').dropLast with
  | [] => none
  | cell :: cells =>
    if cell = "-".toList then none else some ⟨(readDecimal cell).toNat, cells.length + 1⟩

/-- The pages of a drawing. -/
def readPages (text : List Char) : List Region := (text.splitOn '|').dropLast.filterMap readLeaf

/-- The leaves of a tree, as they are drawn between the pipes. -/
def drawnLeaves : Node → List (List Char)
  | .split _ _ left right => drawnLeaves left ++ drawnLeaves right
  | .free idx size => [drawnBytes (.free idx size) size]
  | .alloc idx size => [drawnBytes (.alloc idx size) size]

variable {S size idx : Nat} {t t' n : Node} {b : Region} {tr : List (Step Node Event)}

theorem buddyPrint_eq (t : Node) : buddyPrint t = records '|' (drawnLeaves t) := by
  induction t with
  | free | alloc => exact (List.flatMap_singleton _ _).symm
  | split idx size l r ihl ihr => rw [buddyPrint, drawnLeaves, records_append, ihl, ihr]

theorem drawnBytes_eq (n : Node) (size : Nat) :
    drawnBytes n size = records ',' (List.replicate size (drawnByte n)) := by
  induction size with
  | zero => rfl
  | succ size ih =>
    rw [drawnBytes, ih, List.replicate_succ, records_cons, List.append_assoc]
    rfl

/-- A byte is drawn without a comma and without a pipe. -/
theorem notMem_drawnByte {c : Char} (hc : c.isDigit = false) (hminus : c ≠ '-') (n : Node) :
    c ∉ drawnByte n := by
  cases n with
  | free => simpa [drawnByte] using hminus
  | split | alloc => exact notMem_decimal hc hminus _

theorem notMem_drawnBytes (n : Node) (size : Nat) : '|' ∉ drawnBytes n size := by
  induction size with
  | zero => exact List.not_mem_nil
  | succ size ih =>
    have hbyte := notMem_drawnByte (c := '|') (by decide) (by decide) n
    simp only [drawnBytes, List.mem_append, not_or]
    exact ⟨⟨hbyte, by decide⟩, ih⟩

theorem notMem_drawnLeaves (t : Node) : ∀ r ∈ drawnLeaves t, '|' ∉ r := by
  induction t with
  | free | alloc => exact List.forall_mem_singleton.2 (notMem_drawnBytes _ _)
  | split idx size l r ihl ihr => exact List.forall_mem_append.2 ⟨ihl, ihr⟩

/-! ## The pages are read back -/

/-- The cells of a leaf are its bytes. -/
theorem cells_drawnBytes (n : Node) (size : Nat) :
    ((drawnBytes n size).splitOn ',').dropLast = List.replicate size (drawnByte n) := by
  have hsep : ∀ r ∈ List.replicate size (drawnByte n), ',' ∉ r := by
    intro r hr
    rw [List.eq_of_mem_replicate hr]
    exact notMem_drawnByte (by decide) (by decide) n
  rw [drawnBytes_eq, dropLast_splitOn_records hsep]

theorem readLeaf_free : readLeaf (drawnBytes (.free idx size) size) = none := by
  rw [readLeaf, cells_drawnBytes]
  cases size with
  | zero => rfl
  | succ size => exact if_pos rfl

/-- An index is not drawn as a dash. -/
theorem decimal_ne_dash (idx : Nat) : decimal idx ≠ "-".toList := by
  intro heq
  have hread := readDecimal_decimal idx
  rw [heq] at hread
  obtain rfl : idx = 0 := (Int.ofNat_inj.1 hread).symm
  exact absurd heq (by decide)

theorem readLeaf_alloc (h : 0 < size) :
    readLeaf (drawnBytes (.alloc idx size) size) = some ⟨idx, size⟩ := by
  cases size with
  | zero => exact absurd h (Nat.lt_irrefl 0)
  | succ size =>
    have hcells := cells_drawnBytes (.alloc idx (size + 1)) (size + 1)
    rw [List.replicate_succ] at hcells
    simp only [readLeaf, hcells, drawnByte, if_neg (decimal_ne_dash idx), readDecimal_decimal,
      List.length_replicate, Int.toNat_natCast]

/-- **The pages of a drawing are those of the tree.** -/
theorem readPages_buddyPrint (ht : BuddyTree b t) : readPages (buddyPrint t) = t.pages := by
  have hleaves : (drawnLeaves t).filterMap readLeaf = t.pages := by
    induction ht with
    | free b => simp [drawnLeaves, readLeaf_free]
    | alloc b hb => simp [drawnLeaves, readLeaf_alloc hb]
    | split b hl hr _ ihl ihr => rw [drawnLeaves, List.filterMap_append, ihl, ihr, Node.pages_split]
  rw [readPages, buddyPrint_eq, dropLast_splitOn_records (notMem_drawnLeaves t), hleaves]

/-- **A drawing has one tree.** After any returned calls the drawing shows exactly the live pages,
and a tree that other calls on a pool of the same size lead to has the same drawing only if it is
the same tree. -/
theorem print_determines (h : BuddyRun S tr t) :
    (readPages (buddyPrint t)).Perm (livePages tr) ∧
    ∀ tr' t', BuddyRun S tr' t' → buddyPrint t' = buddyPrint t → t' = t := by
  have ht : BuddyTree ⟨0, S⟩ t := .of_run h
  refine ⟨?_, fun tr' t' h' heq => ?_⟩
  · rw [readPages_buddyPrint ht]
    exact (HistoryInv.of_run h).leaves
  · have ht' : BuddyTree ⟨0, S⟩ t' := .of_run h'
    have hpages : t'.pages = t.pages := by
      rw [← readPages_buddyPrint ht', ← readPages_buddyPrint ht, heq]
    exact ht'.ext ht fun p => by rw [hpages]

/-- Two pages of two bytes, and one page of two bytes next to a free one. -/
theorem print_determines_twoPages : (readPages (buddyPrint twoPages)).Perm (livePages twoPagesRun) ∧
    buddyPrint twoPages = "0,0,|2,2,|".toList :=
  ⟨(print_determines twoPages_run).1, rfl⟩

end Eece4029
