import Eece4029.Lib.Memory

/-!
# Strings that end with a zero byte

A C string is bytes without a zero among them, and its place in memory is given by where it starts:
the zero after it says where it ends. `strlen` looks for the zero from a place on, and reads every
byte up to it. Strings can stand one after the other in a block, and whoever knows where the block
starts and how long it is finds them all with `strlen` (`strlen_block`, `holds_rest`).
-/

namespace CString

open Memory

/-- A C string: its bytes, none of which is zero. -/
structure CStr where
  bytes : List UInt8
  noNul : 0 ∉ bytes

/-- The strings one after the other, each with the zero after it. -/
def block : List CStr → List UInt8
  | [] => []
  | s :: strs => s.bytes ++ 0 :: block strs

/-- `strlen`: the distance to the next zero byte. As a search that may find none, it has fuel. -/
def strlen (mem : Mem) : Nat → Nat → Option Nat
  | 0, _ => none
  | fuel + 1, p => if mem p = 0 then some 0 else (strlen mem fuel (p + 1)).map (· + 1)

variable {mem : Mem} {fuel p k : Nat} {s : CStr} {strs : List CStr}

/-- The search finds the first zero byte, if its fuel reaches that far. -/
theorem strlen_eq_some : strlen mem fuel p = some k ↔
    k < fuel ∧ mem (p + k) = 0 ∧ ∀ j < k, mem (p + j) ≠ 0 := by
  induction fuel generalizing p k with
  | zero => simp [strlen]
  | succ fuel ih =>
    rw [strlen]
    split
    · next hzero =>
      refine ⟨?_, ?_⟩
      · rintro ⟨⟩
        exact ⟨Nat.succ_pos _, hzero, fun _ hj => absurd hj (Nat.not_lt_zero _)⟩
      · rintro ⟨-, -, hbefore⟩
        cases k with
        | zero => rfl
        | succ k => exact absurd hzero (hbefore 0 (Nat.succ_pos _))
    · next hne =>
      rw [Option.map_eq_some_iff]
      cases k with
      | zero => simp [hne]
      | succ k =>
        simp only [Nat.add_right_cancel_iff, exists_eq_right, ih, Nat.add_lt_add_iff_right,
          Nat.forall_lt_succ_left, Nat.add_assoc, Nat.add_comm 1]
        simp [hne]

theorem length_block_cons :
    (block (s :: strs)).length = s.bytes.length + 1 + (block strs).length := by
  rw [block, List.length_append, List.length_cons]
  omega

theorem length_block_pos : 0 < (block strs).length ↔ strs ≠ [] := by
  cases strs with
  | nil => simp [block]
  | cons s strs =>
    rw [length_block_cons]
    exact iff_of_true (by omega) (List.cons_ne_nil s strs)

/-- At the start of a block `strlen` finds the length of its first string. -/
theorem strlen_block (h : Holds mem p (block (s :: strs))) (hfuel : s.bytes.length < fuel) :
    strlen mem fuel p = some s.bytes.length := by
  refine strlen_eq_some.2 ⟨hfuel, h _ _ ?_, fun j hj => ?_⟩
  · simp [block]
  · have hb : (block (s :: strs))[j]? = some s.bytes[j] := by
      rw [block, List.getElem?_append_left hj, List.getElem?_eq_getElem hj]
    rw [h j _ hb]
    exact fun hzero => s.noNul (hzero ▸ List.getElem_mem hj)

/-- Past its first string there are the others. -/
theorem holds_rest (h : Holds mem p (block (s :: strs))) :
    Holds mem (p + s.bytes.length + 1) (block strs) := by
  intro i b hb
  have hi : (block (s :: strs))[s.bytes.length + (i + 1)]? = some b := by
    rw [block, List.getElem?_append_right (Nat.le_add_right _ _), Nat.add_sub_cancel_left]
    exact hb
  rw [← h _ b hi, Nat.add_right_comm, Nat.add_assoc, Nat.add_assoc]

end CString
