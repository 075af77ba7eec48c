import Mathlib.Data.List.Basic

/-!
# Lines of records

A program that prints a list of records on one line ends each record with a separator, and prints
the numbers in them with `%d`. Whoever reads the line gets the records back, by splitting it at the
separators (`splitOn_records`) and by reading the digits (`readDecimal_decimal`), as long as no
record contains a separator; a number contains none (`notMem_decimal`).
-/

namespace Records

universe u
variable {α : Type u}

/-- What `%d` prints. -/
def decimal (x : Int) : List Char := x.repr.toList

/-- The number with these digits, and with a sign or without. -/
def readDecimal : List Char → Int
  | '-' :: digits => -Nat.ofDigitChars 10 digits 0
  | digits => Nat.ofDigitChars 10 digits 0

/-- The records, with a separator after each. -/
def records (sep : α) (rs : List (List α)) : List α := rs.flatMap fun r => r ++ [sep]

/-! ## Numbers -/

theorem decimal_eq (x : Int) :
    decimal x = if 0 ≤ x then Nat.toDigits 10 x.toNat else '-' :: Nat.toDigits 10 (-x).toNat := by
  rw [decimal, Int.repr_eq_if]
  split
  · exact Nat.toList_repr
  · rw [String.toList_append, Nat.toList_repr]
    rfl

/-- Without a sign. -/
theorem readDecimal_toDigits (n : Nat) : readDecimal (Nat.toDigits 10 n) = n := by
  have hread : ∀ digits : List Char, '-' ∉ digits →
      readDecimal digits = Nat.ofDigitChars 10 digits 0 := by
    intro digits hminus
    unfold readDecimal
    split
    · exact absurd List.mem_cons_self hminus
    · rfl
  have hminus : '-' ∉ Nat.toDigits 10 n := fun h =>
    absurd (Nat.isDigit_of_mem_toDigits (by decide) (by decide) h) (by decide)
  rw [hread _ hminus, Nat.ofDigitChars_ten_toDigits]

/-- A number that was printed is read back. -/
theorem readDecimal_decimal (x : Int) : readDecimal (decimal x) = x := by
  rw [decimal_eq]
  split
  · next hx => rw [readDecimal_toDigits, Int.toNat_of_nonneg hx]
  · next hx =>
    rw [readDecimal, Nat.ofDigitChars_ten_toDigits, Int.toNat_of_nonneg (by omega), Int.neg_neg]

/-- A character that is no digit and no sign is in no number. -/
theorem notMem_decimal {c : Char} (hc : c.isDigit = false) (hminus : c ≠ '-') (x : Int) :
    c ∉ decimal x := by
  have hdigits : ∀ n, c ∉ Nat.toDigits 10 n := by
    intro n h
    rw [Nat.isDigit_of_mem_toDigits (by decide) (by decide) h] at hc
    cases hc
  rw [decimal_eq]
  split
  · exact hdigits _
  · exact List.not_mem_cons_of_ne_of_not_mem hminus (hdigits _)

/-! ## Records -/

variable {sep : α} {rs : List (List α)} {rest : List α}

theorem records_cons (r : List α) : records sep (r :: rs) = r ++ sep :: records sep rs := by
  simp [records]

theorem records_append (rs' : List (List α)) :
    records sep (rs ++ rs') = records sep rs ++ records sep rs' := List.flatMap_append

/-- Splitting at the separators gives the records, and what comes after the last one. -/
theorem splitOn_records [BEq α] [LawfulBEq α] (hrs : ∀ r ∈ rs, sep ∉ r) (hrest : sep ∉ rest) :
    (records sep rs ++ rest).splitOn sep = rs ++ [rest] := by
  induction rs with
  | nil => exact List.splitOn_eq_singleton hrest
  | cons r rs ih =>
    rw [records_cons, List.append_assoc, List.cons_append,
      List.splitOn_append_cons_self_of_not_mem (hrs r List.mem_cons_self),
      ih fun r hr => hrs r (List.mem_cons_of_mem _ hr), List.cons_append]

/-- Nothing but records splits into them. -/
theorem dropLast_splitOn_records [BEq α] [LawfulBEq α] (hrs : ∀ r ∈ rs, sep ∉ r) :
    ((records sep rs).splitOn sep).dropLast = rs := by
  have hsplit : (records sep rs ++ []).splitOn sep = rs ++ [[]] :=
    splitOn_records hrs List.not_mem_nil
  rw [List.append_nil] at hsplit
  rw [hsplit, List.dropLast_concat]

end Records
