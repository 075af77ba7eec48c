import Mathlib.Data.List.Basic
import Mathlib.Data.List.GetD

/-!
# Regular files

A regular file is a number of bytes and the byte at each position. The positions past the end of the
file hold zeros, so that a write past the end and a truncation that makes the file longer fill the
gap with zeros, as POSIX says. `File.read`, `File.write` and `File.truncate` are what `pread`,
`pwrite` and `ftruncate` do to a file; a short count is a read or a write of fewer bytes.
-/

/-- A regular file: its size and its bytes. -/
structure File where
  size : Nat
  byte : Nat → UInt8
  beyond : ∀ p, size ≤ p → byte p = 0

namespace File

/-- The file without a byte. -/
def empty : File := ⟨0, fun _ => 0, fun _ _ => rfl⟩

variable {f : File} {data : List UInt8} {off n p : Nat}

/-- The bytes from the offset on, `n` of them or as many as there are up to the end of the file. -/
def read (f : File) (off n : Nat) : List UInt8 :=
  (List.range (min n (f.size - off))).map fun k : Nat => f.byte (off + k)

/-- The file with the bytes of `data` from the offset on. Writing nothing does not make it
longer. -/
def write (f : File) (data : List UInt8) (off : Nat) : File where
  size := if data = [] then f.size else max f.size (off + data.length)
  byte p := if off ≤ p then (data[p - off]?).getD (f.byte p) else f.byte p
  beyond p hp := by
    split
    · next hle =>
      split at hp
      · next hnil =>
        subst hnil
        exact f.beyond p hp
      · rw [List.getElem?_eq_none (by omega)]
        exact f.beyond p (by omega)
    · next hlt =>
      refine f.beyond p ?_
      split at hp <;> omega

/-- The file cut off or extended to `n` bytes. -/
def truncate (f : File) (n : Nat) : File where
  size := n
  byte p := if p < n then f.byte p else 0
  beyond _ hp := if_neg (Nat.not_lt.2 hp)

@[simp] theorem truncate_size : (f.truncate n).size = n := rfl

@[simp] theorem length_read : (f.read off n).length = min n (f.size - off) := by simp [read]

/-- A byte that is read is the byte at its position, which is in the file. -/
theorem getElem?_read {k : Nat} {b : UInt8} (h : (f.read off n)[k]? = some b) :
    k < n ∧ off + k < f.size ∧ b = f.byte (off + k) := by
  have hlt := (List.getElem?_eq_some_iff.1 h).1
  rw [length_read] at hlt
  rw [read, List.getElem?_map, List.getElem?_range hlt] at h
  cases h
  exact ⟨by omega, by omega, rfl⟩

/-- Reading one byte in the file. -/
theorem read_one (hp : p < f.size) : f.read p 1 = [f.byte p] := by
  rw [read, Nat.min_eq_left (by omega)]
  simp

/-- A position that the data covers holds its byte. -/
theorem write_byte_of_some {b : UInt8} (hle : off ≤ p) (h : data[p - off]? = some b) :
    (f.write data off).byte p = b ∧ p < (f.write data off).size := by
  have hlt := (List.getElem?_eq_some_iff.1 h).1
  have hne : data ≠ [] := fun hnil => by simp [hnil] at hlt
  simp only [write, if_pos hle, h, if_neg hne, Option.getD_some]
  exact ⟨trivial, by omega⟩

/-- A position that the data does not cover keeps its byte. -/
theorem write_byte_of_not (h : ¬ (off ≤ p ∧ p < off + data.length)) :
    (f.write data off).byte p = f.byte p := by
  simp only [write]
  split
  · next hle =>
    rw [List.getElem?_eq_none (by omega)]
    rfl
  · rfl

/-- A write never makes the file shorter. -/
theorem size_le_write : f.size ≤ (f.write data off).size := by
  simp only [write]
  split <;> omega

/-- A position that is new in the file after a write lies before the end of the data. -/
theorem lt_of_lt_write (h : p < (f.write data off).size) (hp : f.size ≤ p) :
    p < off + data.length ∧ data ≠ [] := by
  simp only [write] at h
  split at h
  · omega
  · next hne => exact ⟨by omega, hne⟩

end File
