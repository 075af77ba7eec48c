import Eece4029.Lib.File
import Mathlib.Data.List.TakeDrop

/-!
# What a file holds, over any alphabet

A `Medium α D` keeps the contents of a file over the alphabet `α` in a value of the type `D`: it has
the operations that read and change them. `Medium.plain hole` keeps the list of the symbols, and
what is added without being written, the gap before a write past the end and the end of a file that
is made longer, is filled with `hole`. `Medium.posix` is `File`.

`M.Hom N g` reads what is kept by `M` as something kept by `N`, symbol by symbol through `g`, so
that every operation on the one is the operation on the other one. A change of the alphabet is one
between plain media (`Medium.Hom.relabel`), whose hole it changes, too, and a `File` is a plain list
of bytes with zero as its hole (`Medium.Hom.bytes`).
-/

universe u v w x

/-- A way to keep the contents of files. A number of symbols is read from an offset on, and symbols
are written from an offset on. -/
structure Medium (α : Type u) (D : Type v) where
  empty : D
  size : D → Nat
  read : D → Nat → Nat → List α
  write : D → List α → Nat → D
  truncate : D → Nat → D

namespace Medium

variable {α : Type u} {β : Type w}

/-- Contents of the one medium as contents of the other one, symbol by symbol. -/
structure Hom {D : Type v} {E : Type x} (M : Medium α D) (N : Medium β E) (g : α → β) where
  toFun : D → E
  empty : toFun M.empty = N.empty
  size : ∀ d, N.size (toFun d) = M.size d
  read : ∀ d off n, N.read (toFun d) off n = (M.read d off n).map g
  write : ∀ d data off, toFun (M.write d data off) = N.write (toFun d) (data.map g) off
  truncate : ∀ d n, toFun (M.truncate d n) = N.truncate (toFun d) n

/-- The list with the symbols of `data` from the offset on. Writing nothing does not make it
longer. -/
def overwrite (hole : α) (l data : List α) (off : Nat) : List α :=
  if data.isEmpty then l else l.takeD off hole ++ data ++ l.drop (off + data.length)

/-- The list of the symbols. -/
def plain (hole : α) : Medium α (List α) where
  empty := []
  size := List.length
  read l off n := (l.drop off).take n
  write := overwrite hole
  truncate l n := l.takeD n hole

/-- Regular files. -/
def posix : Medium UInt8 File where
  empty := .empty
  size := File.size
  read := File.read
  write := File.write
  truncate := File.truncate

theorem map_takeD {g : α → β} {hole : α} : ∀ {n : Nat} {l : List α},
    (l.takeD n hole).map g = (l.map g).takeD n (g hole)
  | 0, _ => rfl
  | n + 1, [] => by simp
  | n + 1, a :: l => by simpa using map_takeD

theorem map_overwrite {g : α → β} {hole : α} {l data : List α} {off : Nat} :
    (overwrite hole l data off).map g = overwrite (g hole) (l.map g) (data.map g) off := by
  cases data with
  | nil => rfl
  | cons b data => simp [overwrite, map_takeD, List.map_drop]

/-- Symbol by symbol through `g`. -/
def Hom.relabel (hole : α) (g : α → β) : (plain hole).Hom (plain (g hole)) g where
  toFun := List.map g
  empty := rfl
  size _ := List.length_map g
  read l off n := by simp only [plain, List.map_take, List.map_drop]
  write _ _ _ := map_overwrite
  truncate _ _ := map_takeD

/-- One after the other. -/
def Hom.comp {γ D E F : Type*} {M : Medium α D} {N : Medium β E} {O : Medium γ F} {g : α → β}
    {g' : β → γ} (φ : M.Hom N g) (ψ : N.Hom O g') : M.Hom O (g' ∘ g) where
  toFun d := ψ.toFun (φ.toFun d)
  empty := by rw [φ.empty, ψ.empty]
  size d := by rw [ψ.size, φ.size]
  read d off n := by rw [ψ.read, φ.read, List.map_map]
  write d data off := by rw [φ.write, ψ.write, List.map_map]
  truncate d n := by rw [φ.truncate, ψ.truncate]

/-! ## Files as lists of bytes -/

theorem getElem?_takeD {hole : α} : ∀ {n p : Nat} {l : List α},
    (l.takeD n hole)[p]? = if p < n then some (l[p]?.getD hole) else none
  | 0, p, l => by simp
  | n + 1, 0, [] => by simp
  | n + 1, 0, a :: l => by simp
  | n + 1, p + 1, [] => by simp [List.getElem?_replicate]
  | n + 1, p + 1, a :: l => by simp [getElem?_takeD]

/-- The bytes of a file. -/
def bytes (f : File) : List UInt8 := (List.range f.size).map f.byte

variable {f : File} {off n p : Nat} {data : List UInt8}

@[simp] theorem length_bytes : (bytes f).length = f.size := by simp [bytes]

@[simp] theorem getElem?_bytes : (bytes f)[p]? = if p < f.size then some (f.byte p) else none := by
  rw [bytes, List.getElem?_map]
  split
  · next h => rw [List.getElem?_range h, Option.map_some]
  · next h => rw [List.getElem?_eq_none (by simpa using h), Option.map_none]

/-- A byte of the file, or the hole past its end. -/
theorem getD_bytes : (bytes f)[p]?.getD 0 = f.byte p := by
  rw [getElem?_bytes]
  split
  · rfl
  · next h => exact (f.beyond p (Nat.not_lt.1 h)).symm

theorem read_bytes : f.read off n = ((bytes f).drop off).take n := by
  refine List.ext_getElem? fun k => ?_
  rw [List.getElem?_take, List.getElem?_drop, getElem?_bytes, File.read, List.getElem?_map]
  by_cases hk : k < min n (f.size - off)
  · rw [List.getElem?_range hk, if_pos (by omega), if_pos (by omega), Option.map_some]
  · rw [List.getElem?_eq_none (List.length_range ▸ Nat.not_lt.1 hk), Option.map_none]
    split
    · rw [if_neg (by omega)]
    · rfl

theorem bytes_truncate : bytes (f.truncate n) = (bytes f).takeD n 0 := by
  refine List.ext_getElem? fun p => ?_
  rw [getElem?_takeD, getElem?_bytes, getD_bytes, File.truncate_size]
  split
  · next h => exact congrArg some (if_pos h)
  · rfl

theorem bytes_write : bytes (f.write data off) = overwrite 0 (bytes f) data off := by
  obtain rfl | hne := eq_or_ne data []
  · simp [overwrite, File.write]
  have hsize : (f.write data off).size = max f.size (off + data.length) := if_neg hne
  have hpos := List.length_pos_iff.2 hne
  refine List.ext_getElem? fun p => ?_
  rw [overwrite, if_neg (by simpa using hne), List.append_assoc, List.getElem?_append,
    List.getElem?_append, getElem?_takeD, getD_bytes, List.takeD_length, List.getElem?_drop,
    getElem?_bytes, getElem?_bytes, hsize]
  obtain hp | hp := Nat.lt_or_ge p off
  · have hin : p < max f.size (off + data.length) := by omega
    rw [if_pos hin, if_pos hp, if_pos hp, File.write_byte_of_not (by omega)]
  · obtain hdata | hdata := Nat.lt_or_ge (p - off) data.length
    · have hin : p < max f.size (off + data.length) := by omega
      have hb := List.getElem?_eq_getElem hdata
      rw [if_pos hin, if_neg (Nat.not_lt.2 hp), if_pos hdata, (File.write_byte_of_some hp hb).1, hb]
    · have hsame : p < max f.size (off + data.length) ↔ p < f.size := by omega
      rw [if_neg (Nat.not_lt.2 hp), if_neg (Nat.not_lt.2 hdata), File.write_byte_of_not (by omega),
        show off + data.length + (p - off - data.length) = p by omega]
      exact if_congr hsame rfl rfl

/-- A file is the list of its bytes, with zero as the hole. -/
def Hom.bytes : posix.Hom (plain 0) id where
  toFun := Medium.bytes
  empty := rfl
  size _ := length_bytes
  read _ _ _ := by
    rw [List.map_id]
    exact read_bytes.symm
  write _ data _ := by
    rw [List.map_id]
    exact bytes_write
  truncate _ _ := bytes_truncate

/-! ## Gaps -/

variable {α : Type u} {hole hole' : α} {l bs : List α} {off n : Nat}

/-- Nothing shows of the hole when no gap is filled. -/
theorem overwrite_of_le (h : bs = [] ∨ off ≤ l.length) :
    overwrite hole l bs off = overwrite hole' l bs off := by
  rcases h with rfl | h
  · rfl
  · rw [overwrite, overwrite, List.takeD_eq_take _ h, List.takeD_eq_take _ h]

theorem takeD_of_le (h : n ≤ l.length) : l.takeD n hole = l.takeD n hole' := by
  rw [List.takeD_eq_take _ h, List.takeD_eq_take _ h]

end Medium
