import Mathlib.Data.List.Basic
import Mathlib.Data.List.Range
import Mathlib.Tactic.Common

/-!
# Accesses to memory

The memory from some place on is a byte at each offset; a buffer of `n` bytes there is the offsets
below `n`, and what lies behind it is memory, too. An `Access` is a computation that reads and
writes it, and it records the offsets it touches in the order of the accesses. A program that stays
in its buffer is then one with `Inside`, which is settled access by access (`inside_bind`), and in a
buffer whose contents are known (`Holds`) such a program computes what it would on a list of bytes.
-/

namespace Memory

/-- The memory from some place on. -/
abbrev Mem := Nat → UInt8

/-- The bytes stand in memory from `p` on. -/
def Holds (mem : Mem) (p : Nat) (bytes : List UInt8) : Prop :=
  ∀ i b, bytes[i]? = some b → mem (p + i) = b

/-- What a computation does: its value, the memory after it and the offsets it has touched. -/
structure Outcome (α : Type) where
  value : α
  mem : Mem
  accessed : List Nat

/-- A computation on the memory. -/
def Access (α : Type) : Type := Mem → Outcome α

variable {α β : Type} {mem : Mem} {x : Access α} {f : α → Access β} {off n i k : Nat} {b : UInt8}
  {bytes : List UInt8}

namespace Access

instance : Monad Access where
  pure a := fun mem => ⟨a, mem, []⟩
  bind x f := fun mem =>
    let a := x mem
    let b := f a.value a.mem
    ⟨b.value, b.mem, a.accessed ++ b.accessed⟩

/-- Read a byte. -/
def readAt (off : Nat) : Access UInt8 := fun mem => ⟨mem off, mem, [off]⟩

/-- Write a byte. -/
def writeAt (off : Nat) (b : UInt8) : Access Unit := fun mem =>
  ⟨(), fun p => if p = off then b else mem p, [off]⟩

/-- Read `n` bytes. -/
def readRange (off n : Nat) : Access (List UInt8) := fun mem =>
  ⟨(List.range' off n).map mem, mem, List.range' off n⟩

/-- Replace a byte by its image. -/
def modifyAt (off : Nat) (g : UInt8 → UInt8) : Access Unit := do
  let b ← readAt off
  writeAt off (g b)

/-! ## Staying in a buffer -/

/-- From the given memory the computation touches only offsets below `n`. -/
def Inside (n : Nat) (x : Access α) (mem : Mem) : Prop := ∀ p ∈ (x mem).accessed, p < n

/-- Two computations stay inside exactly when each of them does, from where it starts. -/
@[simp] theorem inside_bind :
    Inside n (x >>= f) mem ↔ Inside n x mem ∧ Inside n (f (x mem).value) (x mem).mem :=
  List.forall_mem_append

@[simp] theorem inside_pure {a : α} : Inside n (pure a : Access α) mem :=
  fun _ h => nomatch h

@[simp] theorem inside_readAt : Inside n (readAt off) mem ↔ off < n :=
  List.forall_mem_singleton

@[simp] theorem inside_writeAt : Inside n (writeAt off b) mem ↔ off < n :=
  List.forall_mem_singleton

@[simp] theorem inside_modifyAt {g : UInt8 → UInt8} : Inside n (modifyAt off g) mem ↔ off < n := by
  simp [modifyAt]

@[simp] theorem inside_readRange : Inside n (readRange off k) mem ↔ k = 0 ∨ off + k ≤ n := by
  refine ⟨fun h => ?_, fun h p hp => ?_⟩
  · by_contra hno
    obtain ⟨hk, hn⟩ := not_or.1 hno
    have hlast := h (off + k - 1) (List.mem_range'_1.2 ⟨by omega, by omega⟩)
    omega
  · obtain ⟨hle, hlt⟩ := List.mem_range'_1.1 hp
    omega

/-! ## Values and memories -/

@[simp] theorem value_bind : ((x >>= f) mem).value = (f (x mem).value (x mem).mem).value := rfl

@[simp] theorem mem_bind : ((x >>= f) mem).mem = (f (x mem).value (x mem).mem).mem := rfl

@[simp] theorem value_pure {a : α} : ((pure a : Access α) mem).value = a := rfl

@[simp] theorem value_readAt : (readAt off mem).value = mem off := rfl

@[simp] theorem mem_readAt : (readAt off mem).mem = mem := rfl

@[simp] theorem mem_readRange : (readRange off k mem).mem = mem := rfl

theorem mem_writeAt : (writeAt off b mem).mem i = if i = off then b else mem i := rfl

theorem mem_modifyAt {g : UInt8 → UInt8} :
    (modifyAt off g mem).mem i = if i = off then g (mem off) else mem i := rfl

end Access

/-! ## Known contents -/

namespace Holds

open Access

/-- A read returns the byte that stands there. -/
theorem get (h : Holds mem 0 bytes) (hi : i < bytes.length) : mem i = bytes[i] := by
  have := h i bytes[i] (List.getElem?_eq_getElem hi)
  rwa [Nat.zero_add] at this

theorem writeAt (h : Holds mem 0 bytes) : Holds (writeAt off b mem).mem 0 (bytes.set off b) := by
  intro i c hc
  rw [Nat.zero_add, mem_writeAt]
  split
  · next heq =>
    subst heq
    have hlt := (List.getElem?_eq_some_iff.1 hc).1
    rw [List.length_set] at hlt
    rw [List.getElem?_set_self hlt] at hc
    exact Option.some.inj hc
  · next hne =>
    rw [List.getElem?_set_ne (Ne.symm hne)] at hc
    have := h i c hc
    rwa [Nat.zero_add] at this

theorem modifyAt {g : UInt8 → UInt8} (h : Holds mem 0 bytes) :
    Holds (modifyAt off g mem).mem 0 (bytes.modify off g) := by
  intro i c hc
  rw [List.getElem?_modify] at hc
  obtain ⟨d, hd, rfl⟩ := Option.map_eq_some_iff.1 hc
  have hmem := h i d hd
  rw [Nat.zero_add] at hmem
  rw [Nat.zero_add, mem_modifyAt]
  split
  · next heq =>
    subst heq
    rw [if_pos rfl, hmem]
  · next hne => rw [if_neg (Ne.symm hne), hmem]

theorem readRange (h : Holds mem 0 bytes) (hk : off + k ≤ bytes.length) :
    (readRange off k mem).value = (bytes.drop off).take k := by
  have hlen : ((bytes.drop off).take k).length = k := by
    rw [List.length_take, List.length_drop]
    omega
  refine List.ext_getElem (by simp [Access.readRange, hlen]) fun i hi _ => ?_
  have hlt : i < k := by simpa [Access.readRange] using hi
  simp [Access.readRange, h.get (i := off + i) (by omega)]

end Holds

end Memory
