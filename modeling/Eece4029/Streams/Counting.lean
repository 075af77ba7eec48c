import Eece4029.Lib.Ring
import Eece4029.Streams.Threads

/-!
# What the counts of a stream say

A stream counts the readers of a slot without saying which consumers they are, and its semaphore
counts free slots without saying which slots they are. Both still mean what `put` takes them for,
because every consumer walks around the ring in order: the reads of a slot are the visits of all
those walks to it (`Ring.total`), its writes are the visits of the walk of `put`, and `SlotCount`
ties `buffer_read_count` to the two. It follows that when the slot at `put_idx` is not free no slot
is (`SharedInv.order`), and that the consumers never all stand right behind `put` while every slot
has unread values (`SharedInv.not_all_ahead`).

The counts start at `9999`, so a stream with more consumers than that starts with every slot short
of `n - 9999` reads. The invariants hold for any number of consumers and carry that number along.
-/

namespace Eece4029

open Transition

/-! ## The count of one slot -/

/-- The count `rc` of a slot with `W` writes and `T` reads: before the first write it goes up from
`9999`, and a write resets it when it has reached `n`. -/
inductive SlotCount (n rc W T : Nat) : Prop
  | fresh (hW : W = 0) (hrc : rc = 9999 + T) (hT : T ≤ n - 9999)
  | written (q : Nat) (hW : W = q + 1) (hrc : rc + (n - 9999) + n * q = T) (hle : rc ≤ n)

namespace SlotCount

variable {n rc W T : Nat}

/-- The reads never exceed those that the writes allow. -/
theorem le (h : SlotCount n rc W T) : T ≤ n - 9999 + n * W := by
  cases h with
  | fresh hW _ hT => omega
  | written q hW hrc hle =>
    rw [hW, Nat.mul_succ]
    omega

/-- The count has reached `n` when they are all made. -/
theorem full_iff (h : SlotCount n rc W T) : n ≤ rc ↔ T = n - 9999 + n * W := by
  cases h with
  | fresh hW hrc hT =>
    rw [hW, Nat.mul_zero]
    omega
  | written q hW hrc hle =>
    rw [hW, Nat.mul_succ]
    omega

/-- A write of a slot that all have read. -/
theorem put (h : SlotCount n rc W T) (hfull : n ≤ rc) : SlotCount n 0 (W + 1) T :=
  .written W rfl (by rw [h.full_iff.1 hfull]; omega) (Nat.zero_le n)

/-- A read of a slot that not all have read. -/
theorem get (h : SlotCount n rc W T) (hfull : rc < n) : SlotCount n (rc + 1) W (T + 1) := by
  cases h with
  | fresh hW hrc hT => exact .fresh hW (by omega) (by omega)
  | written q hW hrc hle => exact .written q hW (by omega) (by omega)

end SlotCount

/-! ## The invariant of the shared state -/

variable {α π γ : Type} {n : Nat}

namespace Shared

/-- The number of values got through each connection. -/
def reads (s : Shared α n) (c : Fin n) : Nat := (s.gets c).length

/-- The slots with a value that not all consumers have read. -/
def unread (s : Shared α n) : Finset Slot :=
  Finset.univ.filter fun i => s.stream.bufferReadCount i < s.stream.numConsumers

@[simp] theorem put_reads (s : Shared α n) (v : α) : (s.put v).reads = s.reads := rfl

theorem get_reads (s : Shared α n) (c : Fin n) : (s.get c).reads c = s.reads c + 1 := by
  simp [reads, get, Stream.get]

theorem get_reads_of_ne (s : Shared α n) {c d : Fin n} (h : d ≠ c) :
    (s.get c).reads d = s.reads d := by
  simp [reads, get, Stream.get, Function.update_of_ne h]

end Shared

/-- The indices are where the walks are, and the counts are those of their visits. -/
structure SharedInv (s : Shared α n) : Prop where
  num : s.stream.numConsumers = n
  putIdx : (s.stream.putIdx : Nat) = s.puts.length % bufferSize
  bufferIdx : ∀ c, (s.bufferIdx c : Nat) = s.reads c % bufferSize
  count : ∀ i : Slot, SlotCount n (s.stream.bufferReadCount i)
    (Ring.visits bufferSize i s.puts.length) (Ring.total bufferSize i s.reads)

namespace SharedInv

variable {s : Shared α n}

/-- It holds when all connections are made. -/
theorem init (buffer : Slot → α) (n : Nat) : SharedInv (Shared.init buffer n) := by
  have hT : ∀ i, Ring.total bufferSize i (fun _ : Fin n => 0) = 0 := fun i => Ring.total_zero
  rw [Shared.init_eq]
  exact ⟨rfl, rfl, fun c => rfl, fun i =>
    .fresh rfl (congrArg (9999 + ·) (hT i)).symm ((hT i).trans_le (Nat.zero_le _))⟩

/-- `put` waits while the count of its slot is short of the number of connections. -/
theorem putWaits_iff (h : SharedInv s) :
    s.stream.PutWaits ↔ s.stream.bufferReadCount s.stream.putIdx < n := by
  rw [Stream.PutWaits, h.num]

/-- `put` does not wait when all connections have read its slot. -/
theorem free_iff (h : SharedInv s) :
    ¬ s.stream.PutWaits ↔ n ≤ s.stream.bufferReadCount s.stream.putIdx := by
  rw [h.putWaits_iff, Nat.not_lt]

/-- The second loop of `get` does not wait when not all connections have read its slot. -/
theorem new_iff (h : SharedInv s) (b : Slot) :
    ¬ s.stream.NothingNew b ↔ s.stream.bufferReadCount b < n := by
  rw [Stream.NothingNew, h.num, Nat.not_le]

/-- The next slot, as a number. -/
theorem slot_succ (i : Slot) : ((i + 1 : Slot) : Nat) = (i + 1) % bufferSize := by
  rw [Fin.val_add]
  rfl

/-- The slot before the slot `j + 1`. -/
theorem slot_of_succ {i : Slot} {j : Nat} (h : ((i + 1 : Slot) : Nat) = j + 1) : (i : Nat) = j := by
  have hi := i.isLt
  rw [slot_succ] at h
  simp only [bufferSize] at h hi
  omega

/-- The slot before the slot `0`. -/
theorem slot_of_succ_zero {i : Slot} (h : ((i + 1 : Slot) : Nat) = 0) : (i : Nat) = 4 := by
  have hi := i.isLt
  rw [slot_succ] at h
  simp only [bufferSize] at h hi
  omega

/-- `sem_wait` keeps the invariant. -/
theorem semWait (h : SharedInv s) : SharedInv s.semWait :=
  ⟨h.num, h.putIdx, h.bufferIdx, h.count⟩

/-- A put keeps the invariant. -/
theorem put (h : SharedInv s) (hw : ¬ s.stream.PutWaits) (v : α) : SharedInv (s.put v) := by
  have hfull := h.free_iff.1 hw
  have hlen : (s.put v).puts.length = s.puts.length + 1 := by simp [Shared.put]
  refine ⟨h.num, ?_, h.bufferIdx, ?_⟩
  · rw [hlen, show (s.put v).stream.putIdx = s.stream.putIdx + 1 from rfl, slot_succ, h.putIdx,
      Nat.mod_add_mod]
  · intro i
    rw [hlen, Ring.visits_succ, Shared.put_reads]
    by_cases hi : i = s.stream.putIdx
    · subst hi
      rw [if_pos h.putIdx.symm]
      have hrc : (s.put v).stream.bufferReadCount s.stream.putIdx = 0 := Function.update_self ..
      rw [hrc]
      exact (h.count _).put hfull
    · have hrc : (s.put v).stream.bufferReadCount i = s.stream.bufferReadCount i :=
        Function.update_of_ne hi _ _
      rw [if_neg fun hmod => hi (Fin.ext (hmod.symm.trans h.putIdx.symm)), hrc]
      exact h.count i

/-- A get keeps the invariant. -/
theorem get (h : SharedInv s) {c : Fin n} (hn : ¬ s.stream.NothingNew (s.bufferIdx c)) :
    SharedInv (s.get c) := by
  have hlt := (h.new_iff _).1 hn
  refine ⟨h.num, h.putIdx, ?_, ?_⟩
  · intro d
    by_cases hd : d = c
    · subst hd
      have hb : (s.get d).bufferIdx d = s.bufferIdx d + 1 := Function.update_self ..
      rw [hb, slot_succ, h.bufferIdx, s.get_reads, Nat.mod_add_mod]
    · have hb : (s.get c).bufferIdx d = s.bufferIdx d := Function.update_of_ne hd _ _
      rw [hb, h.bufferIdx, s.get_reads_of_ne hd]
  · intro i
    rw [Ring.total_succ (s.get_reads c) fun d hd => s.get_reads_of_ne hd,
      show (s.get c).puts = s.puts from rfl]
    by_cases hi : i = s.bufferIdx c
    · subst hi
      have hrc : (s.get c).stream.bufferReadCount (s.bufferIdx c) =
          s.stream.bufferReadCount (s.bufferIdx c) + 1 := Function.update_self ..
      rw [if_pos (h.bufferIdx c).symm, hrc]
      exact (h.count _).get hlt
    · have hrc : (s.get c).stream.bufferReadCount i = s.stream.bufferReadCount i :=
        Function.update_of_ne hi _ _
      rw [if_neg fun hmod => hi (Fin.ext (hmod.symm.trans (h.bufferIdx c).symm)), hrc]
      exact h.count i

/-! ## What it says about the slots -/

/-- A slot that has been written has at most as many readers as there are consumers. -/
theorem count_le (h : SharedInv s) {i : Slot} (hi : (i : Nat) < s.puts.length) :
    s.stream.bufferReadCount i ≤ n := by
  cases h.count i with
  | fresh hW =>
    have := (Ring.visits_pos i.isLt).2 hi
    omega
  | written _ _ _ hle => exact hle

/-- A slot that not all consumers have read, by its visits. -/
theorem lt_iff (h : SharedInv s) (i : Slot) : s.stream.bufferReadCount i < n ↔
    Ring.total bufferSize i s.reads < n - 9999 + n * Ring.visits bufferSize i s.puts.length := by
  have hle := (h.count i).le
  have hfull := (h.count i).full_iff
  omega

/-- When `put` would wait, no slot is free. -/
theorem order (h : SharedInv s) (hw : s.stream.PutWaits) (i : Slot) :
    s.stream.bufferReadCount i < n := by
  have hp := (h.lt_iff s.stream.putIdx).1 (h.putWaits_iff.1 hw)
  rw [h.lt_iff, Ring.visits_eq_next i.isLt, ← h.putIdx]
  rcases Nat.lt_or_ge i s.stream.putIdx with hlt | hge
  · -- one write more, and at most one read more of each consumer
    have hle := (Ring.total_le (w := s.reads) (Nat.le_of_lt hlt) s.stream.putIdx.isLt).2
    rw [Fintype.card_fin] at hle
    rw [if_pos hlt, Nat.mul_succ]
    omega
  · have hle := (Ring.total_le (w := s.reads) hge i.isLt).1
    rw [if_neg (Nat.not_lt.2 hge), Nat.add_zero]
    omega

/-- While every slot has unread values, the consumers do not all stand right behind `put`. -/
theorem not_all_ahead (h : SharedInv s) (hall : ∀ i, s.stream.bufferReadCount i < n) :
    ¬ ∀ c, s.stream.GetAhead (s.bufferIdx c) := by
  intro hahead
  have hp := (h.lt_iff s.stream.putIdx).1 (hall _)
  rcases Nat.eq_zero_or_pos (s.stream.putIdx : Nat) with h0 | hpos
  · -- all before the last slot, so slot 0 has a read more of each of them
    have hlast : ∀ c, s.reads c % bufferSize = 4 := fun c =>
      (h.bufferIdx c).symm.trans (slot_of_succ_zero ((congrArg Fin.val (hahead c)).trans h0))
    have hT := Ring.total_last (m := bufferSize) (by decide) rfl hlast
    rw [Fintype.card_fin] at hT
    have hW := Ring.visits_eq_next (m := bufferSize) (i := 4) (k := s.puts.length) (by decide)
    rw [← h.putIdx, h0, if_neg (by decide), Nat.add_zero] at hW
    rw [h0] at hp
    cases h.count 4 with
    | fresh hW4 =>
      rw [show ((4 : Slot) : Nat) = 4 from rfl, hW] at hW4
      rw [hW4] at hp
      omega
    | written q hW4 hrc =>
      rw [show ((4 : Slot) : Nat) = 4 from rfl, hW] at hW4
      rw [hW4, Nat.mul_succ] at hp
      rw [show ((4 : Slot) : Nat) = 4 from rfl] at hrc
      omega
  · -- all before the slot that was written last, so it has the reads of the next one
    obtain ⟨j, hj⟩ : ∃ j, (s.stream.putIdx : Nat) = j + 1 :=
      ⟨_, (Nat.succ_pred_eq_of_pos hpos).symm⟩
    have hjm : j + 1 < bufferSize := hj ▸ s.stream.putIdx.isLt
    have hlast : ∀ c, s.reads c % bufferSize = j := fun c =>
      (h.bufferIdx c).symm.trans (slot_of_succ ((congrArg Fin.val (hahead c)).trans hj))
    have hT := Ring.total_next hjm hlast
    have hW := Ring.visits_eq_next (k := s.puts.length) (Nat.lt_of_succ_lt hjm)
    rw [← h.putIdx, hj, if_pos (Nat.lt_succ_self j)] at hW
    rw [hj] at hp
    cases h.count ⟨j, Nat.lt_of_succ_lt hjm⟩ with
    | fresh hWj =>
      dsimp only at hWj
      omega
    | written q hWj hrc =>
      dsimp only at hWj hrc
      have hq : Ring.visits bufferSize (j + 1) s.puts.length = q := by omega
      rw [hq] at hp
      omega

end SharedInv

end Eece4029
