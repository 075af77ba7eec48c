import Eece4029.Streams.Semaphore

/-!
# Values that `get` withholds

The first loop of `get` is to wait for a consumer that is "ahead where the producer is writing". It
compares `put_idx` with the slot after the consumer's own, so it waits for a consumer that has all
values but one, and not for one that has them all: the last value put is withheld until the next
put. The second loop goes by `buffer_read_count`, which is right about a consumer that is behind as
long as no consumer has got more values than were put. `get_withheld_iff` says exactly when a call
of `get` passes both loops.
-/

namespace Eece4029

open Transition

variable {α π γ : Type} {n : Nat}

namespace Shared

/-- A call of `get` through the connection passes both of its loops. -/
def Passes (s : Shared α n) (c : Fin n) : Prop :=
  ¬ s.stream.GetAhead (s.bufferIdx c) ∧ ¬ s.stream.NothingNew (s.bufferIdx c)

instance (s : Shared α n) (c : Fin n) : Decidable (s.Passes c) :=
  inferInstanceAs (Decidable (_ ∧ _))

/-- The number of values put that the consumer has not got. -/
def behind (s : Shared α n) (c : Fin n) : Nat := s.puts.length - s.reads c

/-- The gets from the slot of the connection's next value are short of `n` for each put to it; where
there are more than `9999` connections, of `n - 9999` more. -/
def SlotOwed (s : Shared α n) (c : Fin n) : Prop :=
  Ring.total bufferSize (s.reads c % bufferSize) s.reads <
    n - 9999 + n * Ring.visits bufferSize (s.reads c % bufferSize) s.puts.length

end Shared

namespace SharedInv

variable {s : Shared α n} {c : Fin n}

/-- The first loop of `get` waits exactly when one value is left, up to whole rounds. -/
theorem getAhead_iff (h : SharedInv s) (hc : s.reads c < s.puts.length) :
    s.stream.GetAhead (s.bufferIdx c) ↔ s.behind c % bufferSize = 1 := by
  have hput := h.putIdx
  have hidx := h.bufferIdx c
  unfold Stream.GetAhead Shared.behind
  rw [← Fin.val_inj, slot_succ, hput, hidx]
  simp only [bufferSize]
  omega

/-- The second loop of `get` waits exactly when nothing is owed to the slot. -/
theorem nothingNew_iff (h : SharedInv s) (c : Fin n) :
    s.stream.NothingNew (s.bufferIdx c) ↔ ¬ s.SlotOwed c := by
  rw [← not_iff_not, h.new_iff, h.lt_iff, h.bufferIdx, not_not]
  rfl

/-- While no consumer has got more values than were put, something is owed to the next slot of one
that is behind: its own read. -/
theorem slotOwed (hall : ∀ d, s.reads d ≤ s.puts.length) (hc : s.reads c < s.puts.length) :
    s.SlotOwed c := by
  have hlt := Ring.total_lt_of_lt (m := bufferSize) hall hc
  rw [Fintype.card_fin] at hlt
  unfold Shared.SlotOwed
  omega

end SharedInv

variable [Fintype π] [DecidableEq π] [DecidableEq γ] {m : Machine α π γ n} {conn : γ → Fin n}
  {buffer : Slot → α} {tr : List (Step (Machine α π γ n) (Label α π γ))}

/-- **Exactly when `get` serves a consumer that is behind.** In every reachable state it passes both
loops if and only if the number of values it has not got is not one more than a multiple of
`BUFFER_SIZE`, and something is owed to its slot; the latter holds while no consumer has got more
values than were put. -/
theorem get_withheld_iff (h : StreamRun conn buffer tr m) (c : Fin n)
    (hc : m.shared.reads c < m.shared.puts.length) :
    (m.shared.Passes c ↔ m.shared.behind c % bufferSize ≠ 1 ∧ m.shared.SlotOwed c) ∧
    ((∀ d, m.shared.reads d ≤ m.shared.puts.length) →
      (m.shared.Passes c ↔ m.shared.behind c % bufferSize ≠ 1)) := by
  have hinv : SharedInv m.shared := (MachineInv.of_run (Nat.zero_lt_of_lt c.isLt) h).shared
  have hpass : m.shared.Passes c ↔ m.shared.behind c % bufferSize ≠ 1 ∧ m.shared.SlotOwed c := by
    rw [Shared.Passes, hinv.getAhead_iff hc, hinv.nothingNew_iff, not_not]
  exact ⟨hpass, fun hall => hpass.trans (and_iff_left (SharedInv.slotOwed hall hc))⟩

/-- One consumer and one put. -/
def onePut : List (Label Nat Unit (Fin 1)) := [.semWait () 7, .put () 7 none]

/-- The state they lead to. -/
def onePutEnd : Machine Nat Unit (Fin 1) 1 :=
  onePut.foldl (Machine.next id) (Machine.init fun _ => 0)

theorem onePut_run : ∃ tr, StreamRun id (fun _ => 0) tr onePutEnd ∧ tr.map (·.label) = onePut :=
  StreamRun.of_labels (n := 1) id (fun _ => 0) onePut (by decide)

/-- The value is there, and the consumer waits for the next one. -/
theorem onePut_withheld : ¬ ∀ tr m,
    StreamRun (id : Fin 1 → Fin 1) (fun _ => 0) tr (m : Machine Nat Unit (Fin 1) 1) →
      ∀ c, m.shared.reads c < m.shared.puts.length → m.shared.Passes c := by
  intro hall
  obtain ⟨tr, hr, -⟩ := onePut_run
  exact absurd (hall tr onePutEnd hr 0 (by decide)) (by decide)

/-- It is the one value that the consumer is behind. -/
theorem get_withheld_iff_onePut : ¬ onePutEnd.shared.Passes 0 := by
  obtain ⟨tr, hr, -⟩ := onePut_run
  have hone : onePutEnd.shared.behind 0 % bufferSize = 1 := by decide
  exact fun hpass => ((get_withheld_iff hr 0 (by decide)).1.1 hpass).1 hone

end Eece4029
