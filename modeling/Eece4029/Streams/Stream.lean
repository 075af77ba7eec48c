import Mathlib.Algebra.Ring.Nat
import Mathlib.Logic.Function.Basic
import Mathlib.Data.Fin.Basic
import Mathlib.Data.Fintype.Fin

/-!
# A stream and the critical sections of `get` and `put`

`hw3_pthreads/streams.c` implements a stream as a ring of `BUFFER_SIZE` slots. For every slot it
counts how many consumers have read the value in it, but not which ones; `put_idx` is the slot of
the next put, and every connected consumer has a `producer_t` with its own index `buffer_idx` into
the ring. A semaphore `empty` counts the slots that are free.

Here are the data and what `get` and `put` do to them between two calls of `pthread_cond_wait`, that
is while they hold the lock; the threads that run them follow in `Streams.Threads`. The buffer holds
pointers, which nothing here looks at: a value of a type `α` stands for one, and `init_stream`
leaves the buffer as it is.
-/

namespace Eece4029

/-- `BUFFER_SIZE`. -/
abbrev bufferSize : Nat := 5

instance neZeroBufferSize : NeZero bufferSize := ⟨Nat.succ_ne_zero 4⟩

/-- For systems of three streams, or of three consumers. -/
instance neZeroThree : NeZero 3 := ⟨Nat.succ_ne_zero 2⟩

/-- An index into the buffer; adding wraps around, as `% BUFFER_SIZE` does. -/
abbrev Slot := Fin bufferSize

/-- `struct stream_t`, with the value of the semaphore `empty`. -/
structure Stream (α : Type) where
  empty : Nat
  buffer : Slot → α
  bufferReadCount : Slot → Nat
  putIdx : Slot
  numConsumers : Nat

variable {α : Type}

/-- `init_stream`, on a buffer with whatever it contains. -/
def initStream (buffer : Slot → α) : Stream α where
  empty := bufferSize
  buffer := buffer
  bufferReadCount := fun _ => 9999
  putIdx := 0
  numConsumers := 0

/-- `stream_connect` to the producer `out`: the `buffer_idx` of the new connection and the
producer. -/
def streamConnect (out : Stream α) : Slot × Stream α :=
  (out.putIdx, { out with numConsumers := out.numConsumers + 1 })

/-- A new stream after `n` calls of `stream_connect`. -/
def connected (buffer : Slot → α) : Nat → Stream α
  | 0 => initStream buffer
  | n + 1 => (streamConnect (connected buffer n)).2

theorem connected_eq (buffer : Slot → α) : ∀ n : Nat,
    connected buffer n = { initStream buffer with numConsumers := n }
  | 0 => rfl
  | n + 1 => by rw [connected, connected_eq buffer n]; rfl

namespace Stream

/-! ## The conditions of the waiting loops -/

/-- `put` waits: not all consumers have seen the value at `put_idx`. -/
def PutWaits (s : Stream α) : Prop := s.bufferReadCount s.putIdx < s.numConsumers

/-- The first loop of `get` waits: the next slot is the one `put` writes to. -/
def GetAhead (s : Stream α) (bufferIdx : Slot) : Prop := bufferIdx + 1 = s.putIdx

/-- The second loop of `get` waits: there is nothing new in the slot. -/
def NothingNew (s : Stream α) (bufferIdx : Slot) : Prop :=
  s.numConsumers ≤ s.bufferReadCount bufferIdx

instance (s : Stream α) : Decidable s.PutWaits := inferInstanceAs (Decidable (_ < _))

instance (s : Stream α) (b : Slot) : Decidable (s.GetAhead b) := inferInstanceAs (Decidable (_ = _))

instance (s : Stream α) (b : Slot) : Decidable (s.NothingNew b) :=
  inferInstanceAs (Decidable (_ ≤ _))

/-! ## The sections after the loops -/

/-- `put` after its loop: store the value, reset the count of its readers, go to the next slot. -/
def put (s : Stream α) (value : α) : Stream α :=
  { s with
    buffer := Function.update s.buffer s.putIdx value
    bufferReadCount := Function.update s.bufferReadCount s.putIdx 0
    putIdx := s.putIdx + 1 }

/-- `get` after its loops: the value, the stream with one more reader of the slot, and the next
`buffer_idx`. The last reader of the slot posts to `empty`. -/
def get (s : Stream α) (bufferIdx : Slot) : α × Stream α × Slot :=
  let count := s.bufferReadCount bufferIdx + 1
  (s.buffer bufferIdx,
    { s with
      bufferReadCount := Function.update s.bufferReadCount bufferIdx count
      empty := if count = s.numConsumers then s.empty + 1 else s.empty },
    bufferIdx + 1)

end Stream

end Eece4029
