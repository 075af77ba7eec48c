import Eece4029.Streams.Connections
import Mathlib.Data.Finset.Card

/-!
# What disconnecting does to the account of reads

A stream knows how many consumers have read a slot, and not which. `stream_disconnect` has to take
the leaver out of the counts of the slots that it has read, and of those alone, and to give back to
`empty` the slots that nobody but the leaver still had to read. It takes one reader off every count
that is not zero and leaves `empty` alone. An `Account` says who has read what; a stream is `Exact`
about it when its counts and its semaphore mean what `get` and `put` take them for.
`disconnect_exact_iff` says exactly when a disconnect keeps it so.
-/

namespace Eece4029

variable {ι α κ : Type} [DecidableEq κ]

/-! ## Who has read what -/

/-- The consumers that are connected to a stream, the slots that hold a put value, the consumers
that have read the value in a slot, and the number of threads that `empty` has admitted to `put`. -/
structure Account (κ : Type) where
  connected : Finset κ
  holds : Finset Slot
  readers : Slot → Finset κ
  inFlight : Nat

namespace Account

/-- The slots that not all connected consumers have read. -/
def owed (a : Account κ) : Finset Slot :=
  a.holds.filter fun i => ∃ d ∈ a.connected, d ∉ a.readers i

/-- The account after the consumer has left. -/
def disconnect (a : Account κ) (c : κ) : Account κ := { a with connected := a.connected.erase c }

/-- The leaver has read the slot, or the others are all still to read it and there are others. -/
def LeavesClean (a : Account κ) (c : κ) (i : Slot) : Prop :=
  c ∈ a.readers i ∨ (∀ d ∈ a.connected, d ∉ a.readers i) ∧ a.connected ≠ {c}

end Account

/-- The stream counts the connected consumers, and the readers among them of every slot that holds a
value; what `empty` has, what it has admitted and the slots that not all have read make up the
buffer. -/
structure Exact (s : Stream α) (a : Account κ) : Prop where
  num : s.numConsumers = a.connected.card
  count : ∀ i ∈ a.holds, s.bufferReadCount i = (a.connected ∩ a.readers i).card
  account : s.empty + a.inFlight + a.owed.card = bufferSize

/-- The tests of `put` and `get` on a slot that holds a value are about the connected consumers: its
count is short exactly when one of them has not read it. -/
def TestsExact (s : Stream α) (a : Account κ) : Prop :=
  ∀ i ∈ a.holds, (s.bufferReadCount i < s.numConsumers ↔ ∃ d ∈ a.connected, d ∉ a.readers i)

variable {s : Stream α} {a : Account κ} {c : κ} {i : Slot}

/-- Exact counts make the tests exact. -/
theorem Exact.tests (h : Exact s a) : TestsExact s a := by
  intro i hi
  rw [h.num, h.count i hi]
  refine ⟨?_, ?_⟩
  · intro hlt
    by_contra hno
    have hsub : a.connected ⊆ a.readers i := fun d hd => not_not.1 fun hd' => hno ⟨d, hd, hd'⟩
    rw [Finset.inter_eq_left.2 hsub] at hlt
    exact Nat.lt_irrefl _ hlt
  · rintro ⟨d, hd, hd'⟩
    refine Finset.card_lt_card ⟨Finset.inter_subset_left, fun hsub => ?_⟩
    exact hd' (Finset.mem_inter.1 (hsub hd)).2

/-! ## The leaver -/

/-- The readers among the remaining consumers. -/
theorem card_readers_erase (hc : c ∈ a.connected) :
    ((a.connected ∩ a.readers i).card - 1 = (a.connected.erase c ∩ a.readers i).card) ↔
      c ∈ a.readers i ∨ ∀ d ∈ a.connected, d ∉ a.readers i := by
  rw [Finset.erase_inter]
  by_cases hread : c ∈ a.readers i
  · rw [Finset.card_erase_of_mem (Finset.mem_inter.2 ⟨hc, hread⟩)]
    exact iff_of_true rfl (.inl hread)
  · have hnone : (∀ d ∈ a.connected, d ∉ a.readers i) ↔ (a.connected ∩ a.readers i).card = 0 := by
      rw [Finset.card_eq_zero, ← Finset.disjoint_iff_inter_eq_empty, Finset.disjoint_left]
    rw [Finset.erase_eq_of_notMem fun h => hread (Finset.mem_inter.1 h).2, or_iff_right hread,
      hnone]
    omega

/-- The slots that are owed to the remaining consumers were owed before. -/
theorem Account.owed_disconnect_subset : (a.disconnect c).owed ⊆ a.owed := by
  intro i hi
  obtain ⟨hi, d, hd, hread⟩ := Finset.mem_filter.1 hi
  exact Finset.mem_filter.2 ⟨hi, d, Finset.mem_of_mem_erase hd, hread⟩

/-- None of them is settled by the disconnect when the leaver was the last to owe none. -/
theorem Account.card_owed_disconnect (hc : c ∈ a.connected) :
    (a.disconnect c).owed.card = a.owed.card ↔
      ∀ i ∈ a.holds, c ∈ a.readers i ∨ ∃ d ∈ a.connected.erase c, d ∉ a.readers i := by
  refine ⟨?_, ?_⟩
  · intro hcard i hi
    by_contra hno
    obtain ⟨hread, hlast⟩ := not_or.1 hno
    have howed : i ∈ a.owed := Finset.mem_filter.2 ⟨hi, c, hc, hread⟩
    rw [← Finset.eq_of_subset_of_card_le owed_disconnect_subset hcard.ge] at howed
    exact hlast (Finset.mem_filter.1 howed).2
  · intro hall
    refine congrArg Finset.card (Finset.Subset.antisymm owed_disconnect_subset ?_)
    intro i hi
    obtain ⟨hi, d, hd, hread⟩ := Finset.mem_filter.1 hi
    refine Finset.mem_filter.2 ⟨hi, ?_⟩
    by_cases hdc : d = c
    · exact (hall i hi).resolve_left (hdc ▸ hread)
    · exact ⟨d, Finset.mem_erase.2 ⟨hdc, hd⟩, hread⟩

/-- A leaver that has not read a slot leaves clean when it leaves others behind, and none of them
has read it either. -/
theorem Account.leavesClean_iff (hc : c ∈ a.connected) : a.LeavesClean c i ↔
    (c ∈ a.readers i ∨ ∀ d ∈ a.connected, d ∉ a.readers i) ∧
      (c ∈ a.readers i ∨ ∃ d ∈ a.connected.erase c, d ∉ a.readers i) := by
  rw [← or_and_left]
  refine or_congr_right (and_congr_right fun hnone => ?_)
  have hothers : a.connected ≠ {c} ↔ (a.connected.erase c).Nonempty := by
    rw [Finset.nonempty_iff_ne_empty, Ne, Ne, Finset.erase_eq_empty_iff, not_or]
    exact (and_iff_right (Finset.ne_empty_of_mem hc)).symm
  rw [hothers]
  refine ⟨?_, ?_⟩
  · rintro ⟨d, hd⟩
    exact ⟨d, hd, hnone d (Finset.mem_of_mem_erase hd)⟩
  · rintro ⟨d, hd, -⟩
    exact ⟨d, hd⟩

/-- The stream without the leaver is exact when it leaves every slot clean. -/
theorem Exact.loseConsumer_iff {o : LinkedStream α} (h : Exact o.toStream a)
    (hc : c ∈ a.connected) : Exact (Network.loseConsumer o).toStream (a.disconnect c) ↔
      ∀ i ∈ a.holds, a.LeavesClean c i := by
  have hnum : (Network.loseConsumer o).numConsumers = (a.disconnect c).connected.card := by
    rw [Account.disconnect, Finset.card_erase_of_mem hc, ← h.num]
    rfl
  have hcount : ∀ i ∈ a.holds, ((Network.loseConsumer o).bufferReadCount i =
      ((a.disconnect c).connected ∩ (a.disconnect c).readers i).card ↔
        c ∈ a.readers i ∨ ∀ d ∈ a.connected, d ∉ a.readers i) := by
    intro i hi
    rw [← card_readers_erase hc, ← h.count i hi, Account.disconnect]
    refine Eq.congr_left ?_
    simp only [Network.loseConsumer]
    split <;> omega
  have haccount : (Network.loseConsumer o).empty + (a.disconnect c).inFlight +
      (a.disconnect c).owed.card = bufferSize ↔
        ∀ i ∈ a.holds, c ∈ a.readers i ∨ ∃ d ∈ a.connected.erase c, d ∉ a.readers i := by
    rw [← Account.card_owed_disconnect hc, ← h.account]
    exact Nat.add_left_cancel_iff
  simp only [Account.leavesClean_iff hc]
  refine ⟨?_, ?_⟩
  · intro h' i hi
    exact ⟨(hcount i hi).1 (h'.count i hi), haccount.1 h'.account i hi⟩
  · intro hall
    exact ⟨hnum, fun i hi => (hcount i hi).2 (hall i hi).1,
      haccount.2 fun i hi => (hall i hi).2⟩

/-! ## The call -/

variable [DecidableEq ι] {net net' : Network ι α} {in_ out : ι} {fuel : Nat}

/-- A call that finds a connection to the producer takes a consumer off it. -/
theorem Network.stream_of_disconnect {x : Nat × Producer ι}
    (hfind : Network.findProducer net.heap out fuel (net.stream in_).prodHead = .ok (some x))
    (hret : net.streamDisconnect fuel in_ out = .ok net') :
    net'.stream out = Network.loseConsumer (net.stream out) := by
  unfold Network.streamDisconnect at hret
  rw [hfind] at hret
  cases hunlink : Network.unlinkProducer net.heap x.2 with
  | error e =>
    simp only [bind, Except.bind, hunlink, reduceCtorEq] at hret
  | ok heap =>
    cases hfree : heap.free (some x.1) with
    | error e => simp only [bind, Except.bind, hunlink, hfree, reduceCtorEq] at hret
    | ok heap' =>
      simp only [bind, Except.bind, hunlink, hfree] at hret
      cases hret
      rw [Network.stream_setStream, if_pos rfl]

/-- **Exactly when a disconnect keeps the account of reads.** From a stream with an exact account, a
call of `stream_disconnect` that ends the connection of `c` leaves one, and so tests that wait for
the remaining consumers alone, if and only if `c` leaves every slot with a value clean. -/
theorem disconnect_exact_iff {x : Nat × Producer ι}
    (h : Exact (net.stream out).toStream a) (hc : c ∈ a.connected)
    (hfind : Network.findProducer net.heap out fuel (net.stream in_).prodHead = .ok (some x))
    (hret : net.streamDisconnect fuel in_ out = .ok net') :
    (Exact (net'.stream out).toStream (a.disconnect c) ∧
      TestsExact (net'.stream out).toStream (a.disconnect c)) ↔
        ∀ i ∈ a.holds, a.LeavesClean c i := by
  rw [Network.stream_of_disconnect hfind hret, ← h.loseConsumer_iff hc]
  exact and_iff_left_of_imp Exact.tests

/-! ## Two consumers -/

/-- A stream with two consumers, after two puts and one get of the first consumer. -/
def halfRead : Stream Nat :=
  let s := connected (fun _ => 0) 2
  let s := ({ s with empty := s.empty - 2 }.put 7).put 8
  (s.get 0).2.1

/-- The stream `0` with its consumers, the streams `1` and `2`. -/
def halfReadNet : Network (Fin 3) Nat where
  stream i :=
    match i with
    | 0 => { halfRead with prodHead := none, prodCurr := none }
    | 1 => { initStream (fun _ => 0) with prodHead := some 0, prodCurr := some 0 }
    | 2 => { initStream (fun _ => 0) with prodHead := some 1, prodCurr := some 1 }
  heap := ((Heap.empty.malloc ⟨1, 0, none, none⟩).2.malloc ⟨0, 0, none, none⟩).2

/-- Its account: the first of two values has one reader. -/
def halfReadAccount : Account (Fin 3) where
  connected := {1, 2}
  holds := {0, 1}
  readers i := if i = 0 then {1} else ∅
  inFlight := 0

theorem halfRead_exact : Exact (halfReadNet.stream 0).toStream halfReadAccount :=
  ⟨rfl, by decide, by decide⟩

/-- When the second consumer leaves, the read of the first one is forgotten. -/
theorem disconnect_forgets : ¬ ∀ (net net' : Network (Fin 3) Nat) (a : Account (Fin 3)) fuel x,
    Exact (net.stream 0).toStream a → 2 ∈ a.connected →
      Network.findProducer net.heap 0 fuel (net.stream 2).prodHead = .ok (some x) →
        net.streamDisconnect fuel 2 0 = .ok net' →
          Exact (net'.stream 0).toStream (a.disconnect 2) := by
  intro hall
  have hexact := hall halfReadNet _ halfReadAccount 1 _ halfRead_exact (by decide) rfl rfl
  exact absurd (hexact.count 0 (by decide)) (by decide)

/-- When the first one leaves, the slot that it has read is right, and the other one was read by
nobody. -/
theorem disconnect_exact_iff_halfRead : ∃ net', halfReadNet.streamDisconnect 1 1 0 = .ok net' ∧
    Exact (net'.stream 0).toStream (halfReadAccount.disconnect 1) := by
  refine ⟨_, rfl, ?_⟩
  have hfind : Network.findProducer halfReadNet.heap 0 1 (halfReadNet.stream 1).prodHead =
      .ok (some (0, ⟨1, 0, none, none⟩)) := rfl
  refine ((disconnect_exact_iff halfRead_exact (by decide) hfind rfl).2 ?_).1
  intro i hi
  have hi' : i = 0 ∨ i = 1 := by simpa [halfReadAccount] using hi
  rcases hi' with rfl | rfl
  · exact .inl (by decide)
  · exact .inr (by decide)

end Eece4029
