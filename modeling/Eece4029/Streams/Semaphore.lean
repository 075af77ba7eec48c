import Eece4029.Streams.Counting

/-!
# The semaphore and the waits of `put` and `get`

`put` is admitted twice: by the semaphore `empty`, which the last reader of any slot posts, and by
the count of the slot at `put_idx`. The two agree (`MachineInv`): the value of the semaphore, the
threads it has admitted and the slots that are not free always add up to the same number. So a
thread that has passed `sem_wait` finds the slot at `put_idx` free and never waits in the loop of
`put` (`semaphore_accounts`), and the conditions of `put` and `get` are never false for all threads
at once (`some_thread_can_proceed`).
-/

namespace Eece4029

open Transition

variable {α π γ : Type} {n : Nat}

/-! ## The slots that are not free -/

namespace Shared

variable {s : Shared α n}

theorem mem_unread {i : Slot} :
    i ∈ s.unread ↔ s.stream.bufferReadCount i < s.stream.numConsumers := by
  simp [unread]

/-- A put into a free slot makes it unread. -/
theorem card_unread_put (h0 : 0 < s.stream.numConsumers) (hw : ¬ s.stream.PutWaits) (v : α) :
    (s.put v).unread.card = s.unread.card + 1 := by
  have hset : (s.put v).unread = insert s.stream.putIdx s.unread := by
    ext i
    rw [Finset.mem_insert, mem_unread, mem_unread]
    by_cases hi : i = s.stream.putIdx
    · subst hi
      simp [put, Stream.put, h0]
    · simp [put, Stream.put, hi]
  rw [hset]
  exact Finset.card_insert_of_notMem fun hmem => hw (mem_unread.1 hmem)

/-- A get makes the slot free exactly when it posts to the semaphore. -/
theorem account_get {c : Fin n} (hn : ¬ s.stream.NothingNew (s.bufferIdx c)) :
    (s.get c).stream.empty + (s.get c).unread.card = s.stream.empty + s.unread.card := by
  have hmem : s.bufferIdx c ∈ s.unread := mem_unread.2 (Nat.not_le.1 hn)
  have hother : ∀ i, i ≠ s.bufferIdx c → (i ∈ (s.get c).unread ↔ i ∈ s.unread) := fun i hi => by
    rw [mem_unread, mem_unread]
    simp [get, Stream.get, Function.update_of_ne hi]
  by_cases hlast : s.stream.bufferReadCount (s.bufferIdx c) + 1 = s.stream.numConsumers
  · have hset : (s.get c).unread = s.unread.erase (s.bufferIdx c) := by
      ext i
      rw [Finset.mem_erase]
      by_cases hi : i = s.bufferIdx c
      · subst hi
        rw [mem_unread]
        simp [get, Stream.get, hlast]
      · rw [hother i hi]
        simp [hi]
    have hempty : (s.get c).stream.empty = s.stream.empty + 1 := if_pos hlast
    have hcard := Finset.card_erase_add_one hmem
    rw [hset, hempty]
    omega
  · have hset : (s.get c).unread = s.unread := by
      ext i
      by_cases hi : i = s.bufferIdx c
      · subst hi
        have hlt := mem_unread.1 hmem
        rw [iff_true_right hmem, mem_unread]
        simp only [get, Stream.get, Function.update_self]
        omega
      · exact hother i hi
    have hempty : (s.get c).stream.empty = s.stream.empty := if_neg hlast
    rw [hset, hempty]

end Shared

/-! ## The invariant of the machine -/

/-- What the semaphore, the threads it has admitted and the unread slots add up to. The slots start
out free, unless there are so many consumers that the first count is short of them. -/
def tokens (n : Nat) : Nat := if n ≤ 9999 then bufferSize else bufferSize + bufferSize

/-- The counts of the slots and the account of the semaphore. -/
structure MachineInv [Fintype π] (m : Machine α π γ n) : Prop where
  shared : SharedInv m.shared
  account : m.shared.stream.empty + m.inFlight + m.shared.unread.card = tokens n

namespace MachineInv

variable [Fintype π] {m m' : Machine α π γ n}

/-- It holds before the first call. -/
theorem init (buffer : Slot → α) : MachineInv (Machine.init buffer : Machine α π γ n) := by
  have hflight : (Machine.init buffer : Machine α π γ n).inFlight = 0 := by
    simp [Machine.inFlight, Machine.init, PutPc.inPut]
  have hunread : (Shared.init buffer n).unread = if n ≤ 9999 then ∅ else Finset.univ := by
    ext i
    rw [Shared.mem_unread, Shared.init_eq]
    by_cases hn : n ≤ 9999
    · simp [initStream, hn]
    · simpa [initStream, hn] using Nat.not_le.1 hn
  refine ⟨.init buffer n, ?_⟩
  rw [hflight, show (Machine.init buffer : Machine α π γ n).shared = Shared.init buffer n from rfl,
    hunread, Shared.init_eq, tokens]
  by_cases hn : n ≤ 9999
  · simp [hn, initStream]
  · simp [hn, initStream]

variable [DecidableEq π] [DecidableEq γ] {conn : γ → Fin n} {l : Label α π γ}

/-- Every step keeps it. -/
theorem step (h0 : 0 < n) (h : MachineInv m) (hs : StreamStep conn m l m') : MachineInv m' := by
  obtain ⟨hsh, hacc⟩ := h
  have heff := hs.effect
  revert heff
  generalize l.op conn = o
  intro heff
  cases heff with
  | silent hs hf => exact ⟨hs ▸ hsh, by rw [hs, hf]; exact hacc⟩
  | token hempty hs hf =>
    refine ⟨hs ▸ hsh.semWait, ?_⟩
    rw [hs, hf, show m.shared.semWait.stream.empty = m.shared.stream.empty - 1 from rfl,
      show m.shared.semWait.unread = m.shared.unread from rfl]
    omega
  | put v hw hs hf =>
    refine ⟨hs ▸ hsh.put hw v, ?_⟩
    have hcard := Shared.card_unread_put (hsh.num.symm ▸ h0) hw v
    rw [hs, hcard, show (m.shared.put v).stream.empty = m.shared.stream.empty from rfl]
    omega
  | get c hn hs hf =>
    refine ⟨hs ▸ hsh.get hn, ?_⟩
    have hget := Shared.account_get hn
    rw [hs, hf]
    omega

/-- It holds in every state of a run. -/
theorem of_run (h0 : 0 < n) {buffer : Slot → α} {tr : List (Step (Machine α π γ n) (Label α π γ))}
    (h : StreamRun conn buffer tr m) : MachineInv m :=
  h.inv (MachineInv.init buffer) fun _ _ _ hi hs => hi.step h0 hs

omit [DecidableEq π] [DecidableEq γ] in
/-- All slots are unread when there are as many unread ones as slots. -/
theorem unread_iff (h : MachineInv m) : m.shared.unread.card = bufferSize ↔
    ∀ i, m.shared.stream.bufferReadCount i < n := by
  have hcard : m.shared.unread.card = bufferSize ↔ ∀ i, i ∈ m.shared.unread := by
    rw [← Finset.eq_univ_iff_forall, ← Finset.card_eq_iff_eq_univ, Fintype.card_fin]
  simpa only [Shared.mem_unread, h.shared.num] using hcard

omit [DecidableEq π] [DecidableEq γ] in
/-- When the semaphore is `0` and no thread is in `put`, all slots are unread. -/
theorem unread_of_no_tokens (h : MachineInv m) (hempty : m.shared.stream.empty = 0)
    (hflight : m.inFlight = 0) (i : Slot) : m.shared.stream.bufferReadCount i < n := by
  refine h.unread_iff.1 (Nat.le_antisymm ?_ ?_) i
  · exact (Finset.card_le_univ _).trans_eq (Fintype.card_fin _)
  · have hacc := h.account
    have htok : bufferSize ≤ tokens n := by
      unfold tokens
      split <;> omega
    omega

omit [DecidableEq π] [DecidableEq γ] in
/-- A thread that has passed `sem_wait` does not wait in the loop of `put`. -/
theorem not_putWaits (hn : n ≤ 9999) (h : MachineInv m) {t : π} (ht : (m.putter t).inPut = true) :
    ¬ m.shared.stream.PutWaits := by
  intro hw
  have hacc := h.account
  rw [tokens, if_pos hn, h.unread_iff.2 (h.shared.order hw)] at hacc
  have hflight : m.inFlight = 0 := by omega
  exact Finset.notMem_empty t ((Finset.card_eq_zero.1 hflight) ▸ by simp [ht])

end MachineInv

/-! ## The semaphore accounts for the slots -/

variable [Fintype π] [DecidableEq π] [DecidableEq γ] {m m' : Machine α π γ n} {conn : γ → Fin n}
  {l : Label α π γ}

/-- No thread goes into the wait set from `put`. -/
theorem MachineInv.putter_step (hn : n ≤ 9999) (h : MachineInv m)
    (hw : ∀ t, (m.putter t).isWaiting = false) (hs : StreamStep conn m l m') (t : π) :
    (m'.putter t).isWaiting = false := by
  by_contra hwait
  obtain ⟨hin, hput⟩ := hs.putter_waits (hw t) (Bool.eq_true_of_not_eq_false hwait)
  exact h.not_putWaits hn hin hput

/-- The account of the semaphore and what it implies for the loop of `put`. -/
structure SemaphoreSpec (m : Machine α π γ n) : Prop where
  num : m.shared.stream.numConsumers = n
  account : m.shared.stream.empty + m.inFlight + m.shared.unread.card = bufferSize
  count : ∀ i : Slot, (i : Nat) < m.shared.puts.length →
    0 ≤ m.shared.stream.bufferReadCount i ∧
      m.shared.stream.bufferReadCount i ≤ m.shared.stream.numConsumers
  order : m.shared.stream.PutWaits →
    ∀ i, m.shared.stream.bufferReadCount i < m.shared.stream.numConsumers
  ready : ∀ t, (m.putter t).inPut = true → ¬ m.shared.stream.PutWaits
  noWait : ∀ t, (m.putter t).isWaiting = false

/-- **The semaphore accounts for the slots**, and a thread that it has admitted never waits in the
loop of `put`. -/
theorem semaphore_accounts {buffer : Slot → α} {tr : List (Step (Machine α π γ n) (Label α π γ))}
    (h0 : 1 ≤ n) (hn : n ≤ 9999) (h : StreamRun conn buffer tr m) : SemaphoreSpec m := by
  have hinv : MachineInv m := .of_run h0 h
  have hwait := h.inv (I := fun m => MachineInv m ∧ ∀ t, (m.putter t).isWaiting = false)
    ⟨.init buffer, fun _ => rfl⟩ fun _ _ _ hi hs => ⟨hi.1.step h0 hs, hi.1.putter_step hn hi.2 hs⟩
  have hacc := hinv.account
  rw [tokens, if_pos hn] at hacc
  refine ⟨hinv.shared.num, hacc, fun i hi => ⟨Nat.zero_le _, ?_⟩, ?_,
    fun t ht => hinv.not_putWaits hn ht, hwait.2⟩
  · rw [hinv.shared.num]
    exact hinv.shared.count_le hi
  · intro hw i
    rw [hinv.shared.num]
    exact hinv.shared.order hw i

/-- A put and the start of another one, for two consumers. -/
def putTwice : List (Label Nat Unit (Fin 2)) :=
  [.semWait () 7, .put () 7 none, .semWait () 8]

/-- The state they lead to. -/
def putTwiceEnd : Machine Nat Unit (Fin 2) 2 :=
  putTwice.foldl (Machine.next id) (Machine.init fun _ => 0)

theorem putTwice_run : ∃ tr, StreamRun id (fun _ => 0) tr putTwiceEnd := by
  obtain ⟨tr, hr, -⟩ := StreamRun.of_labels (n := 2) id (fun _ => 0) putTwice (by decide)
  exact ⟨tr, hr⟩

theorem semaphore_accounts_putTwice : SemaphoreSpec putTwiceEnd := by
  obtain ⟨tr, hr⟩ := putTwice_run
  exact semaphore_accounts (by decide) (by decide) hr

/-! ## Some thread can proceed -/

/-- **The conditions of `put` and `get` are never false for all threads.** With one thread that puts
and one that gets through each connection, the putter can complete a put, or one of the consumers
passes both conditions of `get`. -/
theorem some_thread_can_proceed {m : Machine α Unit (Fin n) n} {buffer : Slot → α}
    {tr : List (Step (Machine α Unit (Fin n) n) (Label α Unit (Fin n)))} (h0 : 1 ≤ n)
    (h : StreamRun id buffer tr m) :
    ((0 < m.shared.stream.empty ∨ (m.putter ()).inPut = true) ∧ ¬ m.shared.stream.PutWaits) ∨
      ∃ c, ¬ m.shared.stream.GetAhead (m.shared.bufferIdx c) ∧
        ¬ m.shared.stream.NothingNew (m.shared.bufferIdx c) := by
  have hinv : MachineInv m := .of_run h0 h
  by_contra hno
  obtain ⟨hput, hget⟩ := not_or.1 hno
  -- either way no slot is free
  have hall : ∀ i, m.shared.stream.bufferReadCount i < n := by
    by_cases hw : m.shared.stream.PutWaits
    · exact hinv.shared.order hw
    · have hidle : ¬ (0 < m.shared.stream.empty ∨ (m.putter ()).inPut = true) :=
        fun hor => hput ⟨hor, hw⟩
      obtain ⟨hempty, hpc⟩ := not_or.1 hidle
      exact hinv.unread_of_no_tokens (Nat.eq_zero_of_not_pos hempty)
        (Finset.card_eq_zero.2 (Finset.filter_eq_empty_iff.2 fun _ _ => hpc))
  refine hinv.shared.not_all_ahead hall ?_
  intro c
  by_contra hahead
  exact hget ⟨c, hahead, (hinv.shared.new_iff _).2 (hall _)⟩

theorem some_thread_can_proceed_putTwice :
    ((0 < putTwiceEnd.shared.stream.empty ∨ (putTwiceEnd.putter ()).inPut = true) ∧
      ¬ putTwiceEnd.shared.stream.PutWaits) ∨
    ∃ c, ¬ putTwiceEnd.shared.stream.GetAhead (putTwiceEnd.shared.bufferIdx c) ∧
      ¬ putTwiceEnd.shared.stream.NothingNew (putTwiceEnd.shared.bufferIdx c) := by
  obtain ⟨tr, hr⟩ := putTwice_run
  exact some_thread_can_proceed (by decide) hr

end Eece4029
