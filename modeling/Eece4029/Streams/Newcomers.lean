import Eece4029.Streams.Counting

/-!
# Consumers that connect later

`stream_connect` may be called at any time, and a new connection starts at `put_idx`, the slot of
the next put, so that it "will only see fresh tokens". But it also raises `num_consumers`, and the
slots keep the counts of the readers they had before: a value that every old consumer has read looks
unread to the new one. `newcomer_fresh_iff` says that a consumer sees only fresh values when it
connects before the first put, and that otherwise, whatever has happened before, it may see an old
one: it finds that in its first slot at once, or it follows `put` around the ring to the first slot,
which still has one.

Here the connections of a machine are made one after the other. As observations, every slot has the
number of the put that wrote it, and every connection the numbers of the values got through it,
where `none` stands for what was in the buffer before the first put.
-/

namespace Eece4029

open Transition

/-! ## The machine with its connections -/

variable {α π γ : Type} {n : Nat}

namespace Shared

/-- The stream before the first connection. -/
def unconnected (buffer : Slot → α) : Shared α n :=
  ⟨initStream buffer, fun _ => 0, [], fun _ => []⟩

/-- `stream_connect` of the connection `c`, up to its signals. -/
def connect (s : Shared α n) (c : Fin n) : Shared α n :=
  let (bufferIdx, stream) := streamConnect s.stream
  { s with stream := stream, bufferIdx := Function.update s.bufferIdx c bufferIdx }

end Shared

/-- The thread of a step of `get`. -/
def Label.getter : Label α π γ → Option γ
  | .getWaitAhead g | .getWaitNew g | .get g _ => some g
  | _ => none

/-- A machine and the connections that are made. -/
structure Dynamic (α π γ : Type) (n : Nat) where
  machine : Machine α π γ n
  connected : Fin n → Bool
  stamp : Slot → Option Nat
  got : Fin n → List (Option Nat)

/-- A step of a thread, or a call of `stream_connect`; `wake` is the thread that its signal removes
from the wait set. -/
inductive DynamicLabel (α π γ : Type) (n : Nat)
  | thread (l : Label α π γ)
  | connect (c : Fin n) (wake : Option (π ⊕ γ))
deriving DecidableEq

namespace Dynamic

/-- Before the first connection and the first call. -/
def init (buffer : Slot → α) : Dynamic α π γ n :=
  ⟨⟨.unconnected buffer, fun _ => .idle, fun _ => .idle⟩, fun _ => false, fun _ => none,
    fun _ => []⟩

/-- The values put so far. -/
abbrev puts (s : Dynamic α π γ n) : List α := s.machine.shared.puts

variable [DecidableEq π] [DecidableEq γ] (conn : γ → Fin n)

/-- The condition of a step. A thread gets through a connection that was made. -/
def Enabled (s : Dynamic α π γ n) : DynamicLabel α π γ n → Prop
  | .thread l => s.machine.Enabled conn l ∧ ∀ g ∈ l.getter, s.connected (conn g) = true
  | .connect c wake => s.connected c = false ∧ s.machine.CanSignal wake

/-- The observations after a completed call. -/
def observe (s : Dynamic α π γ n) : Option (StreamOp α n) → Dynamic α π γ n
  | some (.put _) =>
    { s with stamp := Function.update s.stamp s.machine.shared.stream.putIdx s.puts.length }
  | some (.get c) =>
    { s with got := Function.update s.got c (s.got c ++ [s.stamp (s.machine.shared.bufferIdx c)]) }
  | none => s

/-- The state after a step. -/
def next (s : Dynamic α π γ n) : DynamicLabel α π γ n → Dynamic α π γ n
  | .thread l => { s.observe (l.op conn) with machine := s.machine.next conn l }
  | .connect c wake =>
    { s with
      machine := { s.machine with shared := s.machine.shared.connect c }.wake wake
      connected := Function.update s.connected c true }

instance [DecidableEq α] [Fintype π] [Fintype γ] (s : Dynamic α π γ n) :
    DecidablePred (s.Enabled conn)
  | .thread l => inferInstanceAs (Decidable (_ ∧ ∀ g ∈ l.getter, _))
  | .connect _ _ => inferInstanceAs (Decidable (_ ∧ _))

end Dynamic

variable [DecidableEq π] [DecidableEq γ] {conn : γ → Fin n}

/-- The step relation. -/
def DynamicStep (conn : γ → Fin n) (s : Dynamic α π γ n) (l : DynamicLabel α π γ n)
    (s' : Dynamic α π γ n) : Prop :=
  s.Enabled conn l ∧ s' = s.next conn l

/-- `tr` is a run from a new stream, on a buffer with any contents. -/
abbrev DynamicRun (conn : γ → Fin n) (buffer : Slot → α)
    (tr : List (Step (Dynamic α π γ n) (DynamicLabel α π γ n))) (s : Dynamic α π γ n) : Prop :=
  Run (DynamicStep conn) (Dynamic.init buffer) tr s

/-- Every value got through the connection is one of the puts from number `p` on. -/
def FreshFrom (p : Nat) (s : Dynamic α π γ n) (c : Fin n) : Prop :=
  ∀ x ∈ s.got c, ∃ k, x = some k ∧ p ≤ k

/-- The consumer that connects in the state `s` will only get values that are put later. -/
def OnlyFresh (conn : γ → Fin n) (s : Dynamic α π γ n) (c : Fin n) : Prop :=
  ∀ wake s₁, DynamicStep conn s (.connect c wake) s₁ → ∀ tr s', Run (DynamicStep conn) s₁ tr s' →
    FreshFrom s.puts.length s' c

/-! ## The slots and their numbers -/

/-- The numbers of the slots are those of the values in them; a slot that was written has at most as
many readers as there are consumers, and one that was not has its first count, or more by readers
that `9999` does not count. -/
structure Stamps (s : Shared α n) (stamp : Slot → Option Nat) : Prop where
  putIdx : (s.stream.putIdx : Nat) = s.puts.length % bufferSize
  value : ∀ i k, stamp i = some k →
    k % bufferSize = i ∧ s.puts[k]? = some (s.stream.buffer i)
  written : ∀ i : Slot, (i : Nat) < s.puts.length →
    stamp i ≠ none ∧ s.stream.bufferReadCount i ≤ s.stream.numConsumers
  unwritten : ∀ i : Slot, s.puts.length ≤ i →
    stamp i = none ∧ 9999 ≤ s.stream.bufferReadCount i ∧
      s.stream.bufferReadCount i ≤ max 9999 s.stream.numConsumers

namespace Stamps

variable {s : Shared α n} {stamp : Slot → Option Nat}

theorem init (buffer : Slot → α) : Stamps (Shared.unconnected buffer : Shared α n) fun _ => none :=
  ⟨rfl, fun _ _ => nofun, fun _ h => absurd h (Nat.not_lt_zero _),
    fun _ _ => ⟨rfl, Nat.le_refl _, Nat.le_max_left _ _⟩⟩

theorem semWait (h : Stamps s stamp) : Stamps s.semWait stamp :=
  ⟨h.putIdx, h.value, h.written, h.unwritten⟩

/-- While there were fewer puts than slots, the next slot is the one of that number. -/
theorem putIdx_of_lt (h : Stamps s stamp) (hlt : s.puts.length < bufferSize) :
    (s.stream.putIdx : Nat) = s.puts.length := by
  rw [h.putIdx, Nat.mod_eq_of_lt hlt]

theorem put (h : Stamps s stamp) (v : α) :
    Stamps (s.put v) (Function.update stamp s.stream.putIdx (some s.puts.length)) := by
  have hlen : (s.put v).puts.length = s.puts.length + 1 := by simp [Shared.put]
  have hbuffer : (s.put v).stream.buffer = Function.update s.stream.buffer s.stream.putIdx v := rfl
  have hcount : (s.put v).stream.bufferReadCount =
      Function.update s.stream.bufferReadCount s.stream.putIdx 0 := rfl
  refine ⟨?_, ?_, ?_, ?_⟩
  · rw [hlen, show (s.put v).stream.putIdx = s.stream.putIdx + 1 from rfl, SharedInv.slot_succ,
      h.putIdx, Nat.mod_add_mod]
  · intro i k hk
    rw [hbuffer, show (s.put v).puts = s.puts ++ [v] from rfl]
    by_cases hi : i = s.stream.putIdx
    · subst hi
      rw [Function.update_self] at hk ⊢
      cases hk
      exact ⟨h.putIdx.symm, List.getElem?_concat_length⟩
    · rw [Function.update_of_ne hi] at hk ⊢
      obtain ⟨hmod, hval⟩ := h.value i k hk
      rw [List.getElem?_append_left (List.getElem?_eq_some_iff.1 hval).1]
      exact ⟨hmod, hval⟩
  · intro i hi
    rw [hlen] at hi
    rw [hcount, show (s.put v).stream.numConsumers = s.stream.numConsumers from rfl]
    by_cases hput : i = s.stream.putIdx
    · subst hput
      rw [Function.update_self, Function.update_self]
      exact ⟨Option.some_ne_none _, Nat.zero_le _⟩
    · rw [Function.update_of_ne hput, Function.update_of_ne hput]
      refine h.written i (Nat.lt_of_le_of_ne (Nat.le_of_lt_succ hi) fun heq => hput (Fin.ext ?_))
      rw [h.putIdx_of_lt (heq ▸ i.isLt), heq]
  · intro i hi
    rw [hlen] at hi
    have hput : i ≠ s.stream.putIdx := by
      rintro rfl
      have := h.putIdx_of_lt (by omega)
      omega
    rw [hcount, Function.update_of_ne hput, Function.update_of_ne hput]
    exact h.unwritten i (Nat.le_of_succ_le hi)

theorem get (h : Stamps s stamp) {c : Fin n} (hn : ¬ s.stream.NothingNew (s.bufferIdx c)) :
    Stamps (s.get c) stamp := by
  have hlt : s.stream.bufferReadCount (s.bufferIdx c) < s.stream.numConsumers := Nat.not_le.1 hn
  have hcount : (s.get c).stream.bufferReadCount = Function.update s.stream.bufferReadCount
      (s.bufferIdx c) (s.stream.bufferReadCount (s.bufferIdx c) + 1) := rfl
  refine ⟨h.putIdx, h.value, ?_, ?_⟩
  · intro i hi
    obtain ⟨hstamp, hle⟩ := h.written i hi
    rw [hcount, show (s.get c).stream.numConsumers = s.stream.numConsumers from rfl,
      Function.update_apply]
    refine ⟨hstamp, ?_⟩
    split <;> omega
  · intro i hi
    obtain ⟨hstamp, hge, hle⟩ := h.unwritten i hi
    rw [hcount, show (s.get c).stream.numConsumers = s.stream.numConsumers from rfl,
      Function.update_apply]
    refine ⟨hstamp, ?_, ?_⟩
    · split
      · next heq =>
        subst heq
        omega
      · exact hge
    · split <;> omega

theorem connect (h : Stamps s stamp) (c : Fin n) : Stamps (s.connect c) stamp := by
  have hnum : (s.connect c).stream.numConsumers = s.stream.numConsumers + 1 := rfl
  refine ⟨h.putIdx, h.value, ?_, ?_⟩
  · intro i hi
    obtain ⟨hstamp, hle⟩ := h.written i hi
    exact ⟨hstamp, hnum ▸ Nat.le_succ_of_le hle⟩
  · intro i hi
    obtain ⟨hstamp, hge, hle⟩ := h.unwritten i hi
    refine ⟨hstamp, hge, ?_⟩
    rw [hnum]
    exact Nat.le_trans hle (by omega)

/-- A value in a slot was put. -/
theorem lt (h : Stamps s stamp) {i : Slot} {k : Nat} (hk : stamp i = some k) :
    k < s.puts.length :=
  (List.getElem?_eq_some_iff.1 (h.value i k hk).2).1

end Stamps

/-! ## The invariant -/

namespace Machine

variable {m : Machine α π γ n} {l : Label α π γ} {g : γ} {w : Option (π ⊕ γ)}

theorem getter_wake (hg : m.getter g = .idle) : (m.wake w).getter g = .idle := by
  rcases w with _ | t | g'
  · exact hg
  · exact hg
  · by_cases h : g = g'
    · subst h
      simp [wake, hg, GetPc.wake]
    · simp [wake, Function.update_of_ne h, hg]

/-- A thread before its first call of `get` is there until it calls it. -/
theorem getter_next (hg : m.getter g = .idle) (hl : ∀ g' ∈ l.getter, g ≠ g') :
    (m.next conn l).getter g = .idle := by
  cases l with
  | semWait | putWait => exact hg
  | put t value wake => exact getter_wake hg
  | getWaitAhead g' | getWaitNew g' => exact (Function.update_of_ne (hl g' rfl) _ _).trans hg
  | get g' wake => exact getter_wake ((Function.update_of_ne (hl g' rfl) _ _).trans hg)
  | spurious t => exact getter_wake hg

end Machine

/-- What the slots, the connections and the threads have to do with each other. -/
structure DynamicInv [Fintype π] (conn : γ → Fin n) (s : Dynamic α π γ n) : Prop where
  num : s.machine.shared.stream.numConsumers =
    (Finset.univ.filter fun c => s.connected c = true).card
  stamps : Stamps s.machine.shared s.stamp
  idle : ∀ g, s.connected (conn g) = false → s.machine.getter g = .idle
  got : ∀ c, s.connected c = false → s.got c = []
  values : ∀ c, List.Forall₂ (fun x v => ∀ k, x = some k → s.puts[k]? = some v) (s.got c)
    (s.machine.shared.gets c)
  tokens : bufferSize ≤ s.machine.shared.stream.empty + s.machine.inFlight + s.puts.length
  putter : s.puts ≠ [] → Nonempty π
  noWait : n ≤ 9999 → s.puts.length < bufferSize → ∀ t, (s.machine.putter t).isWaiting = false

namespace DynamicInv

variable [Fintype π] {s s' : Dynamic α π γ n} {c : Fin n} {wake : Option (π ⊕ γ)}
  {l : Label α π γ}

omit [DecidableEq π] [DecidableEq γ] in
theorem init (buffer : Slot → α) : DynamicInv conn (Dynamic.init buffer : Dynamic α π γ n) where
  num := by simp [Dynamic.init, Shared.unconnected, initStream]
  stamps := .init buffer
  idle _ _ := rfl
  got _ _ := rfl
  values _ := .nil
  tokens := Nat.le_trans (Nat.le_add_right _ _) (Nat.le_add_right _ _)
  putter h := absurd rfl h
  noWait _ _ _ := rfl

omit [DecidableEq π] [DecidableEq γ] in
/-- There are at most as many consumers as connections. -/
theorem num_le (h : DynamicInv conn s) : s.machine.shared.stream.numConsumers ≤ n := by
  rw [h.num]
  exact (Finset.card_filter_le _ _).trans_eq (Finset.card_fin n)

omit [DecidableEq π] [DecidableEq γ] in
/-- While a consumer is not connected there are fewer. -/
theorem num_lt (h : DynamicInv conn s) (hc : s.connected c = false) :
    s.machine.shared.stream.numConsumers < n := by
  rw [h.num]
  refine (Finset.card_lt_card (Finset.filter_ssubset.2 ⟨c, Finset.mem_univ c, ?_⟩)).trans_eq
    (Finset.card_fin n)
  simp [hc]

omit [DecidableEq π] [DecidableEq γ] in
/-- While there were fewer puts than slots, and `9999` is not exceeded, `put` does not wait. -/
theorem not_putWaits (h : DynamicInv conn s) (hn : n ≤ 9999) (hlt : s.puts.length < bufferSize) :
    ¬ s.machine.shared.stream.PutWaits := by
  have hidx := h.stamps.putIdx_of_lt hlt
  have hcount := (h.stamps.unwritten _ (Nat.le_of_eq hidx.symm)).2.1
  exact Nat.not_lt.2 ((h.num_le.trans hn).trans hcount)

/-- `stream_connect` keeps it. -/
theorem connect (h : DynamicInv conn s) (hc : s.connected c = false) :
    DynamicInv conn (s.next conn (.connect c wake)) := by
  have hshared : (s.next conn (.connect c wake)).machine.shared = s.machine.shared.connect c :=
    Machine.wake_shared _ _
  have hflight : (s.next conn (.connect c wake)).machine.inFlight = s.machine.inFlight :=
    Machine.wake_inFlight _
  have hconnected :
      (s.next conn (.connect c wake)).connected = Function.update s.connected c true := rfl
  have hold : ∀ d, (s.next conn (.connect c wake)).connected d = false → s.connected d = false := by
    intro d hd
    rw [hconnected, Function.update_apply] at hd
    split at hd
    · cases hd
    · exact hd
  refine ⟨?_, ?_, ?_, ?_, ?_, ?_, ?_, ?_⟩
  · rw [hshared, show (s.machine.shared.connect c).stream.numConsumers =
      s.machine.shared.stream.numConsumers + 1 from rfl, h.num, hconnected]
    have hset : (Finset.univ.filter fun d => Function.update s.connected c true d = true) =
        insert c (Finset.univ.filter fun d => s.connected d = true) := by
      ext d
      by_cases hd : d = c
      · simp [hd]
      · simp [hd]
    rw [hset, Finset.card_insert_of_notMem (by simp [hc])]
  · rw [hshared]
    exact h.stamps.connect c
  · exact fun g hg => Machine.getter_wake (h.idle g (hold _ hg))
  · exact fun d hd => h.got d (hold d hd)
  · rw [Dynamic.puts, hshared]
    exact h.values
  · rw [hflight, Dynamic.puts, hshared]
    exact h.tokens
  · rw [Dynamic.puts, hshared]
    exact h.putter
  · intro hn hlt t
    rw [Dynamic.puts, hshared] at hlt
    by_contra hwait
    have hold := (Machine.waits_wake (t := .inl t)).1 (Bool.eq_true_of_not_eq_false hwait)
    cases (h.noWait hn hlt t).symm.trans hold.1

omit [DecidableEq π] [DecidableEq γ] in
/-- What a step does to the stream keeps it, when the threads go where they may. -/
theorem of_effect {m' : Machine α π γ n} {o : Option (StreamOp α n)} (h : DynamicInv conn s)
    (heff : StepEffect s.machine m' o)
    (hidle : ∀ g, s.connected (conn g) = false → m'.getter g = .idle)
    (hget : ∀ c, o = some (.get c) → s.connected c = true)
    (hput : ∀ v, o = some (.put v) → Nonempty π)
    (hwait : n ≤ 9999 → s.puts.length < bufferSize → ∀ t, (m'.putter t).isWaiting = false) :
    DynamicInv conn { s.observe o with machine := m' } := by
  have htokens : bufferSize ≤ s.machine.shared.stream.empty + s.machine.inFlight +
      s.machine.shared.puts.length := h.tokens
  cases heff with
  | silent hs hf =>
    refine ⟨?_, ?_, hidle, h.got, ?_, ?_, ?_, ?_⟩
    all_goals simp only [Dynamic.puts, Dynamic.observe, hs, hf]
    exacts [h.num, h.stamps, h.values, h.tokens, h.putter, hwait]
  | token h0 hs hf =>
    refine ⟨?_, ?_, hidle, h.got, ?_, ?_, ?_, ?_⟩
    all_goals simp only [Dynamic.puts, Dynamic.observe, hs, hf]
    · exact h.num
    · exact h.stamps.semWait
    · exact h.values
    · simp only [Shared.semWait]
      omega
    · exact h.putter
    · exact hwait
  | put v hw hs hf =>
    have hputs : m'.shared.puts = s.puts ++ [v] := by rw [hs]; rfl
    have hlen : m'.shared.puts.length = s.machine.shared.puts.length + 1 := by rw [hputs]; simp
    refine ⟨?_, ?_, hidle, h.got, ?_, ?_, fun _ => hput v rfl, ?_⟩
    · simp only [hs]
      exact h.num
    · simp only [hs]
      exact h.stamps.put v
    · intro c
      simp only [Dynamic.puts, hputs]
      rw [hs]
      refine (h.values c).imp ?_
      intro x w hx k hk
      have hold := hx k hk
      rwa [List.getElem?_append_left (List.getElem?_eq_some_iff.1 hold).1]
    · have hempty : m'.shared.stream.empty = s.machine.shared.stream.empty := by rw [hs]; rfl
      simp only [Dynamic.puts, hlen, hempty]
      omega
    · intro hn hlt
      simp only [Dynamic.puts, hlen] at hlt
      exact hwait hn (Nat.lt_of_succ_lt hlt)
  | get c hn hs hf =>
    have hputs : m'.shared.puts = s.puts := by rw [hs]; rfl
    refine ⟨?_, ?_, hidle, ?_, ?_, ?_, ?_, ?_⟩
    · simp only [hs]
      exact h.num
    · simp only [hs]
      exact h.stamps.get hn
    · intro d hd
      have hdc : d ≠ c := by
        rintro rfl
        cases hd.symm.trans (hget d rfl)
      exact (Function.update_of_ne hdc _ _).trans (h.got d hd)
    · intro d
      simp only [Dynamic.puts, hputs]
      rw [hs]
      by_cases hdc : d = c
      · subst hdc
        simp only [Dynamic.observe, Shared.get, Stream.get, Function.update_self]
        refine List.rel_append (h.values d) (.cons ?_ .nil)
        exact fun k hk => (h.stamps.value _ k hk).2
      · simp only [Dynamic.observe, Shared.get, Stream.get, Function.update_of_ne hdc]
        exact h.values d
    · have hempty : s.machine.shared.stream.empty ≤ m'.shared.stream.empty := by
        rw [hs]
        simp only [Shared.get, Stream.get]
        split <;> omega
      simp only [Dynamic.puts, hputs, hf]
      omega
    · simp only [Dynamic.puts, hputs]
      exact h.putter
    · simp only [Dynamic.puts, hputs]
      exact hwait

/-- While there were fewer puts than slots no thread goes into the wait set from `put`. -/
theorem putter_step {m : Machine α π γ n} (h : DynamicInv conn s)
    (hs : StreamStep conn s.machine l m) (hn : n ≤ 9999) (hlt : s.puts.length < bufferSize)
    (t : π) : (m.putter t).isWaiting = false := by
  by_contra hwait
  obtain ⟨-, hput⟩ := hs.putter_waits (h.noWait hn hlt t) (Bool.eq_true_of_not_eq_false hwait)
  exact h.not_putWaits hn hlt hput

/-- A step of a thread keeps it. -/
theorem thread (h : DynamicInv conn s) (hs : s.Enabled conn (.thread l)) :
    DynamicInv conn (s.next conn (.thread l)) := by
  obtain ⟨hen, hconn⟩ := hs
  have hstep : StreamStep conn s.machine l (s.machine.next conn l) := ⟨hen, rfl⟩
  refine h.of_effect hstep.effect ?_ ?_ ?_ fun hn hlt => h.putter_step hstep hn hlt
  · intro g hg
    refine Machine.getter_next (h.idle g hg) ?_
    rintro g' hg' rfl
    cases hg.symm.trans (hconn g hg')
  · intro c hop
    cases l with
    | get g wake =>
      cases hop
      exact hconn g rfl
    | semWait | putWait | put | getWaitAhead | getWaitNew | spurious => cases hop
  · intro v hop
    cases l with
    | put t value wake => exact ⟨t⟩
    | semWait | putWait | getWaitAhead | getWaitNew | get | spurious => cases hop

/-- Every step keeps it. -/
theorem step (h : DynamicInv conn s) {l : DynamicLabel α π γ n} (hs : DynamicStep conn s l s') :
    DynamicInv conn s' := by
  obtain ⟨hen, rfl⟩ := hs
  cases l with
  | thread l => exact h.thread hen
  | connect c wake => exact h.connect hen.1

/-- It holds after every run. -/
theorem of_run {buffer : Slot → α}
    {tr : List (Step (Dynamic α π γ n) (DynamicLabel α π γ n))}
    (h : DynamicRun conn buffer tr s) : DynamicInv conn s :=
  h.inv (.init buffer) fun _ _ _ hi hs => hi.step hs

omit [DecidableEq π] [DecidableEq γ] in
/-- The values that a connection got are those of its numbers, so fresh numbers are fresh values. -/
theorem value_of_fresh {p : Nat} (h : DynamicInv conn s) (hfresh : FreshFrom p s c) :
    ∀ v ∈ s.machine.shared.gets c, ∃ k, p ≤ k ∧ s.puts[k]? = some v := by
  have hvalues := h.values c
  unfold FreshFrom at hfresh
  generalize s.got c = xs, s.machine.shared.gets c = vs at hvalues hfresh ⊢
  induction hvalues with
  | nil => exact fun _ => nofun
  | cons hx _ ih =>
    obtain ⟨⟨k, hk, hp⟩, hrest⟩ := List.forall_mem_cons.1 hfresh
    exact List.forall_mem_cons.2 ⟨⟨k, hp, hx k hk⟩, ih hrest⟩

end DynamicInv

/-! ## A newcomer that finds an old value -/

omit [DecidableEq π] [DecidableEq γ] in
/-- A signal either finds a thread in the wait set or is lost. -/
theorem Machine.exists_signal (m : Machine α π γ n) : ∃ w, m.CanSignal w := by
  by_cases h : ∃ t, m.Waits t
  · obtain ⟨t, ht⟩ := h
    exact ⟨some t, ht⟩
  · exact ⟨none, fun t ht => h ⟨t, ht⟩⟩

omit [DecidableEq π] [DecidableEq γ] in
/-- The thread of a step of `get` gets through a connection that was made. -/
theorem Dynamic.forall_getter {s : Dynamic α π γ n} {g : γ} (h : s.connected (conn g) = true) :
    ∀ g' ∈ some g, s.connected (conn g') = true := by
  rintro g' hg'
  cases hg'
  exact h

/-- The consumer is connected and about to call `get`, at the slot that the next put writes. -/
structure AtPut [Fintype π] (conn : γ → Fin n) (s : Dynamic α π γ n) (g : γ) : Prop where
  inv : DynamicInv conn s
  connected : s.connected (conn g) = true
  idle : s.machine.getter g = .idle
  bufferIdx : s.machine.shared.bufferIdx (conn g) = s.machine.shared.stream.putIdx

namespace AtPut

variable [Fintype π] {s : Dynamic α π γ n} {c : Fin n} {g : γ} {wake : Option (π ⊕ γ)} {p : Nat}

/-- A connection starts there. -/
theorem of_connect (h : DynamicInv conn s) (hc : s.connected (conn g) = false) :
    AtPut conn (s.next conn (.connect (conn g) wake)) g where
  inv := h.connect hc
  connected := Function.update_self _ _ _
  idle := Machine.getter_wake (h.idle g hc)
  bufferIdx := by
    simp [Dynamic.next, Shared.connect, streamConnect]

/-- Another connection changes nothing about it. -/
theorem connect (h : AtPut conn s g) (hc : s.connected c = false) :
    AtPut conn (s.next conn (.connect c wake)) g := by
  have hne : conn g ≠ c := by
    rintro rfl
    cases hc.symm.trans h.connected
  refine ⟨h.inv.connect hc, ?_, Machine.getter_wake h.idle, ?_⟩
  · exact (Function.update_of_ne hne _ _).trans h.connected
  · simpa [Dynamic.next, Shared.connect, streamConnect, hne] using h.bufferIdx

omit [DecidableEq π] [DecidableEq γ] in
/-- The first loop of `get` is no obstacle. -/
theorem pastAhead (h : AtPut conn s g) : s.machine.PastAhead conn g := by
  refine .inl ⟨by rw [h.idle]; rfl, ?_⟩
  rw [Stream.GetAhead, Machine.idxOf, h.bufferIdx]
  generalize s.machine.shared.stream.putIdx = i
  decide +revert

/-- It gets what is in the slot if that looks unread. -/
theorem stale (h : AtPut conn s g)
    (hcount : s.machine.shared.stream.bufferReadCount s.machine.shared.stream.putIdx <
      s.machine.shared.stream.numConsumers)
    (hold : ∀ k, s.stamp s.machine.shared.stream.putIdx = some k → k < p) :
    ∃ l s', DynamicStep conn s l s' ∧ ¬ FreshFrom p s' (conn g) := by
  obtain ⟨w, hw⟩ := (s.machine.getSection conn g).exists_signal
  have hnew : ¬ s.machine.shared.stream.NothingNew (s.machine.idxOf conn g) := by
    rw [Stream.NothingNew, Machine.idxOf, h.bufferIdx]
    exact Nat.not_le.2 hcount
  refine ⟨.thread (.get g w), _,
    ⟨⟨⟨h.pastAhead, hnew, hw⟩, Dynamic.forall_getter h.connected⟩, rfl⟩, ?_⟩
  intro hfresh
  have hmem : s.stamp s.machine.shared.stream.putIdx ∈
      (s.next conn (.thread (.get g w))).got (conn g) := by
    simp [Dynamic.next, Label.op, Dynamic.observe, h.bufferIdx]
  obtain ⟨k, hk, hp⟩ := hfresh _ hmem
  exact Nat.not_lt.2 hp (hold k hk)

/-- All others connect. -/
theorem connect_all (h : AtPut conn s g) : ∃ tr s', Run (DynamicStep conn) s tr s' ∧
    AtPut conn s' g ∧ s'.stamp = s.stamp ∧
    s'.machine.shared.stream = { s.machine.shared.stream with numConsumers := n } := by
  -- by induction on the number of those that are not connected
  induction hk : n - s.machine.shared.stream.numConsumers generalizing s with
  | zero =>
    have hnum : s.machine.shared.stream.numConsumers = n :=
      Nat.le_antisymm h.inv.num_le (Nat.sub_eq_zero_iff_le.1 hk)
    exact ⟨[], s, .nil, h, rfl,
      congrArg (fun k => { s.machine.shared.stream with numConsumers := k }) hnum⟩
  | succ k ih =>
    obtain ⟨c, hc⟩ : ∃ c, s.connected c = false := by
      by_contra hall
      have hcard := h.inv.num
      rw [Finset.filter_true_of_mem fun c _ => by simpa using fun hc => hall ⟨c, hc⟩,
        Finset.card_fin] at hcard
      omega
    obtain ⟨w, hw⟩ := s.machine.exists_signal
    have hs : DynamicStep conn s (.connect c w) (s.next conn (.connect c w)) := ⟨⟨hc, hw⟩, rfl⟩
    have hstream : (s.next conn (.connect c w)).machine.shared.stream =
        { s.machine.shared.stream with
          numConsumers := s.machine.shared.stream.numConsumers + 1 } := by
      simp [Dynamic.next, Shared.connect, streamConnect]
    obtain ⟨tr, s', hr, hat, hstamp, heq⟩ := ih (h.connect hc) (by rw [hstream]; simp; omega)
    exact ⟨_, s', (Run.nil.snoc hs).append hr, hat, hstamp, by rw [heq, hstream]⟩

end AtPut

/-- A thread gets past `sem_wait` and up to the loop of `put`, if it is not there yet. -/
theorem DynamicInv.exists_putter [Fintype π] {s : Dynamic α π γ n} (h : DynamicInv conn s)
    (hn : n ≤ 9999) (hne : s.puts ≠ []) (hlt : s.puts.length < bufferSize) :
    ∃ tr e f t v, (f t).AtLoop v ∧ Run (DynamicStep conn) s tr
      { s with machine :=
        ⟨{ s.machine.shared with stream := { s.machine.shared.stream with empty := e } }, f,
          s.machine.getter⟩ } := by
  have htokens := h.tokens
  rcases Nat.eq_zero_or_pos s.machine.inFlight with hflight | hflight
  · obtain ⟨t⟩ := h.putter hne
    have hidle : (s.machine.putter t).inPut = false := by
      have hnone := Finset.filter_eq_empty_iff.1 (Finset.card_eq_zero.1 hflight) (Finset.mem_univ t)
      exact Bool.eq_false_of_not_eq_true hnone
    -- it puts any value
    have hs : DynamicStep conn s (.thread (.semWait t (s.machine.shared.stream.buffer 0))) _ :=
      ⟨⟨⟨hidle, by omega⟩, nofun⟩, rfl⟩
    exact ⟨_, _, _, t, _, .inl (Function.update_self _ _ _), Run.nil.snoc hs⟩
  · obtain ⟨t, ht⟩ := Finset.card_pos.1 hflight
    have hwait := h.noWait hn hlt t
    have hin : (s.machine.putter t).inPut = true := (Finset.mem_filter.1 ht).2
    cases hpc : s.machine.putter t with
    | idle => simp [hpc, PutPc.inPut] at hin
    | waiting v => simp [hpc, PutPc.isWaiting] at hwait
    | entered v => exact ⟨[], _, _, t, v, .inl hpc, .nil⟩
    | woken v => exact ⟨[], _, _, t, v, .inr hpc, .nil⟩

namespace AtPut

variable [Fintype π] {s : Dynamic α π γ n} {g : γ} {p : Nat}

/-- A put wakes it in the second loop, and it gets the value. -/
theorem of_put {t : π} {v : α} (hinv : DynamicInv conn s) (hconn : s.connected (conn g) = true)
    (hidx : s.machine.shared.bufferIdx (conn g) = s.machine.shared.stream.putIdx)
    (hwait : s.machine.getter g = .waitNew) (hloop : (s.machine.putter t).AtLoop v)
    (hfree : ¬ s.machine.shared.stream.PutWaits) (h0 : 0 < s.machine.shared.stream.numConsumers) :
    ∃ tr s', Run (DynamicStep conn) s tr s' ∧ AtPut conn s' g ∧
      s'.machine.shared = (s.machine.shared.put v).get (conn g) := by
  have hsignal : (s.machine.putSection t v).CanSignal (some (.inr g)) := by
    simp [Machine.CanSignal, Machine.putSection, hwait, GetPc.isWaiting]
  have hput : DynamicStep conn s (.thread (.put t v (some (.inr g)))) _ :=
    ⟨⟨⟨hloop, hfree, hsignal⟩, fun _ hg => absurd hg (Option.not_mem_none _)⟩, rfl⟩
  generalize hs₁ : s.next conn (.thread (.put t v (some (.inr g)))) = s₁ at hput
  have hshared : s₁.machine.shared = s.machine.shared.put v := by rw [← hs₁]; rfl
  have hwoken : s₁.machine.getter g = .wokenNew := by
    rw [← hs₁]
    simp [Dynamic.next, Machine.next, Machine.wake, Machine.putSection, hwait, GetPc.wake]
  have hnew : ¬ s₁.machine.shared.stream.NothingNew (s₁.machine.idxOf conn g) := by
    rw [Stream.NothingNew, Machine.idxOf, hshared,
      show (s.machine.shared.put v).bufferIdx (conn g) = s.machine.shared.stream.putIdx from hidx]
    simpa [Shared.put, Stream.put] using h0.ne'
  obtain ⟨w, hw⟩ := (s₁.machine.getSection conn g).exists_signal
  have hconn₁ : s₁.connected (conn g) = true := by
    rw [← hs₁]
    exact hconn
  have hget : DynamicStep conn s₁ (.thread (.get g w)) (s₁.next conn (.thread (.get g w))) :=
    ⟨⟨⟨.inr hwoken, hnew, hw⟩, Dynamic.forall_getter hconn₁⟩, rfl⟩
  have hshared' : (s₁.next conn (.thread (.get g w))).machine.shared =
      (s.machine.shared.put v).get (conn g) := by
    rw [← hshared]
    exact Machine.wake_shared _ _
  refine ⟨_, _, (Run.nil.snoc hput).snoc hget,
    ⟨(hinv.step hput).step hget, hconn₁, ?_, ?_⟩, hshared'⟩
  · exact Machine.getter_wake (Function.update_self _ _ _)
  · rw [hshared']
    simp [Shared.get, Stream.get, Shared.put, Stream.put, hidx]

/-- It waits for the next put, which wakes it, and gets the value. -/
theorem round (h : AtPut conn s g) (hn : n ≤ 9999) (hne : s.puts ≠ [])
    (hlt : s.puts.length < bufferSize) (h0 : 0 < s.machine.shared.stream.numConsumers) :
    ∃ tr s', Run (DynamicStep conn) s tr s' ∧ AtPut conn s' g ∧
      s'.puts.length = s.puts.length + 1 ∧
      s'.machine.shared.stream.numConsumers = s.machine.shared.stream.numConsumers ∧
      ∀ i, i ≠ s.machine.shared.stream.putIdx →
        s'.machine.shared.stream.bufferReadCount i = s.machine.shared.stream.bufferReadCount i := by
  have hfree := h.inv.not_putWaits hn hlt
  have hnothing : s.machine.shared.stream.NothingNew (s.machine.idxOf conn g) := by
    rw [Stream.NothingNew, Machine.idxOf, h.bufferIdx]
    exact Nat.not_lt.1 hfree
  have hs₁ : DynamicStep conn s (.thread (.getWaitNew g)) _ :=
    ⟨⟨⟨h.pastAhead, hnothing⟩, Dynamic.forall_getter h.connected⟩, rfl⟩
  obtain ⟨tr, e, f, t, v, hloop, hr⟩ := (h.inv.step hs₁).exists_putter hn hne hlt
  have hinv := hr.inv (h.inv.step hs₁) fun _ _ _ hi hs => hi.step hs
  obtain ⟨tr', s', hr', hat, hshared⟩ := of_put (g := g) hinv h.connected h.bufferIdx
    (Function.update_self _ _ _) hloop hfree h0
  refine ⟨_, s', ((Run.nil.snoc hs₁).append hr).append hr', hat, ?_, ?_, ?_⟩
  · rw [Dynamic.puts, hshared]
    exact List.length_append
  · rw [hshared]
    rfl
  · intro i hi
    rw [hshared]
    have hi' : i ≠ s.machine.shared.bufferIdx (conn g) := h.bufferIdx ▸ hi
    exact (Function.update_of_ne hi' _ _).trans (Function.update_of_ne hi _ _)

/-- While it follows `put` around the ring nobody else reads the first slot, and it gets the old
value there in the end. -/
theorem exists_stale (h : AtPut conn s g) (hn : n ≤ 9999) (hne : s.puts ≠ [])
    (hle : s.puts.length ≤ bufferSize)
    (hfirst : s.machine.shared.stream.bufferReadCount 0 < s.machine.shared.stream.numConsumers)
    (hp : 0 < p) : ∃ tr s', Run (DynamicStep conn) s tr s' ∧ ¬ FreshFrom p s' (conn g) := by
  -- by induction on the number of slots before it is there
  induction hk : bufferSize - s.puts.length generalizing s with
  | zero =>
    have hlen : s.puts.length = bufferSize := Nat.le_antisymm hle (Nat.sub_eq_zero_iff_le.1 hk)
    have hputIdx : s.machine.shared.stream.putIdx = 0 :=
      Fin.ext (by rw [h.inv.stamps.putIdx, show s.machine.shared.puts.length = 5 from hlen]; rfl)
    -- its value is the one of the first put, as there were only as many as slots
    have hold : ∀ k, s.stamp s.machine.shared.stream.putIdx = some k → k < p := by
      intro k hstamp
      have hmod := (h.inv.stamps.value _ _ hstamp).1
      have hlt : k < s.puts.length := h.inv.stamps.lt hstamp
      rw [hputIdx] at hmod
      rw [hlen] at hlt
      rw [Nat.mod_eq_of_lt hlt] at hmod
      exact hmod ▸ hp
    obtain ⟨l, s', hs, hfresh⟩ := h.stale (by rwa [hputIdx]) hold
    exact ⟨_, s', Run.nil.snoc hs, hfresh⟩
  | succ k ih =>
    have hlt : s.puts.length < bufferSize := by omega
    have hputIdx : (0 : Slot) ≠ s.machine.shared.stream.putIdx := by
      intro h0
      have hidx := h.inv.stamps.putIdx_of_lt hlt
      rw [← h0] at hidx
      exact hne (List.length_eq_zero_iff.1 hidx.symm)
    obtain ⟨tr, s₁, hr, hat, hlen, hnum, hcount⟩ := h.round hn hne hlt (Nat.zero_lt_of_lt hfirst)
    obtain ⟨tr', s', hr', hfresh⟩ := ih hat (List.ne_nil_of_length_pos (by omega)) (by omega)
      (by rwa [hcount 0 hputIdx, hnum]) (by omega)
    exact ⟨_, s', hr.append hr', hfresh⟩

end AtPut

/-! ## A newcomer that does not -/

/-- While all slots count as read before their first put, no thread gets anything but a value that
was put. -/
theorem DynamicInv.got_step [Fintype π] {s s' : Dynamic α π γ n} {l : DynamicLabel α π γ n}
    {c : Fin n} (h : DynamicInv conn s) (hn : n ≤ 9999) (hs : DynamicStep conn s l s')
    (hgot : FreshFrom 0 s c) : FreshFrom 0 s' c := by
  obtain ⟨hen, rfl⟩ := hs
  cases l with
  | connect c wake => exact hgot
  | thread l =>
    cases l with
    | semWait | putWait | put | getWaitAhead | getWaitNew | spurious => exact hgot
    | get g wake =>
      have hnew : ¬ _ ≤ _ := hen.1.2.1
      have hwritten : s.stamp (s.machine.shared.bufferIdx (conn g)) ≠ none := by
        rcases Nat.lt_or_ge (s.machine.shared.bufferIdx (conn g)) s.puts.length with hlt | hge
        · exact (h.stamps.written _ hlt).1
        · have hcount := (h.stamps.unwritten _ hge).2.1
          exact absurd ((h.num_le.trans hn).trans hcount) hnew
      by_cases hc : c = conn g
      · subst hc
        simp only [FreshFrom, Dynamic.next, Label.op, Dynamic.observe, Function.update_self]
        refine List.forall_mem_append.2 ⟨hgot, List.forall_mem_singleton.2 ?_⟩
        obtain ⟨k, hk⟩ := Option.ne_none_iff_exists'.1 hwritten
        exact ⟨k, hk, Nat.zero_le k⟩
      · simpa only [FreshFrom, Dynamic.next, Label.op, Dynamic.observe,
          Function.update_of_ne hc] using hgot

/-! ## The newcomers that see only fresh values -/

/-- Whatever else has happened, a consumer that connects after a put can get a value from before. -/
theorem DynamicInv.exists_stale [Fintype π] {s : Dynamic α π γ n} {g : γ} {wake : Option (π ⊕ γ)}
    (h : DynamicInv conn s) (hc : s.connected (conn g) = false)
    (hlate : ¬ (s.puts = [] ∧ n ≤ 9999)) :
    ∃ tr s', Run (DynamicStep conn) (s.next conn (.connect (conn g) wake)) tr s' ∧
      ¬ FreshFrom s.puts.length s' (conn g) := by
  have hat : AtPut conn (s.next conn (.connect (conn g) wake)) g := .of_connect h hc
  have hshared : (s.next conn (.connect (conn g) wake)).machine.shared =
      s.machine.shared.connect (conn g) := Machine.wake_shared _ _
  have hstamp : (s.next conn (.connect (conn g) wake)).stamp = s.stamp := rfl
  generalize s.next conn (.connect (conn g) wake) = s₁ at hat hshared hstamp
  have hputs : s₁.puts = s.puts := by rw [Dynamic.puts, hshared]; rfl
  have hnum : s₁.machine.shared.stream.numConsumers =
      s.machine.shared.stream.numConsumers + 1 := by rw [hshared]; rfl
  have hcount : s₁.machine.shared.stream.bufferReadCount =
      s.machine.shared.stream.bufferReadCount := by rw [hshared]; rfl
  have hputIdx : s₁.machine.shared.stream.putIdx = s.machine.shared.stream.putIdx := by
    rw [hshared]; rfl
  rcases Nat.lt_or_ge s.puts.length bufferSize with hlt | hge
  · by_cases hn : n ≤ 9999
    · have hne : s.puts ≠ [] := fun hnil => hlate ⟨hnil, hn⟩
      have hpos : 0 < s.puts.length := List.length_pos_iff.2 hne
      refine hat.exists_stale hn (hputs ▸ hne) (hputs ▸ hlt.le) ?_ hpos
      rw [hcount, hnum]
      exact Nat.lt_succ_of_le (h.stamps.written 0 hpos).2
    · -- nobody has put anything there, and more consumers can connect than its first count
      have hidx := h.stamps.putIdx_of_lt hlt
      have hunwritten := h.stamps.unwritten _ hidx.ge
      obtain ⟨tr, s₂, hr, hat₂, hstamp₂, hstream₂⟩ := hat.connect_all
      have hunread : s₂.machine.shared.stream.bufferReadCount s₂.machine.shared.stream.putIdx <
          s₂.machine.shared.stream.numConsumers := by
        have hlt := h.num_lt hc
        rw [hstream₂]
        dsimp only
        rw [hputIdx, hcount]
        omega
      have hold : ∀ k, s₂.stamp s₂.machine.shared.stream.putIdx = some k → k < s.puts.length := by
        intro k hk
        rw [hstream₂, hstamp₂, hstamp, hputIdx, hunwritten.1] at hk
        cases hk
      obtain ⟨l, s₃, hs, hfresh⟩ := hat₂.stale hunread hold
      exact ⟨_, s₃, hr.snoc hs, hfresh⟩
  · have hwritten := h.stamps.written s.machine.shared.stream.putIdx
      (Nat.lt_of_lt_of_le (Fin.isLt _) hge)
    have hunread : s₁.machine.shared.stream.bufferReadCount s₁.machine.shared.stream.putIdx <
        s₁.machine.shared.stream.numConsumers := by
      rw [hputIdx, hcount, hnum]
      exact Nat.lt_succ_of_le hwritten.2
    have hold : ∀ k, s₁.stamp s₁.machine.shared.stream.putIdx = some k → k < s.puts.length := by
      intro k hk
      rw [hstamp, hputIdx] at hk
      exact h.stamps.lt hk
    obtain ⟨l, s₂, hs, hfresh⟩ := hat.stale hunread hold
    exact ⟨_, s₂, Run.nil.snoc hs, hfresh⟩

/-- **A consumer sees only fresh values exactly when it connects before the first put** and there
are no more than `9999` consumers, so that no slot looks unread before it is written. -/
theorem newcomer_fresh_iff [Fintype π] {buffer : Slot → α}
    {tr : List (Step (Dynamic α π γ n) (DynamicLabel α π γ n))} {s : Dynamic α π γ n} {g : γ}
    (h : DynamicRun conn buffer tr s) (hc : s.connected (conn g) = false) :
    OnlyFresh conn s (conn g) ↔ s.puts = [] ∧ n ≤ 9999 := by
  have hinv := DynamicInv.of_run h
  constructor
  · intro hfresh
    by_contra hlate
    obtain ⟨w, hw⟩ := s.machine.exists_signal
    obtain ⟨tr', s', hr, hold⟩ := hinv.exists_stale hc hlate
    exact hold (hfresh w _ ⟨⟨hc, hw⟩, rfl⟩ tr' s' hr)
  · rintro ⟨hputs, hn⟩ wake s₁ hs tr' s' hr
    have hgot : FreshFrom 0 s₁ (conn g) := by
      rw [FreshFrom, hs.2, show (s.next conn (.connect (conn g) wake)).got = s.got from rfl,
        hinv.got _ hc]
      exact fun x => nofun
    rw [hputs]
    exact (hr.inv (I := fun s => DynamicInv conn s ∧ FreshFrom 0 s (conn g))
      ⟨hinv.step hs, hgot⟩ fun _ _ _ hi hs => ⟨hi.1.step hs, hi.1.got_step hn hs hi.2⟩).2

/-- The values `1` to `5`, put before anybody connects. -/
def fivePuts : List (DynamicLabel Nat Unit (Fin 1) 1) :=
  [1, 2, 3, 4, 5].flatMap fun v => [.thread (.semWait () v), .thread (.put () v none)]

/-- The state they lead to. -/
def fivePutsEnd : Dynamic Nat Unit (Fin 1) 1 :=
  fivePuts.foldl (Dynamic.next id) (Dynamic.init fun _ => 0)

theorem fivePuts_run : ∃ tr, DynamicRun id (fun _ => 0) tr fivePutsEnd := by
  have hen : EnabledAll (Dynamic.Enabled id) (Dynamic.next id)
      (Dynamic.init fun _ => 0 : Dynamic Nat Unit (Fin 1) 1) fivePuts := by decide
  obtain ⟨tr, hr, -⟩ := hen.run
  exact ⟨tr, hr⟩

/-- The first consumer gets the value `1`, the put number `0`, although it connected after it. -/
theorem newcomer_gets_first : ¬ ∀ tr s c,
    DynamicRun id (fun _ => 0) tr (s : Dynamic Nat Unit (Fin 1) 1) → s.connected c = false →
    OnlyFresh id s c := by
  intro hall
  obtain ⟨tr, hr⟩ := fivePuts_run
  have hconnect : DynamicStep id fivePutsEnd (.connect 0 none) _ := ⟨by decide, rfl⟩
  have hget : DynamicStep id (fivePutsEnd.next id (.connect 0 none)) (.thread (.get 0 none)) _ :=
    ⟨by decide, rfl⟩
  have hfresh := hall tr _ 0 hr (by decide) none _ hconnect _ _ (Run.nil.snoc hget)
  obtain ⟨k, hk, hp⟩ := hfresh (some 0) (by decide)
  cases hk
  exact absurd hp (by decide)

theorem newcomer_fresh_iff_fivePuts : OnlyFresh id fivePutsEnd 0 ↔
    fivePutsEnd.puts = [] ∧ 1 ≤ 9999 := by
  obtain ⟨tr, hr⟩ := fivePuts_run
  exact newcomer_fresh_iff (g := 0) hr (by decide)

end Eece4029
