import Eece4029.Streams.Counting

/-!
# Which values a consumer gets

`put` writes over the oldest of `BUFFER_SIZE` values and trusts `buffer_read_count` that every
consumer has got it. The count does not say who the readers were, and a thread that waits in the
second loop of `get` does not look at `put_idx` again when it is woken. So a consumer that has got
every value can find the oldest one "unread", because another consumer is `BUFFER_SIZE` values
behind and still misses it: it gets that value a second time (`Shared.Overtakes`), and its read
counts for the consumer that has not got it. `broadcast_iff` says that this is all that can go
wrong: in a run without it every consumer has got a prefix of the values put, and no value is
overwritten before every consumer has got it.
-/

namespace Eece4029

open Transition

variable {α π γ : Type} {n : Nat}

/-! ## Values and slots -/

/-- The slot of the value number `k`. -/
def slotOf (k : Nat) : Slot := ⟨k % bufferSize, Nat.mod_lt k (by decide)⟩

@[simp] theorem slotOf_val (k : Nat) : (slotOf k : Nat) = k % bufferSize := rfl

/-- Two values less than a round apart are in different slots. -/
theorem slotOf_ne {j k : Nat} (hjk : j < k) (hk : k < j + bufferSize) : slotOf j ≠ slotOf k := by
  intro h
  have hmod := congrArg Fin.val h
  simp only [slotOf_val, bufferSize] at hmod hk
  omega

/-- A prefix continued by the next element is a prefix. -/
theorem prefix_snoc {l L : List α} {v : α} (h : l <+: L) (hv : L[l.length]? = some v) :
    l ++ [v] <+: L := by
  obtain ⟨t, rfl⟩ := h
  rw [List.getElem?_append_right (Nat.le_refl _), Nat.sub_self] at hv
  cases t with
  | nil => cases hv
  | cons x t =>
    cases hv
    exact ⟨t, by simp⟩

/-! ## Delivery -/

/-- What the consumers have got is a prefix of what was put, and a value that some consumer has not
got is still in the buffer. -/
structure Delivered (s : Shared α n) : Prop where
  inOrder : ∀ c, s.gets c <+: s.puts
  kept : ∀ c k v, s.reads c ≤ k → s.puts[k]? = some v → s.stream.buffer (slotOf k) = v

/-- The consumer has got every value, and the count of the next slot is short of a read that is not
its own: of a consumer that is `BUFFER_SIZE` values behind, or of the many consumers that `9999`
does not count. -/
def Shared.Overtakes (s : Shared α n) (c : Fin n) : Prop :=
  s.reads c = s.puts.length ∧ (9999 < n ∨ ∃ d, s.reads d + bufferSize = s.puts.length)

/-- Delivery, and what keeps it: no consumer is more than `BUFFER_SIZE` values behind, and the
buffer has the last `BUFFER_SIZE` values. -/
structure BroadcastInv (s : Shared α n) : Prop where
  shared : SharedInv s
  inOrder : ∀ c, s.gets c <+: s.puts
  near : ∀ c, s.puts.length ≤ s.reads c + bufferSize
  recent : ∀ k v, s.puts.length ≤ k + bufferSize → s.puts[k]? = some v →
    s.stream.buffer (slotOf k) = v

namespace BroadcastInv

variable {s : Shared α n}

/-- It holds when all connections are made. -/
theorem init (buffer : Slot → α) (n : Nat) : BroadcastInv (Shared.init buffer n) := by
  refine ⟨.init buffer n, ?_, ?_, ?_⟩
  · exact fun c => List.prefix_rfl
  · exact fun c => Nat.zero_le _
  · intro k v _ hv
    cases hv

/-- It implies delivery. -/
theorem delivered (h : BroadcastInv s) : Delivered s :=
  ⟨h.inOrder, fun c k v hk hv => h.recent k v ((h.near c).trans (Nat.add_le_add_right hk _)) hv⟩

theorem reads_le (h : BroadcastInv s) (c : Fin n) : s.reads c ≤ s.puts.length :=
  (h.inOrder c).length_le

theorem putIdx_eq (h : BroadcastInv s) : s.stream.putIdx = slotOf s.puts.length :=
  Fin.ext h.shared.putIdx

theorem bufferIdx_eq (h : BroadcastInv s) (c : Fin n) : s.bufferIdx c = slotOf (s.reads c) :=
  Fin.ext (h.shared.bufferIdx c)

/-- When the slot at `put_idx` is free, every consumer has got the value in it. -/
theorem near_of_free (h : BroadcastInv s) (hw : ¬ s.stream.PutWaits) (c : Fin n) :
    s.puts.length < s.reads c + bufferSize := by
  have hT := (h.shared.count _).full_iff.1 (h.shared.free_iff.1 hw)
  have hle : Ring.total bufferSize s.stream.putIdx s.reads ≤
      n * Ring.visits bufferSize s.stream.putIdx s.puts.length := by
    simpa using Ring.total_le_of_le h.reads_le
  rw [h.shared.putIdx] at hT hle
  refine (Ring.total_eq_iff (by decide) h.reads_le).1 ?_ c
  rw [Fintype.card_fin]
  omega

/-- A put keeps it. -/
theorem put (h : BroadcastInv s) (hw : ¬ s.stream.PutWaits) (v : α) : BroadcastInv (s.put v) := by
  have hlen : (s.put v).puts.length = s.puts.length + 1 := by simp [Shared.put]
  refine ⟨h.shared.put hw v, fun c => (h.inOrder c).trans (List.prefix_append _ _), ?_, ?_⟩
  · intro c
    rw [hlen]
    exact h.near_of_free hw c
  · intro k u hk hu
    rw [hlen] at hk
    have hbuf : (s.put v).stream.buffer = Function.update s.stream.buffer s.stream.putIdx v := rfl
    have hu' : (s.puts ++ [v])[k]? = some u := hu
    rw [hbuf, h.putIdx_eq]
    rcases Nat.lt_or_ge k s.puts.length with hlt | hge
    · rw [List.getElem?_append_left hlt] at hu'
      rw [Function.update_of_ne (slotOf_ne hlt (by omega))]
      exact h.recent k u (by omega) hu'
    · have hk' : k = s.puts.length := by
        have := (List.getElem?_eq_some_iff.1 hu').1
        rw [List.length_append, List.length_singleton] at this
        omega
      subst hk'
      rw [List.getElem?_concat_length] at hu'
      rw [Function.update_self]
      exact Option.some.inj hu'

/-- A consumer that finds something new and does not overtake has not got every value. -/
theorem reads_lt (h : BroadcastInv s) {c : Fin n} (hn : ¬ s.stream.NothingNew (s.bufferIdx c))
    (ho : ¬ s.Overtakes c) : s.reads c < s.puts.length := by
  refine Nat.lt_of_le_of_ne (h.reads_le c) fun heq => ho ⟨heq, ?_⟩
  by_contra hno
  obtain ⟨hbig, hfar⟩ := not_or.1 hno
  have hT := (h.shared.lt_iff _).1 ((h.shared.new_iff _).1 hn)
  rw [h.shared.bufferIdx, heq] at hT
  have hall := (Ring.total_eq_iff (m := bufferSize) (by decide) h.reads_le).2 fun d =>
    Nat.lt_of_le_of_ne (h.near d) fun hd => hfar ⟨d, hd.symm⟩
  rw [Fintype.card_fin] at hall
  omega

/-- A get that does not overtake keeps it. -/
theorem get (h : BroadcastInv s) {c : Fin n} (hn : ¬ s.stream.NothingNew (s.bufferIdx c))
    (ho : ¬ s.Overtakes c) : BroadcastInv (s.get c) := by
  have hlt := h.reads_lt hn ho
  have hval : s.puts[s.reads c]? = some (s.stream.buffer (s.bufferIdx c)) := by
    rw [h.bufferIdx_eq, List.getElem?_eq_getElem hlt]
    exact congrArg some (h.recent _ _ (h.near c) (List.getElem?_eq_getElem hlt)).symm
  refine ⟨h.shared.get hn, ?_, ?_, h.recent⟩
  · intro d
    by_cases hd : d = c
    · subst hd
      rw [show (s.get d).gets d = s.gets d ++ [s.stream.buffer (s.bufferIdx d)] from
        Function.update_self ..]
      exact prefix_snoc (h.inOrder d) hval
    · rw [show (s.get c).gets d = s.gets d from Function.update_of_ne hd _ _]
      exact h.inOrder d
  · intro d
    have hnear := h.near d
    by_cases hd : d = c
    · subst hd
      rw [s.get_reads]
      exact Nat.le_trans hnear (by omega)
    · rw [s.get_reads_of_ne hd]
      exact hnear

end BroadcastInv

/-! ## Runs -/

variable [Fintype π] [DecidableEq π] [DecidableEq γ] {m m' : Machine α π γ n} {conn : γ → Fin n}
  {l : Label α π γ}

/-- The step is not a get that overtakes. -/
def NoOvertaking (conn : γ → Fin n) (m : Machine α π γ n) (l : Label α π γ) : Prop :=
  ∀ c, l.op conn = some (.get c) → ¬ m.shared.Overtakes c

/-- A step without overtaking keeps the invariant. -/
theorem BroadcastInv.step (h : BroadcastInv m.shared) (ho : NoOvertaking conn m l)
    (hs : StreamStep conn m l m') : BroadcastInv m'.shared := by
  have heff := hs.effect
  unfold NoOvertaking at ho
  revert heff ho
  generalize l.op conn = o
  intro ho heff
  cases heff with
  | silent hs _ => exact hs ▸ h
  | token _ hs _ =>
    rw [hs]
    exact ⟨h.shared.semWait, h.inOrder, h.near, h.recent⟩
  | put v hw hs _ => exact hs ▸ h.put hw v
  | get c hn hs _ => exact hs ▸ h.get hn (ho c rfl)

/-- A get that overtakes leaves the consumer with more values than were put. -/
theorem StreamStep.noOvertaking (hs : StreamStep conn m l m') (hd : Delivered m'.shared) :
    NoOvertaking conn m l := by
  rintro c hop ⟨hreads, -⟩
  have heff := hs.effect
  rw [hop] at heff
  cases heff with
  | get _ _ hs _ =>
    have hle := (hd.inOrder c).length_le
    have hget := m.shared.get_reads c
    rw [hs] at hle
    simp only [Shared.reads] at hget hreads
    rw [hget, show (m.shared.get c).puts = m.shared.puts from rfl] at hle
    omega

/-- **Exactly when every consumer gets every value once and in order.** In a run, what the consumers
have got is at every moment a prefix of what was put, with no value overwritten before all have got
it, if and only if no get of the run overtakes. -/
theorem broadcast_iff {buffer : Slot → α} {tr : List (Step (Machine α π γ n) (Label α π γ))}
    (h : StreamRun conn buffer tr m) :
    (Delivered m.shared ∧ ∀ x ∈ tr, Delivered x.pre.shared ∧ Delivered x.post.shared) ↔
      ∀ x ∈ tr, NoOvertaking conn x.pre x.label := by
  refine h.forall_iff (I := fun m => BroadcastInv m.shared) (P := fun m => Delivered m.shared)
    (C := NoOvertaking conn) (.init buffer n) ?_ ?_ ?_
  · exact fun _ hi => hi.delivered
  · exact fun _ _ _ hi ho hs => hi.step ho hs
  · exact fun _ _ _ _ hs hd => hs.noOvertaking hd

/-- The first of two consumers is always back in the second loop before the next put, which wakes
it; the second one does not get anything. -/
def rereads : List (Label Nat Unit (Fin 2)) :=
  ((List.range 5).flatMap fun value =>
    [.getWaitNew 0, .semWait () value, .put () value (some (.inr 0)), .get 0 none]) ++ [.get 0 none]

/-- The state they lead to. -/
def rereadsEnd : Machine Nat Unit (Fin 2) 2 :=
  rereads.foldl (Machine.next id) (Machine.init fun _ => 0)

theorem rereads_run : ∃ tr, StreamRun id (fun _ => 0) tr rereadsEnd ∧ tr.map (·.label) = rereads :=
  StreamRun.of_labels (n := 2) id (fun _ => 0) rereads (by decide)

/-- The first consumer gets the first value a second time. -/
theorem rereads_not_delivered : ¬ ∀ tr m,
    StreamRun (id : Fin 2 → Fin 2) (fun _ => 0) tr (m : Machine Nat Unit (Fin 2) 2) →
      Delivered m.shared := by
  intro hall
  obtain ⟨tr, hr, -⟩ := rereads_run
  exact absurd ((hall tr rereadsEnd hr).inOrder 0) (by decide)

/-- One of its gets overtakes. -/
theorem broadcast_iff_rereads : ∃ tr, StreamRun id (fun _ => 0) tr rereadsEnd ∧
    ¬ ∀ x ∈ tr, NoOvertaking id x.pre x.label := by
  obtain ⟨tr, hr, -⟩ := rereads_run
  refine ⟨tr, hr, ?_⟩
  intro hno
  exact absurd (((broadcast_iff hr).2 hno).1.inOrder 0) (by decide)

end Eece4029
