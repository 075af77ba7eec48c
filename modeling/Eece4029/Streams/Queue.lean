import Eece4029.Lib.Fifo
import Eece4029.Streams.Broadcast

/-!
# A stream with one connection is a queue

With one connection there is no other consumer whose missing read could let a get overtake, so every
run delivers (`Streams.Broadcast`). The values that are put and not yet got are then a bounded FIFO
queue of `BUFFER_SIZE` values: a completed put appends to it and a completed get takes its first
value, in the order of the critical sections and whatever threads they belong to. `stream_is_queue`
is that refinement and what it means for the values.
-/

namespace Eece4029

open Transition

variable {α π γ : Type} [Fintype π] [DecidableEq π] [DecidableEq γ] {m m' : Machine α π γ 1}
  {conn : γ → Fin 1} {l : Label α π γ}

/-- The operation of the queue that a step is, with the value it puts or gets. -/
def queueOp (conn : γ → Fin 1) (x : Step (Machine α π γ 1) (Label α π γ)) : Option (Fifo.Op α) :=
  match x.label.op conn with
  | some (.put v) => some (.put v)
  | some (.get c) => some (.get (x.pre.shared.stream.get (x.pre.shared.bufferIdx c)).1)
  | none => none

/-- The values that are put and not yet got. -/
def pending (s : Shared α 1) : List α := s.puts.drop (s.reads 0)

/-- With one connection no get overtakes. -/
theorem not_overtakes (s : Shared α 1) (c : Fin 1) : ¬ s.Overtakes c := by
  rintro ⟨hreads, hbig | ⟨d, hfar⟩⟩
  · omega
  · rw [Subsingleton.elim d c, hreads] at hfar
    simp at hfar

/-- Every reachable state delivers. -/
theorem BroadcastInv.of_reachable {buffer : Slot → α}
    (h : Reachable (StreamStep conn) (Machine.init buffer) m) : BroadcastInv m.shared :=
  h.inv (I := fun m => BroadcastInv m.shared) (.init buffer 1) fun _ _ _ hi hs =>
    hi.step (fun c _ => not_overtakes _ c) hs

/-- A step is one of the queue, or it leaves the pending values alone. -/
theorem BroadcastInv.queueStep (h : BroadcastInv m.shared) (hs : StreamStep conn m l m') :
    (queueOp conn ⟨m, l, m'⟩ = none ∧ pending m'.shared = pending m.shared) ∨
      ∃ op, queueOp conn ⟨m, l, m'⟩ = some op ∧
        Fifo.QueueStep bufferSize (pending m.shared) op (pending m'.shared) := by
  have heff := hs.effect
  unfold queueOp
  dsimp only
  revert heff
  generalize l.op conn = o
  intro heff
  cases heff with
  | silent hs _ => exact .inl ⟨rfl, by rw [hs]⟩
  | token _ hs _ => exact .inl ⟨rfl, by rw [hs]; rfl⟩
  | put v hw hs _ =>
    refine .inr ⟨_, rfl, ?_⟩
    have hpend : pending m'.shared = pending m.shared ++ [v] := by
      rw [hs, pending, Shared.put_reads]
      exact List.drop_append_of_le_length (h.reads_le 0)
    rw [hpend]
    refine .put v ?_
    rw [pending, List.length_drop]
    exact Nat.sub_lt_left_of_lt_add (h.reads_le 0) (h.near_of_free hw 0)
  | get c hn hs _ =>
    obtain rfl := Subsingleton.elim c 0
    refine .inr ⟨_, rfl, ?_⟩
    have hlt := h.reads_lt hn (not_overtakes _ _)
    have hval : m.shared.puts[m.shared.reads 0] =
        (m.shared.stream.get (m.shared.bufferIdx 0)).1 := by
      rw [h.bufferIdx_eq]
      exact (h.recent _ _ (h.near 0) (List.getElem?_eq_getElem hlt)).symm
    have hpend : pending m.shared =
        (m.shared.stream.get (m.shared.bufferIdx 0)).1 :: pending m'.shared := by
      rw [hs, pending, pending, Shared.get_reads, List.drop_eq_getElem_cons hlt, hval]
      rfl
    rw [hpend]
    exact .get _

/-- A stream with one connection, after a run: its completed calls are a run of a bounded FIFO
queue, so the values got are a prefix of the values put and at most `BUFFER_SIZE` are missing; and a
value that has not been got is still in the buffer. -/
structure QueueSpec (conn : γ → Fin 1) (tr : List (Step (Machine α π γ 1) (Label α π γ)))
    (m : Machine α π γ 1) : Prop where
  refines : ∃ atr, Run (Fifo.QueueStep bufferSize) [] atr (pending m.shared) ∧
    atr.map (·.label) = tr.filterMap (queueOp conn)
  inOrder : Fifo.outputs (tr.filterMap (queueOp conn)) <+: Fifo.inputs (tr.filterMap (queueOp conn))
  bounded : (Fifo.inputs (tr.filterMap (queueOp conn))).length ≤
    (Fifo.outputs (tr.filterMap (queueOp conn))).length + bufferSize
  kept : Delivered m.shared

/-- **With one connection a stream is a linearizable bounded FIFO queue.** -/
theorem stream_is_queue {buffer : Slot → α} {tr : List (Step (Machine α π γ 1) (Label α π γ))}
    (h : StreamRun conn buffer tr m) : QueueSpec conn tr m := by
  obtain ⟨atr, hr, hops⟩ := h.simulates (fun m => pending m.shared) (queueOp conn)
    fun s l s' hs hstep => (BroadcastInv.of_reachable hs).queueStep hstep
  have hr' : Run (Fifo.QueueStep bufferSize) [] atr (pending m.shared) := by
    simpa [Machine.init, Shared.init, pending] using hr
  have hspec := Fifo.outputs_prefix hr'
  rw [hops] at hspec
  exact ⟨⟨atr, hr', hops⟩, hspec.1, hspec.2, (BroadcastInv.of_reachable ⟨tr, h⟩).delivered⟩

/-- Two threads put and one of two threads gets. -/
def twoPutters : List (Label Nat Bool Bool) :=
  [.semWait false 7, .semWait true 8, .put true 8 none, .put false 7 none, .get true none]

theorem stream_is_queue_twoPutters : ∃ tr, tr.map (·.label) = twoPutters ∧
    QueueSpec (fun _ => 0) tr
      (twoPutters.foldl (Machine.next fun _ => 0) (Machine.init fun _ => 0)) := by
  obtain ⟨tr, hr, hlabels⟩ := StreamRun.of_labels (n := 1) (fun _ : Bool => 0) (fun _ => 0)
    twoPutters (by decide)
  exact ⟨tr, hlabels, stream_is_queue hr⟩

end Eece4029
