import Eece4029.Lib.Run
import Mathlib.Data.List.Basic

/-!
# Bounded FIFO queues

The abstract queue: its state is the list of the values in it, oldest first, and at most `cap` of
them. `Fifo.run_spec` is what a run of its operations means for a client: the values taken out and
the ones still in the queue are the values put in, in their order.
-/

namespace Fifo

open Transition

variable {α : Type} {cap : Nat} {q : List α}

/-- An operation with its value. -/
inductive Op (α : Type)
  | put (v : α)
  | get (v : α)
deriving DecidableEq

/-- The step of a queue with room for `cap` values. -/
inductive QueueStep (cap : Nat) : List α → Op α → List α → Prop
  | put {q : List α} (v : α) (h : q.length < cap) : QueueStep cap q (.put v) (q ++ [v])
  | get {q : List α} (v : α) : QueueStep cap (v :: q) (.get v) q

/-- The value that an operation puts in. -/
def Op.input : Op α → Option α
  | .put v => some v
  | .get _ => none

/-- The value that an operation takes out. -/
def Op.output : Op α → Option α
  | .put _ => none
  | .get v => some v

/-- The values put in, oldest first. -/
def inputs (ops : List (Op α)) : List α := ops.filterMap Op.input

/-- The values taken out, oldest first. -/
def outputs (ops : List (Op α)) : List α := ops.filterMap Op.output

/-- **A run of a queue from the empty one**: what came out and what is still in it is what went in,
and it holds at most `cap` values. -/
theorem run_spec {tr : List (Step (List α) (Op α))} (h : Run (QueueStep cap) [] tr q) :
    outputs (tr.map (·.label)) ++ q = inputs (tr.map (·.label)) ∧ q.length ≤ cap := by
  induction h with
  | nil => exact ⟨rfl, Nat.zero_le _⟩
  | @snoc tr q q' op _ hs ih =>
    obtain ⟨heq, hlen⟩ := ih
    simp only [outputs, inputs, List.map_append, List.filterMap_append] at heq ⊢
    cases hs with
    | put v hroom =>
      constructor
      · rw [← heq]
        simp [Op.output, Op.input]
      · rw [List.length_append, List.length_singleton]
        exact hroom
    | get v =>
      constructor
      · rw [← heq]
        simp [Op.output, Op.input]
      · rw [List.length_cons] at hlen
        omega

/-- What came out of a queue is a prefix of what went in, and at most `cap` values are missing. -/
theorem outputs_prefix {tr : List (Step (List α) (Op α))} (h : Run (QueueStep cap) [] tr q) :
    outputs (tr.map (·.label)) <+: inputs (tr.map (·.label)) ∧
      (inputs (tr.map (·.label))).length ≤ (outputs (tr.map (·.label))).length + cap := by
  obtain ⟨heq, hlen⟩ := run_spec h
  refine ⟨⟨q, heq⟩, ?_⟩
  rw [← heq, List.length_append]
  omega

end Fifo
