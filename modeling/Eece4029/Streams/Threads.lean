import Eece4029.Lib.Run
import Eece4029.Streams.Stream
import Mathlib.Data.Finset.Card
import Mathlib.Data.Fintype.Card
import Mathlib.Data.Fintype.Sum

/-!
# Threads that get and put

A machine is a stream with its connections and with threads that call `put` and `get`, over and over
again. Threads interleave at the points where `streams.c` lets them: a step is `sem_wait`, or all
that a thread does under the lock until it waits on `notifier` or unlocks, or a wake-up.
`pthread_cond_signal` comes last in a section, so it is part of the section's step; it removes one
arbitrary thread from the wait set of `notifier`, which the label names, and none only if the set is
empty. A woken thread is a thread that is about to evaluate the condition of its loop again; for
`get` that is the loop it has been waiting in, so a thread woken in the second loop does not come
back to the first one. `spurious` is a wake-up without a signal.

`π` are the threads that put, `γ` the threads that get, and `conn g` is the connection that the
thread `g` gets through, one of `n` that are all made before the first put.
-/

namespace Eece4029

open Transition

/-! ## Program counters -/

/-- Where a thread is that puts: before or in `sem_wait`, past it and before the loop, in the wait
set, or removed from it. -/
inductive PutPc (α : Type)
  | idle
  | entered (value : α)
  | waiting (value : α)
  | woken (value : α)
deriving DecidableEq

/-- Where a thread is that gets: before the lock, or in one of the two loops, in the wait set or
removed from it. -/
inductive GetPc
  | idle
  | waitAhead
  | wokenAhead
  | waitNew
  | wokenNew
deriving DecidableEq

variable {α π γ : Type} {n : Nat}

namespace PutPc

/-- In the wait set. -/
def isWaiting : PutPc α → Bool
  | .waiting _ => true
  | _ => false

/-- Past `sem_wait` and not yet at the end of the critical section. -/
def inPut : PutPc α → Bool
  | .idle => false
  | _ => true

/-- About to evaluate the condition of the loop. -/
def AtLoop (pc : PutPc α) (value : α) : Prop := pc = .entered value ∨ pc = .woken value

instance [DecidableEq α] (pc : PutPc α) (value : α) : Decidable (pc.AtLoop value) :=
  inferInstanceAs (Decidable (_ ∨ _))

/-- Removed from the wait set. -/
def wake : PutPc α → PutPc α
  | .waiting value => .woken value
  | pc => pc

@[simp] theorem inPut_wake (pc : PutPc α) : pc.wake.inPut = pc.inPut := by cases pc <;> rfl

theorem AtLoop.inPut {pc : PutPc α} {value : α} (h : pc.AtLoop value) : pc.inPut = true := by
  rcases h with rfl | rfl <;> rfl

end PutPc

namespace GetPc

/-- In the wait set. -/
def isWaiting : GetPc → Bool
  | .waitAhead | .waitNew => true
  | _ => false

/-- About to evaluate the condition of the first loop. -/
def atAhead : GetPc → Bool
  | .idle | .wokenAhead => true
  | _ => false

/-- Removed from the wait set. -/
def wake : GetPc → GetPc
  | .waitAhead => .wokenAhead
  | .waitNew => .wokenNew
  | pc => pc

end GetPc

/-! ## The shared state -/

/-- What the threads share: the stream and the `buffer_idx` of every connection. The last two fields
are observations, the values put and the values got through each connection, in the order of the
critical sections. -/
structure Shared (α : Type) (n : Nat) where
  stream : Stream α
  bufferIdx : Fin n → Slot
  puts : List α
  gets : Fin n → List α

namespace Shared

/-- The stream with `n` connections. -/
def init (buffer : Slot → α) (n : Nat) : Shared α n where
  stream := connected buffer n
  bufferIdx := fun c => (streamConnect (connected buffer c)).1
  puts := []
  gets := fun _ => []

theorem init_eq (buffer : Slot → α) (n : Nat) : init buffer n =
    ⟨{ initStream buffer with numConsumers := n }, fun _ => 0, [], fun _ => []⟩ := by
  simp [init, connected_eq, streamConnect, initStream]

/-- `sem_wait` takes one. -/
def semWait (s : Shared α n) : Shared α n :=
  { s with stream := { s.stream with empty := s.stream.empty - 1 } }

/-- `put` after its loop. -/
def put (s : Shared α n) (value : α) : Shared α n :=
  { s with stream := s.stream.put value, puts := s.puts ++ [value] }

/-- `get` through the connection `c` after its loops. -/
def get (s : Shared α n) (c : Fin n) : Shared α n :=
  let (ret, stream, bufferIdx) := s.stream.get (s.bufferIdx c)
  { s with
    stream := stream
    bufferIdx := Function.update s.bufferIdx c bufferIdx
    gets := Function.update s.gets c (s.gets c ++ [ret]) }

end Shared

/-! ## The machine -/

/-- The shared state and the threads. -/
structure Machine (α π γ : Type) (n : Nat) where
  shared : Shared α n
  putter : π → PutPc α
  getter : γ → GetPc

/-- A step of a thread; `wake` is the thread that its signal removes from the wait set. -/
inductive Label (α π γ : Type)
  | semWait (t : π) (value : α)
  | putWait (t : π) (value : α)
  | put (t : π) (value : α) (wake : Option (π ⊕ γ))
  | getWaitAhead (g : γ)
  | getWaitNew (g : γ)
  | get (g : γ) (wake : Option (π ⊕ γ))
  | spurious (t : π ⊕ γ)
deriving DecidableEq

/-- The thread that goes into the wait set. -/
def Label.waiter : Label α π γ → Option (π ⊕ γ)
  | .putWait t _ => some (.inl t)
  | .getWaitAhead g | .getWaitNew g => some (.inr g)
  | _ => none

/-- The step is a wake-up without a signal. -/
def Label.isSpurious : Label α π γ → Bool
  | .spurious _ => true
  | _ => false

namespace Machine

/-- All threads before their first call. -/
def init (buffer : Slot → α) : Machine α π γ n :=
  ⟨.init buffer n, fun _ => .idle, fun _ => .idle⟩

/-- The thread is in the wait set of `notifier`. -/
def Waits (m : Machine α π γ n) : π ⊕ γ → Prop
  | .inl t => (m.putter t).isWaiting = true
  | .inr g => (m.getter g).isWaiting = true

@[simp] theorem waits_inl {m : Machine α π γ n} {t : π} :
    m.Waits (.inl t) ↔ (m.putter t).isWaiting = true := Iff.rfl

@[simp] theorem waits_inr {m : Machine α π γ n} {g : γ} :
    m.Waits (.inr g) ↔ (m.getter g).isWaiting = true := Iff.rfl

instance (m : Machine α π γ n) : DecidablePred m.Waits
  | .inl t => inferInstanceAs (Decidable ((m.putter t).isWaiting = true))
  | .inr g => inferInstanceAs (Decidable ((m.getter g).isWaiting = true))

/-- What `pthread_cond_signal` may wake: any one thread of the wait set, none if it is empty. -/
def CanSignal (m : Machine α π γ n) : Option (π ⊕ γ) → Prop
  | none => ∀ t, ¬ m.Waits t
  | some t => m.Waits t

instance [Fintype π] [Fintype γ] (m : Machine α π γ n) : DecidablePred m.CanSignal
  | none => inferInstanceAs (Decidable (∀ t, ¬ m.Waits t))
  | some t => inferInstanceAs (Decidable (m.Waits t))

/-- The number of threads in `put` between `sem_wait` and the end of their critical section. -/
def inFlight [Fintype π] (m : Machine α π γ n) : Nat :=
  (Finset.univ.filter fun t => (m.putter t).inPut = true).card

/-- Threads that stay in `put` or outside of it do not change their number. -/
theorem inFlight_congr [Fintype π] {m m' : Machine α π γ n}
    (h : ∀ t, (m'.putter t).inPut = (m.putter t).inPut) : m'.inFlight = m.inFlight := by
  simp only [inFlight, h]

variable [DecidableEq π] [DecidableEq γ]

/-- The machine with the thread removed from the wait set. -/
def wake (m : Machine α π γ n) : Option (π ⊕ γ) → Machine α π γ n
  | none => m
  | some (.inl t) => { m with putter := Function.update m.putter t (m.putter t).wake }
  | some (.inr g) => { m with getter := Function.update m.getter g (m.getter g).wake }

/-- The section of `put` after its loop, up to the signal. -/
def putSection (m : Machine α π γ n) (t : π) (value : α) : Machine α π γ n :=
  { m with shared := m.shared.put value, putter := Function.update m.putter t .idle }

variable (conn : γ → Fin n)

/-- The section of `get` after its loops, up to the signal. -/
def getSection (m : Machine α π γ n) (g : γ) : Machine α π γ n :=
  { m with shared := m.shared.get (conn g), getter := Function.update m.getter g .idle }

/-- The `buffer_idx` that the thread gets at. -/
def idxOf (m : Machine α π γ n) (g : γ) : Slot := m.shared.bufferIdx (conn g)

/-- The thread is about to evaluate the condition of the second loop of `get`: the condition of the
first one is false, or that loop is behind it. -/
def PastAhead (m : Machine α π γ n) (g : γ) : Prop :=
  (m.getter g).atAhead = true ∧ ¬ m.shared.stream.GetAhead (m.idxOf conn g) ∨
    m.getter g = .wokenNew

instance (m : Machine α π γ n) : DecidablePred (m.PastAhead conn) := fun _ =>
  inferInstanceAs (Decidable (_ ∧ _ ∨ _))

/-- The condition of a step. -/
def Enabled (m : Machine α π γ n) : Label α π γ → Prop
  | .semWait t _ => (m.putter t).inPut = false ∧ 0 < m.shared.stream.empty
  | .putWait t value => (m.putter t).AtLoop value ∧ m.shared.stream.PutWaits
  | .put t value wake => (m.putter t).AtLoop value ∧ ¬ m.shared.stream.PutWaits ∧
      (m.putSection t value).CanSignal wake
  | .getWaitAhead g => (m.getter g).atAhead = true ∧ m.shared.stream.GetAhead (m.idxOf conn g)
  | .getWaitNew g => m.PastAhead conn g ∧ m.shared.stream.NothingNew (m.idxOf conn g)
  | .get g wake => m.PastAhead conn g ∧ ¬ m.shared.stream.NothingNew (m.idxOf conn g) ∧
      (m.getSection conn g).CanSignal wake
  | .spurious t => m.Waits t

/-- The state after a step. -/
def next (m : Machine α π γ n) : Label α π γ → Machine α π γ n
  | .semWait t value =>
    { m with shared := m.shared.semWait, putter := Function.update m.putter t (.entered value) }
  | .putWait t value => { m with putter := Function.update m.putter t (.waiting value) }
  | .put t value wake => (m.putSection t value).wake wake
  | .getWaitAhead g => { m with getter := Function.update m.getter g .waitAhead }
  | .getWaitNew g => { m with getter := Function.update m.getter g .waitNew }
  | .get g wake => (m.getSection conn g).wake wake
  | .spurious t => m.wake (some t)

instance [DecidableEq α] [Fintype π] [Fintype γ] (m : Machine α π γ n) :
    DecidablePred (m.Enabled conn)
  | .semWait _ _ => inferInstanceAs (Decidable (_ ∧ _))
  | .putWait _ _ => inferInstanceAs (Decidable (_ ∧ _))
  | .put _ _ _ => inferInstanceAs (Decidable (_ ∧ _ ∧ _))
  | .getWaitAhead _ => inferInstanceAs (Decidable (_ ∧ _))
  | .getWaitNew _ => inferInstanceAs (Decidable (_ ∧ _))
  | .get _ _ => inferInstanceAs (Decidable (_ ∧ _ ∧ _))
  | .spurious t => inferInstanceAs (Decidable (m.Waits t))

end Machine

variable [DecidableEq π] [DecidableEq γ] {conn : γ → Fin n}

/-- The step relation of the machine. -/
def StreamStep (conn : γ → Fin n) (m : Machine α π γ n) (l : Label α π γ)
    (m' : Machine α π γ n) : Prop :=
  m.Enabled conn l ∧ m' = m.next conn l

/-- `tr` is a run from the stream with `n` connections, on a buffer with any contents. -/
abbrev StreamRun (conn : γ → Fin n) (buffer : Slot → α)
    (tr : List (Step (Machine α π γ n) (Label α π γ))) (m : Machine α π γ n) : Prop :=
  Run (StreamStep conn) (Machine.init buffer) tr m

/-- Labels that are enabled one after the other, from the first state on, make a run. -/
theorem StreamRun.of_labels (conn : γ → Fin n) (buffer : Slot → α) (ls : List (Label α π γ))
    (h : EnabledAll (Machine.Enabled conn) (Machine.next conn) (Machine.init buffer) ls) :
    ∃ tr, StreamRun conn buffer tr (ls.foldl (Machine.next conn) (Machine.init buffer)) ∧
      tr.map (·.label) = ls :=
  h.run

/-! ## The wait set -/

namespace Machine

variable {m : Machine α π γ n} {l : Label α π γ} {t : π ⊕ γ} {w : Option (π ⊕ γ)}

/-- A signal takes the thread it wakes out of the wait set, and no other one. -/
theorem waits_wake : (m.wake w).Waits t ↔ m.Waits t ∧ w ≠ some t := by
  rcases w with _ | u | g
  · simp [wake]
  · rcases t with u' | g'
    · by_cases hu : u' = u
      · subst hu
        cases hpc : m.putter u' <;> simp [wake, hpc, PutPc.wake, PutPc.isWaiting]
      · simp [wake, Function.update_of_ne hu, Ne.symm hu]
    · simp [wake]
  · rcases t with u' | g'
    · simp [wake]
    · by_cases hg : g' = g
      · subst hg
        cases hpc : m.getter g' <;> simp [wake, hpc, GetPc.wake, GetPc.isWaiting]
      · simp [wake, Function.update_of_ne hg, Ne.symm hg]

omit [DecidableEq γ] in
/-- A thread at the end of its section of `put` is not in the wait set. -/
theorem waits_putSection {u : π} {value : α} :
    (m.putSection u value).Waits t ↔ m.Waits t ∧ t ≠ .inl u := by
  rcases t with u' | g'
  · by_cases hu : u' = u
    · subst hu
      simp [putSection, PutPc.isWaiting]
    · simp [putSection, hu]
  · simp [putSection]

omit [DecidableEq π] in
/-- A thread at the end of its section of `get` is not in the wait set. -/
theorem waits_getSection {g : γ} : (m.getSection conn g).Waits t ↔ m.Waits t ∧ t ≠ .inr g := by
  rcases t with u' | g'
  · simp [getSection]
  · by_cases hg : g' = g
    · subst hg
      simp [getSection, GetPc.isWaiting]
    · simp [getSection, hg]

/-- A step leads no thread into the wait set but the one that waits in it. -/
theorem waits_next (h : (m.next conn l).Waits t) : m.Waits t ∨ l.waiter = some t := by
  cases l with
  | semWait u value | putWait u value =>
    rcases t with u' | g'
    · by_cases hu : u' = u
      · subst hu
        first
        | exact .inr rfl
        | simp [next, PutPc.isWaiting] at h
      · exact .inl (by simpa [next, Function.update_of_ne hu] using h)
    · exact .inl h
  | getWaitAhead g | getWaitNew g =>
    rcases t with u' | g'
    · exact .inl h
    · by_cases hg : g' = g
      · subst hg
        exact .inr rfl
      · exact .inl (by simpa [next, Function.update_of_ne hg] using h)
  | put u value wake => exact .inl (waits_putSection.1 (waits_wake.1 h).1).1
  | get g wake => exact .inl (waits_getSection.1 (waits_wake.1 h).1).1
  | spurious u => exact .inl (waits_wake.1 h).1

end Machine

/-! ## What a step does to the shared state -/

namespace Machine

@[simp] theorem wake_shared (m : Machine α π γ n) (w : Option (π ⊕ γ)) :
    (m.wake w).shared = m.shared := by
  rcases w with _ | _ | _ <;> rfl

variable [Fintype π] {m : Machine α π γ n}

@[simp] theorem wake_inFlight (w : Option (π ⊕ γ)) : (m.wake w).inFlight = m.inFlight := by
  refine inFlight_congr ?_
  intro t
  rcases w with _ | t' | g
  · rfl
  · by_cases ht : t = t'
    · subst ht
      simp [wake]
    · simp [wake, Function.update_of_ne ht]
  · rfl

omit [DecidableEq γ] in
/-- A thread that leaves `put` is one less. -/
theorem inFlight_leave {m' : Machine α π γ n} {t : π} (ht : (m.putter t).inPut = true)
    (ht' : (m'.putter t).inPut = false) (h : ∀ u, u ≠ t → m'.putter u = m.putter u) :
    m'.inFlight + 1 = m.inFlight := by
  have hset : (Finset.univ.filter fun u => (m'.putter u).inPut = true) =
      (Finset.univ.filter fun u => (m.putter u).inPut = true).erase t := by
    ext u
    by_cases hu : u = t
    · subst hu
      simp [ht']
    · simp [h u hu, hu]
  rw [inFlight, hset]
  exact Finset.card_erase_add_one (by simp [ht])

end Machine

variable {m m' : Machine α π γ n} {l : Label α π γ}

/-- The visible part of a step: a completed put with its value, or a completed get with its
connection. -/
inductive StreamOp (α : Type) (n : Nat)
  | put (value : α)
  | get (c : Fin n)

/-- The completed call that a step is. -/
def Label.op (conn : γ → Fin n) : Label α π γ → Option (StreamOp α n)
  | .put _ value _ => some (.put value)
  | .get g _ => some (.get (conn g))
  | _ => none

/-- What a step does to the shared state and to the number of threads in `put`. -/
inductive StepEffect [Fintype π] (m m' : Machine α π γ n) : Option (StreamOp α n) → Prop
  | silent (hs : m'.shared = m.shared) (hf : m'.inFlight = m.inFlight) : StepEffect m m' none
  | token (h0 : 0 < m.shared.stream.empty) (hs : m'.shared = m.shared.semWait)
      (hf : m'.inFlight = m.inFlight + 1) : StepEffect m m' none
  | put (value : α) (hw : ¬ m.shared.stream.PutWaits) (hs : m'.shared = m.shared.put value)
      (hf : m'.inFlight + 1 = m.inFlight) : StepEffect m m' (some (.put value))
  | get (c : Fin n) (hn : ¬ m.shared.stream.NothingNew (m.shared.bufferIdx c))
      (hs : m'.shared = m.shared.get c) (hf : m'.inFlight = m.inFlight) :
      StepEffect m m' (some (.get c))

/-- Every step has one of the four effects. -/
theorem StreamStep.effect [Fintype π] (h : StreamStep conn m l m') :
    StepEffect m m' (l.op conn) := by
  obtain ⟨hen, rfl⟩ := h
  cases l with
  | semWait t value =>
    obtain ⟨hpc, h0⟩ := hen
    refine .token h0 rfl (Machine.inFlight_leave (t := t) ?_ hpc ?_).symm
    · simp [Machine.next, PutPc.inPut]
    · intro u hu
      exact (Function.update_of_ne hu _ _).symm
  | putWait t value =>
    refine .silent rfl (Machine.inFlight_congr ?_)
    intro u
    by_cases hu : u = t
    · subst hu
      rw [hen.1.inPut]
      simp [Machine.next, PutPc.inPut]
    · simp [Machine.next, Function.update_of_ne hu]
  | put t value wake =>
    obtain ⟨hpc, hw, -⟩ := hen
    refine .put value hw (by simp [Machine.next, Machine.putSection]) ?_
    rw [Machine.next, Machine.wake_inFlight]
    refine Machine.inFlight_leave (t := t) hpc.inPut ?_ ?_
    · simp [Machine.putSection, PutPc.inPut]
    · intro u hu
      exact Function.update_of_ne hu _ _
  | getWaitAhead g => exact .silent rfl rfl
  | getWaitNew g => exact .silent rfl rfl
  | get g wake =>
    refine .get (conn g) hen.2.1 (by simp [Machine.next, Machine.getSection]) ?_
    rw [Machine.next, Machine.wake_inFlight]
    rfl
  | spurious t => exact .silent (Machine.wake_shared _ _) (Machine.wake_inFlight _)

/-- A thread goes into the wait set from `put` only past `sem_wait`, and where the loop waits. -/
theorem StreamStep.putter_waits {t : π} (h : StreamStep conn m l m')
    (hw : (m.putter t).isWaiting = false) (hw' : (m'.putter t).isWaiting = true) :
    (m.putter t).inPut = true ∧ m.shared.stream.PutWaits := by
  obtain ⟨hen, rfl⟩ := h
  rcases Machine.waits_next (t := .inl t) hw' with hold | hnew
  · cases hw.symm.trans hold
  · cases l with
    | putWait u value =>
      cases hnew
      exact ⟨hen.1.inPut, hen.2⟩
    | semWait | put | getWaitAhead | getWaitNew | get | spurious => cases hnew

end Eece4029
