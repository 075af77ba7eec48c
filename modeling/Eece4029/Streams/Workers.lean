import Eece4029.Lib.Merge
import Eece4029.Streams.Connections

/-!
# Threads that work on their producers

`times`, `merge` and `consumer` are threads that go along the list of producers of their stream, get
from them and put into their own stream. What such a thread sees of a producer is what its calls of
`get` deliver, one token after the other; a `Worker` keeps the gets and the puts that the thread has
made. `consumer` takes one token from every producer and goes on to the next with `p = p->next`
(`consumer_rounds`).
-/

namespace Eece4029

variable {ι α : Type}

/-- The gets of a thread, each with the connection and the token, and its puts. -/
structure Worker where
  gets : List (Nat × Int)
  puts : List Int
deriving DecidableEq, Repr

namespace Worker

/-- Nothing got and nothing put. -/
def init : Worker := ⟨[], []⟩

/-- The number of tokens taken through the connection. -/
def taken (w : Worker) (c : Nat) : Nat := (w.gets.map (·.1)).count c

/-- The thread after a get through the connection. -/
def took (deliver : Nat → Nat → Int) (w : Worker) (c : Nat) : Worker :=
  { w with gets := w.gets ++ [(c, deliver c (w.taken c))] }

/-- `get(p)`, where the connection `c` delivers the tokens `deliver c`. -/
def get (heap : Heap (Producer ι)) (deliver : Nat → Nat → Int) (w : Worker) :
    Ptr → Except Stop (Int × Worker)
  | none => .error .null
  | some c => do
    let _ ← heap.load (some c)
    return (deliver c (w.taken c), w.took deliver c)

/-- `put` of a token. -/
def put (w : Worker) (value : Int) : Worker := { w with puts := w.puts ++ [value] }

variable {heap : Heap (Producer ι)} {deliver : Nat → Nat → Int} {w : Worker} {c d : Nat}
  {value : Int}

theorem get_some {x : Producer ι} (hc : heap.cell c = some x) :
    w.get heap deliver (some c) = .ok (deliver c (w.taken c), w.took deliver c) := by
  simp only [get, Heap.load_some hc]
  rfl

@[simp] theorem taken_init : init.taken c = 0 := rfl

@[simp] theorem taken_put : (w.put value).taken c = w.taken c := rfl

@[simp] theorem puts_put : (w.put value).puts = w.puts ++ [value] := rfl

@[simp] theorem puts_took : (w.took deliver c).puts = w.puts := rfl

/-- A get takes a token from its connection and from no other one. -/
theorem taken_took : (w.took deliver c).taken d = w.taken d + if c = d then 1 else 0 := by
  simp only [taken, took, List.map_append, List.map_cons, List.map_nil, List.count_append,
    List.count_singleton, beq_iff_eq]

end Worker

/-! ## The consumer -/

/-- The loop of `consumer` over the producers from `p` on. -/
def consumerPass (heap : Heap (Producer ι)) (deliver : Nat → Nat → Int) :
    Nat → Ptr → Worker → Except Stop Worker
  | _, none, w => .ok w
  | 0, some _, _ => .error .fuel
  | fuel + 1, some p, w => do
    let (_, w) ← w.get heap deliver (some p)
    let c ← heap.load (some p)
    consumerPass heap deliver fuel c.next w

/-- `rounds` rounds of the outer loop of `consumer`, of which it makes ten. -/
def consumerRounds (heap : Heap (Producer ι)) (deliver : Nat → Nat → Int) (fuel : Nat)
    (head : Ptr) : Nat → Except Stop Worker
  | 0 => .ok .init
  | rounds + 1 => do
    let w ← consumerRounds heap deliver fuel head rounds
    consumerPass heap deliver fuel head w

/-- `consumer`. -/
def consumer (net : Network ι α) (deliver : Nat → Nat → Int) (fuel : Nat) (self : ι) :
    Except Stop Worker :=
  consumerRounds net.heap deliver fuel (net.stream self).prodHead 10

variable {heap : Heap (Producer ι)} {deliver : Nat → Nat → Int} {w : Worker} {l : List Nat}
  {before : Ptr} {fuel : Nat}

/-- A pass takes one token from every producer, in list order. -/
theorem consumerPass_linked (hl : Linked Producer.next Producer.prev heap before l none)
    (hfuel : l.length ≤ fuel) :
    consumerPass heap deliver fuel l.head? w = .ok (l.foldl (Worker.took deliver) w) := by
  induction l generalizing before fuel w with
  | nil => cases fuel <;> rfl
  | cons c l ih =>
    obtain ⟨⟨x, hx, -, hn⟩, htail⟩ := hl
    rw [Option.or_none] at hn
    cases fuel with
    | zero => exact absurd hfuel (Nat.not_succ_le_zero _)
    | succ fuel =>
      have hrest := ih (w := w.took deliver c) htail (Nat.le_of_succ_le_succ hfuel)
      rw [← hn] at hrest
      simp only [List.head?_cons, consumerPass, Worker.get_some hx, Heap.load_some hx, bind,
        Except.bind, List.foldl_cons]
      exact hrest

/-- A pass over producers that are all different takes one token more from each of them. -/
theorem taken_foldl (hl : l.Nodup) {c : Nat} :
    (l.foldl (Worker.took deliver) w).taken c = w.taken c + if c ∈ l then 1 else 0 := by
  induction l generalizing w with
  | nil => rfl
  | cons d l ih =>
    obtain ⟨hd, hl⟩ := List.nodup_cons.1 hl
    rw [List.foldl_cons, ih hl, Worker.taken_took]
    by_cases hcd : d = c
    · subst hcd
      simp [hd]
    · simp [hcd, Ne.symm hcd]

/-- **`consumer` serves every producer**: after any number of rounds it has taken as many tokens
from each. -/
theorem consumer_rounds {net : Network ι α} {self : ι}
    (hl : ProducerList net.heap (net.stream self) l) (rounds : Nat) :
    ∃ w, consumerRounds net.heap deliver l.length (net.stream self).prodHead rounds = .ok w ∧
      ∀ c ∈ l, w.taken c = rounds := by
  induction rounds with
  | zero => exact ⟨_, rfl, fun _ _ => rfl⟩
  | succ rounds ih =>
    obtain ⟨w, hw, hall⟩ := ih
    refine ⟨l.foldl (Worker.took deliver) w, ?_, ?_⟩
    · simp only [consumerRounds, hw, bind, Except.bind]
      rw [hl.head]
      exact consumerPass_linked hl.linked (Nat.le_refl _)
    · intro c hc
      rw [taken_foldl hl.linked.nodup, if_pos hc, hall c hc]

/-- The stream `0` with two producers. -/
def twoProducers : Network (Fin 3) Nat where
  stream i :=
    { initStream (fun _ => 0) with
      prodHead := if i = 0 then some 0 else none
      prodCurr := if i = 0 then some 1 else none }
  heap := ((Heap.empty.malloc ⟨0, 1, some 1, none⟩).2.malloc ⟨0, 2, none, some 0⟩).2

theorem twoProducers_list : ProducerList twoProducers.heap (twoProducers.stream 0) [0, 1] :=
  ⟨rfl, rfl, ⟨_, rfl, rfl, rfl⟩, ⟨_, rfl, rfl, rfl⟩, trivial⟩

end Eece4029
