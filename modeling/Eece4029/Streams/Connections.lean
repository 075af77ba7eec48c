import Eece4029.Lib.LinkedList
import Eece4029.Lib.Run
import Eece4029.Streams.Stream

/-!
# Connecting and disconnecting streams

Every stream has a doubly linked list of the producers that it consumes from: a `producer_t` for
each connection, from `prod_head` to `prod_curr`. `stream_connect` puts a new one at the end, and
`stream_disconnect` looks for the first one of a producer, takes it out and frees it. Here are the
two functions with the `producer_t` as blocks of a heap, sequences of their calls, and what
`stream_disconnect` does to a list that is whole.
-/

namespace Eece4029

open Transition

/-- `struct producer_t`. -/
structure Producer (ι : Type) where
  bufferIdx : Slot
  stream : ι
  next : Ptr
  prev : Ptr

/-- `struct stream_t` with the list of its producers. -/
structure LinkedStream (α : Type) extends Stream α where
  prodHead : Ptr
  prodCurr : Ptr

/-- The streams and the `producer_t` of their connections. -/
structure Network (ι α : Type) where
  stream : ι → LinkedStream α
  heap : Heap (Producer ι)

variable {ι α : Type} [DecidableEq ι]

namespace Network

/-- Streams after `init_stream`. -/
def init (buffer : ι → Slot → α) : Network ι α :=
  ⟨fun i => { initStream (buffer i) with prodHead := none, prodCurr := none }, .empty⟩

/-- The network with another stream `i`. -/
def setStream (s : Network ι α) (i : ι) (f : LinkedStream α → LinkedStream α) : Network ι α :=
  { s with stream := Function.update s.stream i (f (s.stream i)) }

/-- The block that `stream_connect` fills in before it is put into a list. -/
def newProducer (s : Network ι α) (out : ι) : Producer ι :=
  { bufferIdx := (streamConnect (s.stream out).toStream).1, stream := out, next := none,
    prev := none }

/-- `stream_connect`. The signals at its end wake threads only. -/
def streamConnect (s : Network ι α) (in_ out : ι) : Except Stop (Network ι α) := do
  let (p, heap) := s.heap.malloc (s.newProducer out)
  let s := { s with heap := heap }
  let s ←
    if (s.stream in_).prodHead = none then
      pure (s.setStream in_ fun i => { i with prodHead := some p, prodCurr := some p })
    else do
      let heap ← s.heap.store (some p) fun c => { c with prev := (s.stream in_).prodCurr }
      let heap ← heap.store (s.stream in_).prodCurr fun c => { c with next := some p }
      pure ({ s with heap := heap }.setStream in_ fun i => { i with prodCurr := some p })
  return s.setStream out fun o =>
    { o with numConsumers := (Eece4029.streamConnect o.toStream).2.numConsumers }

/-- The loop of `stream_disconnect`: the first block of the list with the producer `out`. -/
def findProducer (heap : Heap (Producer ι)) (out : ι) : Nat → Ptr →
    Except Stop (Option (Nat × Producer ι))
  | _, none => .ok none
  | 0, some _ => .error .fuel
  | fuel + 1, some p => do
    let c ← heap.load (some p)
    if c.stream = out then
      return some (p, c)
    else
      findProducer heap out fuel c.next

/-- The pointers of the neighbours of the block `c`. The ones of the block itself stay. -/
def unlinkProducer (heap : Heap (Producer ι)) (c : Producer ι) :
    Except Stop (Heap (Producer ι)) :=
  if c.prev = none then
    .ok heap
  else do
    let heap ← heap.store c.prev fun b => { b with next := c.next }
    if c.next = none then
      return heap
    else
      heap.store c.next fun b => { b with prev := c.prev }

/-- The producer has one consumer less: every slot that was read by someone has one reader less. -/
def loseConsumer (o : LinkedStream α) : LinkedStream α :=
  { o with
    numConsumers := o.numConsumers - 1
    bufferReadCount := fun i =>
      if 0 < o.bufferReadCount i then o.bufferReadCount i - 1 else o.bufferReadCount i }

/-- `stream_disconnect`, where the loop may take `fuel` rounds. -/
def streamDisconnect (fuel : Nat) (s : Network ι α) (in_ out : ι) :
    Except Stop (Network ι α) := do
  match ← findProducer s.heap out fuel (s.stream in_).prodHead with
  | none => return s
  | some (p, c) =>
    let heap ← unlinkProducer s.heap c
    let heap ← heap.free (some p)
    return { s with heap := heap }.setStream out loseConsumer

end Network

/-! ## Sequences of calls -/

/-- A connection: its `producer_t` and the two streams. -/
structure Connection (ι : Type) where
  node : Nat
  consumer : ι
  producer : ι

/-- The network, and as an observation the connections that were made and not since disconnected,
oldest first. -/
structure Wiring (ι α : Type) where
  net : Network ι α
  conns : List (Connection ι)

/-- A call of `stream_connect(in, out)` or `stream_disconnect(in, out)`. -/
inductive WireCall (ι : Type)
  | connect (in_ out : ι)
  | disconnect (in_ out : ι)

/-- The connection is one from `out` to `in_`. -/
def Connection.between (in_ out : ι) (c : Connection ι) : Bool :=
  c.consumer = in_ ∧ c.producer = out

/-- The connections that the stream consumes from. -/
def into (i : ι) (conns : List (Connection ι)) : List (Connection ι) :=
  conns.filter fun c => c.consumer = i

namespace Wiring

/-- No connection has been made. -/
def init (buffer : ι → Slot → α) : Wiring ι α := ⟨.init buffer, []⟩

/-- The `producer_t` that should be in the list of the stream. -/
def nodes (w : Wiring ι α) (i : ι) : List Nat := (into i w.conns).map (·.node)

end Wiring

/-- The step of a call that returns. Connecting makes a new connection, and disconnecting ends the
oldest one between the two streams. -/
inductive WireStep : Wiring ι α → WireCall ι → Wiring ι α → Prop
  | connect {w : Wiring ι α} {in_ out : ι} {net : Network ι α}
      (h : w.net.streamConnect in_ out = .ok net) :
      WireStep w (.connect in_ out)
        ⟨net, w.conns ++ [⟨(w.net.heap.malloc (w.net.newProducer out)).1, in_, out⟩]⟩
  | disconnect {w : Wiring ι α} {in_ out : ι} {net : Network ι α} {fuel : Nat}
      (h : w.net.streamDisconnect fuel in_ out = .ok net) :
      WireStep w (.disconnect in_ out) ⟨net, w.conns.eraseP (Connection.between in_ out)⟩

/-- `tr` is a run of calls that return, from streams after `init_stream`. -/
abbrev WiringRun (buffer : ι → Slot → α) (tr : List (Step (Wiring ι α) (WireCall ι)))
    (w : Wiring ι α) : Prop :=
  Run WireStep (Wiring.init buffer) tr w

/-- The list of a stream: from `prod_head` on, `next` visits exactly the blocks of `l` and then
ends, they are live and `prev` goes back along them, and `prod_curr` is the last of them. -/
structure ProducerList (heap : Heap (Producer ι)) (s : LinkedStream α) (l : List Nat) : Prop where
  head : s.prodHead = l.head?
  curr : s.prodCurr = l.getLast?
  linked : Linked Producer.next Producer.prev heap none l none

/-! ## What the two functions do -/

variable {s : Network ι α} {in_ out i o : ι} {l : List Nat} {a : Nat} {fuel : Nat}
  {heap : Heap (Producer ι)} {c : Producer ι}

namespace Network

theorem stream_setStream {f : LinkedStream α → LinkedStream α} :
    (s.setStream i f).stream o = if o = i then f (s.stream i) else s.stream o :=
  Function.update_apply _ _ _ _

@[simp] theorem heap_setStream {f : LinkedStream α → LinkedStream α} :
    (s.setStream i f).heap = s.heap := rfl

/-- An assignment to other fields keeps the ends of the list of every stream. -/
theorem ends_setStream {f : LinkedStream α → LinkedStream α}
    (hf : ∀ o, (f o).prodHead = o.prodHead ∧ (f o).prodCurr = o.prodCurr) :
    ((s.setStream i f).stream o).prodHead = (s.stream o).prodHead ∧
      ((s.setStream i f).stream o).prodCurr = (s.stream o).prodCurr := by
  rw [stream_setStream]
  split
  · next h => rw [h]; exact hf _
  · exact ⟨rfl, rfl⟩

/-- The two assignments of `stream_connect` to streams: the ends of the list of `in_`, and the
number of consumers of `out`. -/
theorem stream_connect (in_ out : ι) {f g : LinkedStream α → LinkedStream α}
    (hf : ∀ o, (f o).numConsumers = o.numConsumers)
    (hg : ∀ o, (g o).prodHead = o.prodHead ∧ (g o).prodCurr = o.prodCurr ∧
      (g o).numConsumers = o.numConsumers + 1) :
    (((s.setStream in_ f).setStream out g).stream in_).prodHead = (f (s.stream in_)).prodHead ∧
    (((s.setStream in_ f).setStream out g).stream in_).prodCurr = (f (s.stream in_)).prodCurr ∧
    (∀ i, i ≠ in_ →
      (((s.setStream in_ f).setStream out g).stream i).prodHead = (s.stream i).prodHead ∧
      (((s.setStream in_ f).setStream out g).stream i).prodCurr = (s.stream i).prodCurr) ∧
    ∀ o, (((s.setStream in_ f).setStream out g).stream o).numConsumers =
      (s.stream o).numConsumers + if o = out then 1 else 0 := by
  have hends := fun i => ends_setStream (s := s.setStream in_ f) (i := out) (o := i) (f := g)
    fun o => ⟨(hg o).1, (hg o).2.1⟩
  refine ⟨?_, ?_, ?_, ?_⟩
  · rw [(hends in_).1, stream_setStream, if_pos rfl]
  · rw [(hends in_).2, stream_setStream, if_pos rfl]
  · intro i hi
    rw [(hends i).1, (hends i).2, stream_setStream, if_neg hi]
    exact ⟨rfl, rfl⟩
  · have hfirst : ∀ o, ((s.setStream in_ f).stream o).numConsumers =
        (s.stream o).numConsumers := by
      intro o
      rw [stream_setStream]
      split
      · next h => rw [h, hf]
      · rfl
    intro o
    rw [stream_setStream]
    split
    · next h => rw [h, (hg _).2.2, hfirst]
    · rw [hfirst, Nat.add_zero]

/-- The stream that a block is a connection to. -/
def target (heap : Heap (Producer ι)) (a : Nat) : Option ι := (heap.cell a).map (·.stream)

omit [DecidableEq ι] in
/-- Assignments to the pointers of a block do not change what it is a connection to. -/
theorem target_upd {f : Producer ι → Producer ι} (hf : ∀ c, (f c).stream = c.stream) (b : Nat) :
    target (heap.upd a f) b = target heap b := by
  unfold target
  by_cases hb : b = a
  · subst hb
    cases h : heap.cell b <;> simp [h, hf]
  · rw [Heap.cell_upd, Function.update_of_ne hb]

/-- The loop finds the first block of the list that is a connection to `out`. -/
theorem findProducer_found {front back : List Nat} {before : Ptr}
    (hl : Linked Producer.next Producer.prev heap before (front ++ a :: back) none)
    (hfront : ∀ b ∈ front, target heap b ≠ some out) (ha : heap.cell a = some c)
    (hc : c.stream = out) :
    findProducer heap out fuel (front ++ a :: back).head? =
      if front.length < fuel then .ok (some (a, c)) else .error .fuel := by
  induction front generalizing before fuel with
  | nil =>
    cases fuel with
    | zero => rfl
    | succ fuel =>
      simp only [List.nil_append, List.head?_cons, findProducer, Heap.load_some ha, List.length_nil,
        if_pos (Nat.succ_pos fuel)]
      exact if_pos hc
  | cons b front ih =>
    obtain ⟨⟨d, hd, -, hn⟩, htail⟩ := hl
    cases fuel with
    | zero => rfl
    | succ fuel =>
      have hne : d.stream ≠ out := fun h => hfront b List.mem_cons_self (by simp [target, hd, h])
      have hnext : d.next = (front ++ a :: back).head? := by rw [hn, Option.or_none]; rfl
      have hrest : findProducer heap out fuel (front ++ a :: back).head? = _ :=
        ih htail fun b hb => hfront b (List.mem_cons_of_mem _ hb)
      simp only [List.cons_append, List.head?_cons, findProducer, Heap.load_some hd,
        List.length_cons, Nat.add_lt_add_iff_right, ← hrest, ← hnext]
      exact if_neg hne

/-- The loop comes to the end of a list without a connection to `out`. -/
theorem findProducer_none {before : Ptr}
    (hl : Linked Producer.next Producer.prev heap before l none)
    (hall : ∀ b ∈ l, target heap b ≠ some out) :
    findProducer heap out fuel l.head? = if l.length ≤ fuel then .ok none else .error .fuel := by
  induction l generalizing before fuel with
  | nil =>
    cases fuel <;> rfl
  | cons b l ih =>
    obtain ⟨⟨d, hd, -, hn⟩, htail⟩ := hl
    cases fuel with
    | zero => rfl
    | succ fuel =>
      have hne : d.stream ≠ out := fun h => hall b List.mem_cons_self (by simp [target, hd, h])
      have hnext : d.next = l.head? := by rw [hn, Option.or_none]
      have hrest : findProducer heap out fuel l.head? = _ :=
        ih htail fun b hb => hall b (List.mem_cons_of_mem _ hb)
      simp only [List.head?_cons, findProducer, Heap.load_some hd, List.length_cons,
        Nat.add_le_add_iff_right, ← hrest, ← hnext]
      exact if_neg hne

/-- The heap after the pointers of the neighbours of the block `c` were set. -/
def unlinked (heap : Heap (Producer ι)) (c : Producer ι) : Heap (Producer ι) :=
  match c.prev, c.next with
  | none, _ => heap
  | some x, none => heap.upd x fun b => { b with next := none }
  | some x, some y =>
    (heap.upd x fun b => { b with next := some y }).upd y fun b => { b with prev := some x }

omit [DecidableEq ι] in
/-- Where the neighbours of a block are live their pointers can be set. -/
theorem unlinkProducer_eq (hp : ∀ x, c.prev = some x → heap.Live x)
    (hn : ∀ y, c.next = some y → heap.Live y) :
    unlinkProducer heap c = .ok (unlinked heap c) := by
  obtain ⟨idx, stream, next, prev⟩ := c
  cases prev with
  | none => rfl
  | some x =>
    obtain ⟨b, hb⟩ := Option.ne_none_iff_exists'.1 (hp x rfl)
    cases next with
    | none =>
      simp only [unlinkProducer, Heap.store_some hb]
      rfl
    | some y =>
      have hy : ((heap.upd x fun b => { b with next := some y }).cell y).isSome := by
        by_cases hxy : y = x
        · simp [hxy, hb]
        · simpa [Function.update_of_ne hxy] using Option.isSome_iff_ne_none.2 (hn y rfl)
      obtain ⟨d, hd⟩ := Option.isSome_iff_exists.1 hy
      simp only [unlinkProducer, Heap.store_some hb]
      exact Heap.store_some hd

omit [DecidableEq ι] in
theorem target_unlinked (b : Nat) : target (unlinked heap c) b = target heap b := by
  unfold unlinked
  split
  · rfl
  · exact target_upd (by simp) b
  · exact (target_upd (by simp) b).trans (target_upd (by simp) b)

omit [DecidableEq ι] in
/-- A block is live exactly when it is a connection to something. -/
theorem live_iff_target : heap.Live a ↔ target heap a ≠ none := by
  simp [Heap.Live, target]

omit [DecidableEq ι] in
/-- The neighbours of a block in a list are live. -/
theorem live_neighbours {front back : List Nat}
    (hl : Linked Producer.next Producer.prev heap none (front ++ a :: back) none)
    (ha : heap.cell a = some c) :
    c.prev = front.getLast? ∧ c.next = back.head? ∧ (∀ x, c.prev = some x → heap.Live x) ∧
      ∀ y, c.next = some y → heap.Live y := by
  have hlive := hl.live
  obtain ⟨-, ⟨d, hd, hp, hn⟩, -⟩ := linked_append.1 hl
  rw [ha] at hd
  cases hd
  rw [Option.or_none] at hp hn
  refine ⟨hp, hn, ?_, ?_⟩
  · intro x hx
    refine hlive x (List.mem_append_left _ (List.mem_of_getLast? (hp.symm.trans hx)))
  · intro y hy
    exact hlive y (List.mem_append_right _ (List.mem_cons_of_mem _
      (List.mem_of_head? (hn.symm.trans hy))))

/-- `stream_disconnect` where there is no connection to `out` does nothing. -/
theorem streamDisconnect_none (hl : ProducerList s.heap (s.stream in_) l)
    (hall : ∀ b ∈ l, target s.heap b ≠ some out) :
    s.streamDisconnect fuel in_ out = if l.length ≤ fuel then .ok s else .error .fuel := by
  unfold streamDisconnect
  rw [hl.head, findProducer_none hl.linked hall]
  split <;> rfl

/-- `stream_disconnect` sets the pointers of the neighbours of the first connection to `out` and
frees it. -/
theorem streamDisconnect_found {front back : List Nat}
    (hl : ProducerList s.heap (s.stream in_) (front ++ a :: back))
    (hfront : ∀ b ∈ front, target s.heap b ≠ some out) (ha : s.heap.cell a = some c)
    (hc : c.stream = out) :
    s.streamDisconnect fuel in_ out =
      if front.length < fuel then
        .ok ({ s with heap := (unlinked s.heap c).drop a }.setStream out loseConsumer)
      else
        .error .fuel := by
  obtain ⟨-, -, hprev, hnext⟩ := live_neighbours hl.linked ha
  have hlive : (unlinked s.heap c).Live a := by
    rw [live_iff_target, target_unlinked]
    simp [target, ha]
  obtain ⟨d, hd⟩ := Option.ne_none_iff_exists'.1 hlive
  unfold streamDisconnect
  rw [hl.head, findProducer_found hl.linked hfront ha hc]
  split
  · simp only [unlinkProducer_eq hprev hnext, Heap.free_some hd, bind, Except.bind]
    rfl
  · rfl

end Network

end Eece4029
