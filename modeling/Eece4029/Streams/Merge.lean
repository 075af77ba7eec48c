import Eece4029.Streams.Workers
import Mathlib.Data.Int.ConditionallyCompleteOrder
import Mathlib.Order.ConditionallyCompleteLattice.Basic

/-!
# `merge` puts the sorted merge of its producers

`merge` holds one token of each of its first two producers, puts the smaller one and gets the next
one from where it came; of two equal ones it puts the second one. `mergeRun_merged` says that its
puts are what a merge of the two sequences puts out (`Merged`), whatever the producers deliver in
order, and `merge_sorted` what that means at the head of its loop.
-/

namespace Eece4029

variable {ι α : Type}

/-- The local variables of `merge`: what it got and put, and the two tokens that it holds. -/
structure MergeState where
  worker : Worker
  a : Int
  b : Int
deriving DecidableEq, Repr

/-- `merge` before its loop: `p1`, `p2` and the first token of each. -/
def mergeStart (net : Network ι α) (deliver : Nat → Nat → Int) (self : ι) :
    Except Stop (Ptr × Ptr × MergeState) := do
  let p1 := (net.stream self).prodHead
  let head ← net.heap.load p1
  let p2 := head.next
  let (a, w) ← Worker.init.get net.heap deliver p1
  let (b, w) ← w.get net.heap deliver p2
  return (p1, p2, ⟨w, a, b⟩)

/-- The body of the loop of `merge`. -/
def mergeStep (net : Network ι α) (deliver : Nat → Nat → Int) :
    Ptr × Ptr × MergeState → Except Stop (Ptr × Ptr × MergeState)
  | (p1, p2, s) =>
    if s.a < s.b then do
      let (a, w) ← (s.worker.put s.a).get net.heap deliver p1
      return (p1, p2, { s with worker := w, a := a })
    else do
      let (b, w) ← (s.worker.put s.b).get net.heap deliver p2
      return (p1, p2, { s with worker := w, b := b })

/-- `merge` at the head of its loop after `n` rounds. -/
def mergeRun (net : Network ι α) (deliver : Nat → Nat → Int) (self : ι) :
    Nat → Except Stop (Ptr × Ptr × MergeState)
  | 0 => mergeStart net deliver self
  | n + 1 => do
    let s ← mergeRun net deliver self n
    mergeStep net deliver s

variable {net : Network ι α} {self : ι} {deliver : Nat → Nat → Int} {x y : Nat} {l : List Nat}

/-- The thread has put out what a merge of its two producers puts out that has taken `i` and `j`
tokens, and holds the next two. -/
structure AtLoopHead (deliver : Nat → Nat → Int) (x y i j : Nat) (s : MergeState) : Prop where
  merged : Merged (deliver x) (deliver y) i j s.worker.puts
  takenLeft : s.worker.taken x = i + 1
  takenRight : s.worker.taken y = j + 1
  a : s.a = deliver x i
  b : s.b = deliver y j

/-- The two producers of the thread are live blocks, and different ones. -/
theorem merge_producers (hl : ProducerList net.heap (net.stream self) (x :: y :: l)) :
    x ≠ y ∧ (∃ c, net.heap.cell x = some c ∧ c.next = some y) ∧ ∃ c, net.heap.cell y = some c := by
  obtain ⟨⟨c, hc, -, hn⟩, ⟨d, hd, -⟩, -⟩ := hl.linked
  exact ⟨fun heq => (List.nodup_cons.1 hl.linked.nodup).1 (heq ▸ List.mem_cons_self),
    ⟨c, hc, hn⟩, d, hd⟩

/-- Before the first round it has put nothing and holds the first token of each producer. -/
theorem mergeStart_atLoopHead (hl : ProducerList net.heap (net.stream self) (x :: y :: l)) :
    ∃ s, mergeStart net deliver self = .ok (some x, some y, s) ∧
      AtLoopHead deliver x y 0 0 s := by
  obtain ⟨hxy, ⟨c, hc, hn⟩, d, hd⟩ := merge_producers hl
  have hx : (Worker.init.took deliver x).taken x = 1 := by
    rw [Worker.taken_took, if_pos rfl, Worker.taken_init]
  have hy : (Worker.init.took deliver x).taken y = 0 := by
    rw [Worker.taken_took, if_neg hxy, Worker.taken_init]
  refine ⟨⟨(Worker.init.took deliver x).took deliver y, deliver x 0, deliver y 0⟩, ?_,
    .nil, ?_, ?_, rfl, rfl⟩
  · have hhead : (net.stream self).prodHead = some x := hl.head
    simp only [mergeStart, hhead, Heap.load_some hc, hn, Worker.get_some hc, Worker.get_some hd, hy,
      Worker.taken_init, bind, Except.bind]
    rfl
  · rw [Worker.taken_took, if_neg hxy.symm, hx]
  · rw [Worker.taken_took, if_pos rfl, hy]

/-- A round takes the smaller of the two tokens, the second one if they are equal. -/
theorem AtLoopHead.step {i j : Nat} {s : MergeState}
    (hl : ProducerList net.heap (net.stream self) (x :: y :: l)) (hx : Monotone (deliver x))
    (hy : Monotone (deliver y)) (h : AtLoopHead deliver x y i j s) :
    ∃ s', mergeStep net deliver (some x, some y, s) = .ok (some x, some y, s') ∧
      (AtLoopHead deliver x y (i + 1) j s' ∨ AtLoopHead deliver x y i (j + 1) s') := by
  obtain ⟨hxy, ⟨c, hc, -⟩, d, hd⟩ := merge_producers hl
  by_cases hlt : s.a < s.b
  · refine ⟨⟨(s.worker.put s.a).took deliver x, deliver x (i + 1), s.b⟩, ?_,
      .inl ⟨?_, ?_, ?_, rfl, h.b⟩⟩
    · simp only [mergeStep, if_pos hlt, Worker.get_some hc, Worker.taken_put, h.takenLeft, bind,
        Except.bind]
      rfl
    · rw [Worker.puts_took, Worker.puts_put, h.a]
      exact h.merged.takeLeft hx hy (h.a ▸ h.b ▸ hlt)
    · rw [Worker.taken_took, if_pos rfl, Worker.taken_put, h.takenLeft]
    · rw [Worker.taken_took, if_neg hxy, Worker.taken_put, h.takenRight]
  · refine ⟨⟨(s.worker.put s.b).took deliver y, s.a, deliver y (j + 1)⟩, ?_,
      .inr ⟨?_, ?_, ?_, h.a, rfl⟩⟩
    · simp only [mergeStep, if_neg hlt, Worker.get_some hd, Worker.taken_put, h.takenRight, bind,
        Except.bind]
      rfl
    · rw [Worker.puts_took, Worker.puts_put, h.b]
      exact h.merged.takeRight hx hy (h.a ▸ h.b ▸ hlt)
    · rw [Worker.taken_took, if_neg hxy.symm, Worker.taken_put, h.takenLeft]
    · rw [Worker.taken_took, if_pos rfl, Worker.taken_put, h.takenRight]

/-- The thread merges, for any number of rounds. -/
theorem mergeRun_merged (hl : ProducerList net.heap (net.stream self) (x :: y :: l))
    (hx : Monotone (deliver x)) (hy : Monotone (deliver y)) (n : Nat) :
    ∃ s i j, mergeRun net deliver self n = .ok (some x, some y, s) ∧ i + j = n ∧
      AtLoopHead deliver x y i j s := by
  induction n with
  | zero =>
    obtain ⟨s, hrun, hs⟩ := mergeStart_atLoopHead hl
    exact ⟨s, 0, 0, hrun, rfl, hs⟩
  | succ n ih =>
    obtain ⟨s, i, j, hrun, rfl, hs⟩ := ih
    obtain ⟨s', hstep, hs'⟩ := hs.step hl hx hy
    have hrun' : mergeRun net deliver self (i + j + 1) = .ok (some x, some y, s') := by
      simp only [mergeRun, hrun, bind, Except.bind]
      exact hstep
    rcases hs' with hs' | hs'
    · exact ⟨s', i + 1, j, hrun', by omega, hs'⟩
    · exact ⟨s', i, j + 1, hrun', by omega, hs'⟩

/-! ## The sorted merge -/

/-- What `merge` has done when it has taken `i` and `j` tokens of the sequences `A` and `B` for its
first `n` puts: they are in order, they are those tokens and the smallest ones, with ties taken from
`B` first, and together with the two tokens that it holds they are the tokens it got. -/
structure SortedMerge (A B : Nat → Int) (n i j : Nat) (s : MergeState) : Prop where
  length : s.worker.puts.length = n
  sorted : s.worker.puts.Pairwise (· ≤ ·)
  taken : i + j = n ∧ s.worker.puts.Perm (firstOf A i ++ firstOf B j)
  smallest : ∀ v ∈ s.worker.puts, (∀ k, i ≤ k → v ≤ A k) ∧ ∀ l, j ≤ l → v ≤ B l
  ties : ∀ k l, A k = B l → k < i → l < j
  got : (s.worker.puts ++ [s.a, s.b]).Perm (firstOf A (i + 1) ++ firstOf B (j + 1))

/-- **`merge` outputs the sorted merge.** For any two producers that deliver tokens in order, at the
head of the loop after `n` puts, for every `n`; the tokens it got through the two connections are
the ones that `got` speaks of. -/
theorem merge_sorted (hl : ProducerList net.heap (net.stream self) (x :: y :: l))
    (hx : Monotone (deliver x)) (hy : Monotone (deliver y)) (n : Nat) :
    ∃ s i j, mergeRun net deliver self n = .ok (some x, some y, s) ∧
      s.worker.taken x = i + 1 ∧ s.worker.taken y = j + 1 ∧
      SortedMerge (deliver x) (deliver y) n i j s := by
  obtain ⟨s, i, j, hrun, rfl, hs⟩ := mergeRun_merged hl hx hy n
  refine ⟨s, i, j, hrun, hs.takenLeft, hs.takenRight, hs.merged.length, hs.merged.sorted,
    ⟨rfl, hs.merged.perm⟩, fun v => hs.merged.smallest hx hy, ?_, ?_⟩
  · intro k l heq hk
    by_contra hl
    exact absurd heq (hs.merged.leftFirst k hk l (Nat.not_lt.1 hl)).ne
  · rw [hs.a, hs.b]
    exact hs.merged.held

/-- The multiples of three through the first connection and those of five through the others. -/
def threesAndFives (c k : Nat) : Int := if c = 0 then 3 * (k + 1) else 5 * (k + 1)

theorem merge_sorted_threesAndFives : ∃ s i j,
    mergeRun twoProducers threesAndFives 0 7 = .ok (some 0, some 1, s) ∧
      s.worker.puts = [3, 5, 6, 9, 10, 12, 15] ∧
      SortedMerge (threesAndFives 0) (threesAndFives 1) 7 i j s := by
  have hmono : ∀ c, Monotone (threesAndFives c) := by
    intro c k l hkl
    unfold threesAndFives
    split <;> omega
  obtain ⟨s, i, j, hrun, -, -, hs⟩ := merge_sorted twoProducers_list (hmono 0) (hmono 1) 7
  refine ⟨s, i, j, hrun, ?_, hs⟩
  have hrun' : mergeRun twoProducers threesAndFives 0 7 = .ok (some 0, some 1, _) := rfl
  cases hrun'.symm.trans hrun
  rfl

end Eece4029
