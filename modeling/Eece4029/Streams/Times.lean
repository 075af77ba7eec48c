import Eece4029.Streams.Workers

/-!
# `times` serves its first producer only

The loops of `times` are those of `consumer`: again and again, from `prod_head` on, while `p` is not
`NULL`, get from `p`. But nothing in the body of the inner loop moves `p` on, as `p = p->next` does
in `consumer`, so the first pass never ends and all tokens are the ones of the first producer.
`times_round_robin_iff` says when this makes no difference.
-/

namespace Eece4029

variable {ι α : Type}

/-! ## The two loops -/

/-- One evaluation of the condition of the inner loop of `times`, and what follows it. -/
def timesStep (net : Network ι α) (deliver : Nat → Nat → Int) (self : ι) (multiplier : Int) :
    Ptr × Worker → Except Stop (Ptr × Worker)
  -- the pass is over and the next one starts
  | (none, w) => .ok ((net.stream self).prodHead, w)
  | (some p, w) => do
    let (in_, w) ← w.get net.heap deliver (some p)
    return (some p, w.put (in_ * multiplier))

/-- `times` after `n` of them. -/
def timesRun (net : Network ι α) (deliver : Nat → Nat → Int) (self : ι) (multiplier : Int) :
    Nat → Except Stop (Ptr × Worker)
  | 0 => .ok ((net.stream self).prodHead, .init)
  | n + 1 => do
    let s ← timesRun net deliver self multiplier n
    timesStep net deliver self multiplier s

/-- The producers `l` are served in turn: the gets are passes over the list, the
last one of which may not be complete, every connection has given its tokens in their order, the
puts are the tokens multiplied, and no producer is more than one token ahead of another one. -/
structure RoundRobin (deliver : Nat → Nat → Int) (l : List Nat) (multiplier : Int) (w : Worker) :
    Prop where
  order : ∃ passes, w.gets.map (·.1) <+: (List.replicate passes l).flatten
  tokens : ∀ c, (w.gets.filter fun x => x.1 = c).map (·.2) = firstOf (deliver c) (w.taken c)
  values : w.puts = w.gets.map fun x => x.2 * multiplier
  fair : ∀ c ∈ l, ∀ d ∈ l, w.taken c ≤ w.taken d + 1

/-! ## What it does -/

/-- The thread that has taken `n` tokens through one connection and has put them multiplied. -/
def Worker.ofOne (deliver : Nat → Nat → Int) (multiplier : Int) (c n : Nat) : Worker where
  gets := (firstOf (deliver c) n).map (Prod.mk c)
  puts := (firstOf (deliver c) n).map (· * multiplier)

variable {deliver : Nat → Nat → Int} {multiplier : Int} {c d n : Nat} {l : List Nat}

theorem Worker.fst_ofOne : (ofOne deliver multiplier c n).gets.map (·.1) = List.replicate n c := by
  simp only [ofOne, List.map_map, Function.comp_def, List.map_const', length_firstOf]

/-- All tokens are those of the connection. -/
theorem Worker.taken_ofOne :
    (ofOne deliver multiplier c n).taken d = if c = d then n else 0 := by
  simp only [taken, fst_ofOne, List.count_replicate, beq_iff_eq]

theorem Worker.length_ofOne : (ofOne deliver multiplier c n).puts.length = n := by
  simp [ofOne]

/-- One more token of the connection. -/
theorem Worker.ofOne_succ : ((ofOne deliver multiplier c n).took deliver c).put
    (deliver c n * multiplier) = ofOne deliver multiplier c (n + 1) := by
  have htaken : (ofOne deliver multiplier c n).taken c = n := by rw [taken_ofOne, if_pos rfl]
  unfold took put
  rw [htaken]
  simp [ofOne, firstOf_succ]

/-- Every value that `times` puts is a token of its first producer. -/
theorem timesRun_eq {net : Network ι α} {self : ι}
    (hl : ProducerList net.heap (net.stream self) (c :: l)) :
    timesRun net deliver self multiplier n = .ok (some c, .ofOne deliver multiplier c n) := by
  induction n with
  | zero => exact congrArg (fun p => Except.ok (p, Worker.init)) hl.head
  | succ n ih =>
    obtain ⟨x, hx, -⟩ := hl.linked.1
    have htaken : (Worker.ofOne deliver multiplier c n).taken c = n := by
      rw [Worker.taken_ofOne, if_pos rfl]
    simp only [timesRun, ih, timesStep, bind, Except.bind, Worker.get_some hx, htaken]
    exact congrArg (fun w => Except.ok (some c, w)) Worker.ofOne_succ

/-- One token after the other from one connection is in turn when there is no other connection, or
at most one token. -/
theorem Worker.roundRobin_ofOne (hnodup : (c :: l).Nodup) :
    RoundRobin deliver (c :: l) multiplier (ofOne deliver multiplier c n) ↔ l = [] ∨ n ≤ 1 := by
  refine ⟨?_, ?_⟩
  · intro h
    rcases l with _ | ⟨d, l⟩
    · exact .inl rfl
    · have hcd : c ≠ d := fun heq => (List.nodup_cons.1 hnodup).1 (heq ▸ List.mem_cons_self)
      have hfair := h.fair c List.mem_cons_self d (List.mem_cons_of_mem c List.mem_cons_self)
      rw [taken_ofOne, taken_ofOne, if_pos rfl, if_neg hcd] at hfair
      exact .inr hfair
  · intro h
    have htaken : ∀ d, (ofOne deliver multiplier c n).taken d ≤ n := by
      intro d
      rw [taken_ofOne]
      split <;> omega
    refine ⟨?_, ?_, ?_, ?_⟩
    · refine ⟨n, ?_⟩
      rw [fst_ofOne]
      rcases h with rfl | hn
      · rw [List.flatten_replicate_singleton]
      · obtain rfl | rfl : n = 0 ∨ n = 1 := by omega
        · exact List.nil_prefix
        · simp
    · intro d
      rw [taken_ofOne]
      by_cases hcd : c = d
      · subst hcd
        simp [ofOne, List.filter_map, Function.comp_def]
      · simp [ofOne, hcd]
    · simp [ofOne, Function.comp_def]
    · intro d hd e he
      rcases h with rfl | hn
      · rw [List.mem_singleton.1 hd, List.mem_singleton.1 he]
        exact Nat.le_succ _
      · exact (htaken d).trans (hn.trans (Nat.le_add_left 1 _))

/-- **Exactly when `times` serves all of its producers**: after `n` puts, there is only one, or `n`
is at most one. -/
theorem times_round_robin_iff {net : Network ι α} {self : ι}
    (hl : ProducerList net.heap (net.stream self) l) (hne : l ≠ []) (deliver : Nat → Nat → Int)
    (multiplier : Int) (n : Nat) :
    ∃ p w, timesRun net deliver self multiplier n = .ok (p, w) ∧ w.puts.length = n ∧
      (RoundRobin deliver l multiplier w ↔ l.length = 1 ∨ n ≤ 1) := by
  obtain ⟨c, l, rfl⟩ := List.exists_cons_of_ne_nil hne
  refine ⟨_, _, timesRun_eq hl, Worker.length_ofOne, ?_⟩
  rw [Worker.roundRobin_ofOne hl.linked.nodup]
  simp

/-! ## Two producers -/

/-- With two producers, both of the first two tokens are of the first one. -/
theorem times_starves : ¬ ∀ (net : Network (Fin 3) Nat) (l : List Nat)
    (deliver : Nat → Nat → Int) (multiplier : Int) (n : Nat),
    ProducerList net.heap (net.stream 0) l → l ≠ [] →
      ∃ p w, timesRun net deliver 0 multiplier n = .ok (p, w) ∧
        RoundRobin deliver l multiplier w := by
  intro h
  obtain ⟨p, w, hrun, hrr⟩ :=
    h twoProducers [0, 1] (fun _ k => k) 5 2 twoProducers_list (List.cons_ne_nil 0 [1])
  rw [timesRun_eq twoProducers_list] at hrun
  cases hrun
  exact absurd (hrr.fair 0 (by decide) 1 (by decide)) (by decide)

theorem times_round_robin_iff_twoProducers : ∃ p w,
    timesRun twoProducers (fun _ k => k) 0 5 1 = .ok (p, w) ∧
      RoundRobin (fun _ k => k) [0, 1] 5 w := by
  obtain ⟨p, w, hrun, -, hiff⟩ := times_round_robin_iff twoProducers_list (List.cons_ne_nil 0 [1])
    (fun _ k => k) 5 1
  exact ⟨p, w, hrun, hiff.2 (.inr (Nat.le_refl 1))⟩

end Eece4029
