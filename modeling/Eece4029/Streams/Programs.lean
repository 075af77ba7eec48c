import Eece4029.Lib.Dataflow
import Eece4029.Streams.Merge
import Eece4029.Streams.Times

/-!
# The thread functions as processes

`successor`, `times`, `merge` and `consumer` are the functions that `hw3_pthreads/streams.c` has for
a thread. Here each of them is a process (`Lib.Dataflow`): where it is between two calls of `get`
and `put`, and its local variables. `prods` are the connections of the list that starts at
`prod_head`, in list order; `sleep`, `malloc` of a token and the messages of `tprintf` are left out.

A process alone makes the calls of the loops of `Streams.Times`, `Streams.Merge` and
`Streams.Workers` over the `producer_t` of a heap (`timesThread_play`, `mergeThread_play`,
`consumerThread_play`).
-/

namespace Eece4029

open Dataflow

variable {κ : Type}

/-! ## The processes -/

/-- `successor`, before the put of `i`. -/
def successorThread (κ : Type) : Process κ Int where
  State := Int
  start := 1
  action i := .put i (i + 1)

/-- Where `times` is: before `get(p)`, or before the put of `out`. A list without a producer ends
with the message before the loop, which reads `p->stream`. -/
inductive TimesPc (κ : Type)
  | get (p : κ)
  | put (p : κ) (out : Int)
  | crashed

/-- `times`. -/
def timesThread (prods : List κ) (multiplier : Int) : Process κ Int where
  State := TimesPc κ
  start :=
    match prods with
    | [] => .crashed
    | p :: _ => .get p
  action
    | .get p => .get p fun in_ => .put p (in_ * multiplier)
    | .put p out => .put out (.get p)
    | .crashed => .stop

/-- Where `merge` is: before its first two gets, at the head of its loop, or before the get after a
put. `p2` is `NULL` when the list has one producer only. -/
inductive MergePc (κ : Type)
  | first (p1 : κ) (p2 : Option κ)
  | second (p1 : κ) (p2 : Option κ) (a : Int)
  | loop (p1 p2 : κ) (a b : Int)
  | nextA (p1 p2 : κ) (b : Int)
  | nextB (p1 p2 : κ) (a : Int)
  | crashed

/-- `merge`. -/
def mergeThread (prods : List κ) : Process κ Int where
  State := MergePc κ
  start :=
    match prods with
    | [] => .crashed
    | p1 :: rest => .first p1 rest.head?
  action
    | .first p1 p2 => .get p1 fun a => .second p1 p2 a
    | .second p1 (some p2) a => .get p2 fun b => .loop p1 p2 a b
    | .second _ none _ => .stop
    | .loop p1 p2 a b => if a < b then .put a (.nextA p1 p2 b) else .put b (.nextB p1 p2 a)
    | .nextA p1 p2 b => .get p1 fun a => .loop p1 p2 a b
    | .nextB p1 p2 a => .get p2 fun b => .loop p1 p2 a b
    | .crashed => .stop

/-- `consumer`, which makes ten rounds: the rounds to come, and the producers from `p` on. -/
def consumerThread (rounds : Nat) (prods : List κ) : Process κ Int where
  State := Nat × List κ
  start := (rounds, [])
  action
    | (rounds, c :: p) => .get c fun _ => (rounds, p)
    | (0, []) => .stop
    | (rounds + 1, []) =>
      match prods with
      | c :: p => .get c fun _ => (rounds, p)
      -- the rounds to come are over no producers
      | [] => .stop

/-! ## What they do alone -/

section
variable [DecidableEq κ] {deliver : κ → Nat → Int} {prods : List κ} {p p1 p2 : κ}

/-- `successor` puts the numbers from one on. -/
theorem successorThread_puts (deliver : κ → Nat → Int) (n : Nat) :
    ∃ es, (successorThread κ).play deliver n = ((n : Int) + 1, es) ∧
    puts es = firstOf (fun k => (k : Int) + 1) n := by
  induction n with
  | zero => exact ⟨[], rfl, rfl⟩
  | succ n ih =>
    obtain ⟨es, hplay, hputs⟩ := ih
    refine ⟨_, Process.play_put hplay rfl, ?_⟩
    rw [puts_append, hputs, firstOf_succ]
    rfl

/-- What `times` has done when it gets the sequence `A` from its first producer. -/
inductive TimesAt (A : Nat → Int) (multiplier : Int) (p : κ) :
    TimesPc κ → List (Transfer κ Int) → Prop
  | get {es : List (Transfer κ Int)} (m : Nat) (hg : (gots p es).length = m)
      (hp : puts es = firstOf (fun k => A k * multiplier) m) : TimesAt A multiplier p (.get p) es
  | put {es : List (Transfer κ Int)} (m : Nat) (hg : (gots p es).length = m + 1)
      (hp : puts es = firstOf (fun k => A k * multiplier) m) :
      TimesAt A multiplier p (.put p (A m * multiplier)) es

theorem timesThread_at {multiplier : Int} {n : Nat} {s : TimesPc κ} {es : List (Transfer κ Int)}
    (h : (timesThread (p :: prods) multiplier).play deliver n = (s, es)) :
    TimesAt (deliver p) multiplier p s es := by
  induction n generalizing s es with
  | zero =>
    cases h
    exact .get 0 rfl rfl
  | succ n ih =>
    rcases h' : (timesThread (p :: prods) multiplier).play deliver n with ⟨s', es'⟩
    cases ih h' with
    | get m hg hp =>
      rw [Process.play_got (f := fun in_ => TimesPc.put p (in_ * multiplier)) h' rfl, hg] at h
      cases h
      exact .put m (by simp [hg]) (by simp [hp])
    | put m hg hp =>
      rw [Process.play_put (p := timesThread (p :: prods) multiplier) h' rfl] at h
      cases h
      exact .get (m + 1) (by simp [hg]) (by simp [hp, firstOf_succ])

/-- What it has put are the tokens it got, multiplied. -/
theorem TimesAt.puts_eq {A : Nat → Int} {multiplier : Int} {s : TimesPc κ}
    {es : List (Transfer κ Int)} (h : TimesAt A multiplier p s es) :
    ∃ m, puts es = firstOf (fun k => A k * multiplier) m := by
  cases h with
  | get m _ hp | put m _ hp => exact ⟨m, hp⟩

/-- What it wants next, and how much of what it got it has put. -/
theorem TimesAt.wants {A : Nat → Int} {multiplier : Int} {s : TimesPc κ}
    {es : List (Transfer κ Int)} (prods : List κ) (h : TimesAt A multiplier p s es) :
    (timesThread (p :: prods) multiplier).WantsGet s p ∧ (gots p es).length = (puts es).length ∨
      (∃ v, (timesThread (p :: prods) multiplier).WantsPut s v) ∧
        (gots p es).length = (puts es).length + 1 := by
  cases h with
  | get m hg hp => exact .inl ⟨rfl, by rw [hg, hp, length_firstOf]⟩
  | put m hg hp => exact .inr ⟨⟨_, rfl⟩, by rw [hg, hp, length_firstOf]⟩

/-- What `merge` has done when it gets the sequences `A` and `B` from its first two producers. -/
inductive MergeAt (A B : Nat → Int) (p1 p2 : κ) : MergePc κ → List (Transfer κ Int) → Prop
  | first : MergeAt A B p1 p2 (.first p1 (some p2)) []
  | second : MergeAt A B p1 p2 (.second p1 (some p2) (A 0)) [.got p1 (A 0)]
  | loop {es : List (Transfer κ Int)} (i j : Nat) (hm : Merged A B i j (puts es))
      (h1 : (gots p1 es).length = i + 1) (h2 : (gots p2 es).length = j + 1) :
      MergeAt A B p1 p2 (.loop p1 p2 (A i) (B j)) es
  | nextA {es : List (Transfer κ Int)} (i j : Nat) (hm : Merged A B i j (puts es))
      (h1 : (gots p1 es).length = i) (h2 : (gots p2 es).length = j + 1) :
      MergeAt A B p1 p2 (.nextA p1 p2 (B j)) es
  | nextB {es : List (Transfer κ Int)} (i j : Nat) (hm : Merged A B i j (puts es))
      (h1 : (gots p1 es).length = i + 1) (h2 : (gots p2 es).length = j) :
      MergeAt A B p1 p2 (.nextB p1 p2 (A i)) es

theorem mergeThread_at (hne : p1 ≠ p2) (h1 : Monotone (deliver p1)) (h2 : Monotone (deliver p2))
    {n : Nat} {s : MergePc κ} {es : List (Transfer κ Int)}
    (h : (mergeThread (p1 :: p2 :: prods)).play deliver n = (s, es)) :
    MergeAt (deliver p1) (deliver p2) p1 p2 s es := by
  induction n generalizing s es with
  | zero =>
    cases h
    exact .first
  | succ n ih =>
    rcases h' : (mergeThread (p1 :: p2 :: prods)).play deliver n with ⟨s', es'⟩
    cases ih h' with
    | first =>
      rw [Process.play_got (f := fun a => MergePc.second p1 (some p2) a) h' rfl] at h
      cases h
      exact .second
    | second =>
      have hg : gots p2 [.got p1 (deliver p1 0)] = [] := by simp [hne]
      rw [Process.play_got (f := fun b => MergePc.loop p1 p2 (deliver p1 0) b) h' rfl, hg] at h
      cases h
      refine .loop 0 0 .nil ?_ ?_
      · rw [gots_append, gots_got, gots_got, if_pos rfl, if_neg hne.symm]
        rfl
      · rw [gots_append, hg, gots_got, if_pos rfl]
        rfl
    | loop i j hm hi hj =>
      by_cases hlt : deliver p1 i < deliver p2 j
      · rw [Process.play_put (p := mergeThread (p1 :: p2 :: prods)) h' (if_pos hlt)] at h
        cases h
        exact .nextA (i + 1) j (by simpa using hm.takeLeft h1 h2 hlt) (by simp [hi]) (by simp [hj])
      · rw [Process.play_put (p := mergeThread (p1 :: p2 :: prods)) h' (if_neg hlt)] at h
        cases h
        exact .nextB i (j + 1) (by simpa using hm.takeRight h1 h2 hlt) (by simp [hi]) (by simp [hj])
    | nextA i j hm hi hj =>
      rw [Process.play_got (f := fun a => MergePc.loop p1 p2 a (deliver p2 j)) h' rfl, hi] at h
      cases h
      exact .loop i j (by simpa using hm) (by simp [hi]) (by simp [hne, hj])
    | nextB i j hm hi hj =>
      rw [Process.play_got (f := fun b => MergePc.loop p1 p2 (deliver p1 i) b) h' rfl, hj] at h
      cases h
      exact .loop i j (by simpa using hm) (by simp [hne.symm, hi]) (by simp [hj])

/-- It has put what a merge puts that has taken all tokens it got, but for the ones it holds. -/
theorem MergeAt.merged {A B : Nat → Int} {s : MergePc κ} {es : List (Transfer κ Int)}
    (hne : p1 ≠ p2) (h : MergeAt A B p1 p2 s es) : ∃ i j, Merged A B i j (puts es) ∧
      (i ≤ (gots p1 es).length ∧ (gots p1 es).length ≤ i + 1) ∧
      j ≤ (gots p2 es).length ∧ (gots p2 es).length ≤ j + 1 := by
  cases h with
  | first => exact ⟨0, 0, .nil, ⟨Nat.zero_le _, Nat.zero_le _⟩, Nat.zero_le _, Nat.zero_le _⟩
  | second => exact ⟨0, 0, .nil, by simp, by simp [hne]⟩
  | loop i j hm h1 h2 | nextA i j hm h1 h2 | nextB i j hm h1 h2 =>
    exact ⟨i, j, hm, by omega, by omega⟩

/-- What it wants next, and how much of what it got it has put. -/
theorem MergeAt.wants {A B : Nat → Int} {s : MergePc κ} {es : List (Transfer κ Int)}
    (prods : List κ) (hne : p1 ≠ p2) (h : MergeAt A B p1 p2 s es) :
    (∃ v, (mergeThread (p1 :: p2 :: prods)).WantsPut s v) ∨
      ∃ i j, Merged A B i j (puts es) ∧
        ((mergeThread (p1 :: p2 :: prods)).WantsGet s p1 ∧ (gots p1 es).length = i ∧
            ((gots p2 es).length = j + 1 ∨ i = 0 ∧ j = 0) ∨
          (mergeThread (p1 :: p2 :: prods)).WantsGet s p2 ∧ (gots p1 es).length = i + 1 ∧
            (gots p2 es).length = j) := by
  cases h with
  | first => exact .inr ⟨0, 0, .nil, .inl ⟨rfl, rfl, .inr ⟨rfl, rfl⟩⟩⟩
  | second => exact .inr ⟨0, 0, .nil, .inr ⟨rfl, by simp, by simp [hne]⟩⟩
  | loop i j hm h1 h2 =>
    refine .inl ?_
    by_cases hlt : A i < B j
    · exact ⟨A i, by simp [Process.WantsPut, mergeThread, hlt]⟩
    · exact ⟨B j, by simp [Process.WantsPut, mergeThread, hlt]⟩
  | nextA i j hm h1 h2 => exact .inr ⟨i, j, hm, .inl ⟨rfl, h1, .inl h2⟩⟩
  | nextB i j hm h1 h2 => exact .inr ⟨i, j, hm, .inr ⟨rfl, h1, h2⟩⟩

/-- Every get of a `consumer` with one producer is one of its rounds, and it puts nothing. -/
theorem consumerThread_gots {rounds : Nat} {s : (consumerThread rounds [p]).State}
    {es : List (Transfer κ Int)} (h : (consumerThread rounds [p]).Plays es s) :
    (s : Nat × List κ).2 = [] ∧ (gots p es).length + (s : Nat × List κ).1 = rounds ∧
      puts es = [] := by
  induction h with
  | start => exact ⟨rfl, Nat.zero_add _, rfl⟩
  | @snoc es e s s' _ hs ih =>
    obtain ⟨k, q⟩ := s
    obtain ⟨rfl, hlen, hputs⟩ := ih
    cases k with
    | zero =>
      cases hs with
      | put h | got h => cases h
    | succ k =>
      cases hs with
      | put h => cases h
      | got h =>
        cases h
        refine ⟨rfl, ?_, by rw [puts_append, hputs]; rfl⟩
        rw [← hlen, gots_append, gots_got, if_pos rfl, List.length_append, List.length_singleton]
        exact Nat.add_right_comm _ 1 k

/-- It wants another one until it has made all its rounds. -/
theorem consumerThread_wants {rounds : Nat} {s : (consumerThread rounds [p]).State}
    {es : List (Transfer κ Int)} (h : (consumerThread rounds [p]).Plays es s) :
    (gots p es).length ≤ rounds ∧
      ((gots p es).length < rounds → (consumerThread rounds [p]).WantsGet s p) := by
  obtain ⟨k, q⟩ := s
  obtain ⟨rfl, hlen, -⟩ := consumerThread_gots h
  dsimp only at hlen
  refine ⟨by omega, ?_⟩
  intro hlt
  obtain ⟨k, rfl⟩ : ∃ k', k = k' + 1 := ⟨k - 1, by omega⟩
  rfl

end

/-! ## The loops over the list of producers -/

namespace Worker

/-- The gets and the puts of a thread. -/
def ofTransfers (es : List (Transfer Nat Int)) : Worker where
  gets := es.filterMap fun
    | .put _ => none
    | .got c v => some (c, v)
  puts := Dataflow.puts es

variable {es : List (Transfer Nat Int)} {c : Nat} {v : Int} {deliver : Nat → Nat → Int}

/-- The tokens taken through a connection. -/
theorem taken_ofTransfers : (ofTransfers es).taken c = (gots c es).length := by
  induction es with
  | nil => rfl
  | cons e es ih =>
    cases e with
    | put v => simpa [ofTransfers, taken, gots] using ih
    | got d v =>
      by_cases hd : d = c
      · subst hd
        simpa [ofTransfers, taken, gots] using ih
      · simpa [ofTransfers, taken, gots, hd] using ih

/-- A put. -/
theorem ofTransfers_put : ofTransfers (es ++ [.put v]) = (ofTransfers es).put v := by
  simp [ofTransfers, put]

/-- A get of what the connection delivers. -/
theorem ofTransfers_got : ofTransfers (es ++ [.got c (deliver c (gots c es).length)]) =
    (ofTransfers es).took deliver c := by
  rw [took, taken_ofTransfers]
  simp [ofTransfers]

end Worker

variable {ι α : Type} {net : Network ι α} {self : ι} {deliver : Nat → Nat → Int} {l : List Nat}

/-- `times` alone makes the calls of its loops. -/
theorem timesThread_play {c : Nat} {multiplier : Int}
    (hl : ProducerList net.heap (net.stream self) (c :: l)) (n : Nat) :
    ∃ es, (timesThread (c :: l) multiplier).play deliver (2 * n) = (.get c, es) ∧
      timesRun net deliver self multiplier n = .ok (some c, .ofTransfers es) := by
  induction n with
  | zero => exact ⟨[], rfl, congrArg (fun p => Except.ok (p, Worker.init)) hl.head⟩
  | succ n ih =>
    obtain ⟨es, hplay, hrun⟩ := ih
    obtain ⟨x, hx, -⟩ := hl.linked.1
    refine ⟨_, Process.play_put (Process.play_got hplay rfl) rfl, ?_⟩
    simp only [timesRun, hrun, timesStep, bind, Except.bind, Worker.get_some hx]
    rw [Worker.ofTransfers_put, Worker.ofTransfers_got, Worker.taken_ofTransfers]
    rfl

/-- `merge` alone makes the calls of its loop. -/
theorem mergeThread_play {x y : Nat}
    (hl : ProducerList net.heap (net.stream self) (x :: y :: l)) (n : Nat) :
    ∃ es a b, (mergeThread (x :: y :: l)).play deliver (2 + 2 * n) = (.loop x y a b, es) ∧
      mergeRun net deliver self n = .ok (some x, some y, ⟨.ofTransfers es, a, b⟩) := by
  obtain ⟨hxy, ⟨c, hc, hn⟩, d, hd⟩ := merge_producers hl
  induction n with
  | zero =>
    refine ⟨_, _, _, Process.play_got (Process.play_got (n := 0) rfl rfl) rfl, ?_⟩
    have hhead : (net.stream self).prodHead = some x := hl.head
    simp only [mergeRun, mergeStart, hhead, Heap.load_some hc, hn, Worker.get_some hc,
      Worker.get_some hd, bind, Except.bind]
    rw [Worker.ofTransfers_got (c := y), ← Worker.taken_ofTransfers (c := y),
      Worker.ofTransfers_got (c := x)]
    rfl
  | succ n ih =>
    obtain ⟨es, a, b, hplay, hrun⟩ := ih
    by_cases hlt : a < b
    · refine ⟨_, _, _, Process.play_got (f := fun a => MergePc.loop x y a b)
        (Process.play_put hplay (if_pos hlt)) rfl, ?_⟩
      simp only [mergeRun, hrun, mergeStep, if_pos hlt, Worker.get_some hc, bind, Except.bind]
      rw [Worker.ofTransfers_got, ← Worker.taken_ofTransfers, Worker.ofTransfers_put]
      rfl
    · refine ⟨_, _, _, Process.play_got (f := fun b => MergePc.loop x y a b)
        (Process.play_put hplay (if_neg hlt)) rfl, ?_⟩
      simp only [mergeRun, hrun, mergeStep, if_neg hlt, Worker.get_some hd, bind, Except.bind]
      rw [Worker.ofTransfers_got, ← Worker.taken_ofTransfers, Worker.ofTransfers_put]
      rfl

section
variable {rounds : Nat} {es : List (Transfer Nat Int)}

/-- The rest of a pass of `consumer`. -/
theorem consumerThread_pass {k m : Nat} {p : List Nat}
    (h : (consumerThread rounds l).play deliver m = ((k, p), es)) :
    ∃ es', (consumerThread rounds l).play deliver (m + p.length) = ((k, []), es') ∧
      .ofTransfers es' = p.foldl (Worker.took deliver) (.ofTransfers es) := by
  induction p generalizing m es with
  | nil => exact ⟨es, h, rfl⟩
  | cons c p ih =>
    obtain ⟨es', hplay, hes⟩ := ih (Process.play_got (f := fun _ => (k, p)) h rfl)
    refine ⟨es', ?_, ?_⟩
    · rw [← hplay, List.length_cons, Nat.add_right_comm]
      rfl
    · rw [hes, Worker.ofTransfers_got]
      rfl

/-- `consumer` alone makes the calls of its loops. -/
theorem consumerThread_play (hl : ProducerList net.heap (net.stream self) l) (hne : l ≠ [])
    (n : Nat) (hn : n ≤ rounds) :
    ∃ es, (consumerThread rounds l).play deliver (n * l.length) = ((rounds - n, []), es) ∧
      consumerRounds net.heap deliver l.length (net.stream self).prodHead n =
        .ok (.ofTransfers es) := by
  induction n with
  | zero => exact ⟨[], by rw [Nat.zero_mul]; rfl, rfl⟩
  | succ n ih =>
    obtain ⟨es, hplay, hrun⟩ := ih (Nat.le_of_succ_le hn)
    obtain ⟨c, p, rfl⟩ := List.exists_cons_of_ne_nil hne
    -- the first get of a round starts it
    have hact : (consumerThread rounds (c :: p)).action (rounds - n, []) =
        .get c fun _ => (rounds - (n + 1), p) := by
      obtain ⟨k, hk⟩ : ∃ k, rounds - n = k + 1 := ⟨rounds - n - 1, by omega⟩
      rw [hk, show rounds - (n + 1) = k by omega]
      rfl
    obtain ⟨es', hplay', hes⟩ := consumerThread_pass (Process.play_got hplay hact)
    refine ⟨es', ?_, ?_⟩
    · rw [← hplay', List.length_cons, Nat.succ_mul, Nat.add_assoc, Nat.add_comm 1]
    · simp only [consumerRounds, hrun, bind, Except.bind]
      rw [hl.head, consumerPass_linked hl.linked (Nat.le_refl _), hes, Worker.ofTransfers_got,
        List.foldl_cons]

end

end Eece4029
