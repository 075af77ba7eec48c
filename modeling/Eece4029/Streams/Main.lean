import Eece4029.Streams.Programs
import Eece4029.Streams.Semaphore
import Eece4029.Streams.System
import Eece4029.Streams.Withheld

/-!
# The program of `main.c`

`hw3_pthreads/main.c` connects five streams: a successor feeds two `times`, these feed a `merge`,
and a consumer takes ten tokens from it. Here is that system, for a consumer of any number of
rounds, and what it does in a run in which no get overtakes. `main_prints`: however the threads are
scheduled, the consumer gets the multiples of five and seven in order. `main_goes_on`: until it has
got them (up to 53 of them), some thread can always complete its call. `main_stalls`: but it never
gets more than 76. The two `times` read the same successor, which puts nothing while one of them is
five tokens behind, and `merge` needs seven tokens of the one for five of the other; so in the end
each of them waits for the other one.
-/

namespace Eece4029

open Transition Dataflow

/-! ## The system -/

/-- `s_suc`, `s_times5`, `s_times7`, `s_merge` and `s_cons`. -/
inductive MainStream
  | suc
  | times5
  | times7
  | merge
  | cons
deriving DecidableEq

/-- The number of connections to a stream. -/
def mainConns : MainStream → Nat
  | .suc => 2
  | .times5 | .times7 | .merge => 1
  | .cons => 0

namespace MainStream

/-- The connection of `s_times5` to `s_suc`. -/
def suc5 : Conn mainConns := ⟨.suc, ⟨0, by decide⟩⟩

/-- The connection of `s_times7` to `s_suc`. -/
def suc7 : Conn mainConns := ⟨.suc, ⟨1, by decide⟩⟩

/-- The connection of `s_merge` to `s_times5`. -/
def merge5 : Conn mainConns := ⟨.times5, ⟨0, by decide⟩⟩

/-- The connection of `s_merge` to `s_times7`. -/
def merge7 : Conn mainConns := ⟨.times7, ⟨0, by decide⟩⟩

/-- The connection of `s_cons` to `s_merge`. -/
def consMerge : Conn mainConns := ⟨.merge, ⟨0, by decide⟩⟩

/-- These are all connections. -/
theorem conn_cases : ∀ c : Conn mainConns,
    c = suc5 ∨ c = suc7 ∨ c = merge5 ∨ c = merge7 ∨ c = consMerge
  | ⟨.suc, ⟨0, _⟩⟩ => .inl rfl
  | ⟨.suc, ⟨1, _⟩⟩ => .inr (.inl rfl)
  | ⟨.times5, ⟨0, _⟩⟩ => .inr (.inr (.inl rfl))
  | ⟨.times7, ⟨0, _⟩⟩ => .inr (.inr (.inr (.inl rfl)))
  | ⟨.merge, ⟨0, _⟩⟩ => .inr (.inr (.inr (.inr rfl)))

/-- The thread that gets through a connection. -/
def reader : Conn mainConns → MainStream
  | ⟨.suc, c⟩ => if c.1 = 0 then .times5 else .times7
  | ⟨.times5, _⟩ | ⟨.times7, _⟩ => .merge
  | ⟨.merge, _⟩ | ⟨.cons, _⟩ => .cons

/-- The list of producers of a stream. -/
def prods : MainStream → List (Conn mainConns)
  | .suc => []
  | .times5 => [suc5]
  | .times7 => [suc7]
  | .merge => [merge5, merge7]
  | .cons => [consMerge]

/-- The five calls of `stream_connect`. -/
def connect (buffer : MainStream → Slot → Int) : Except Stop (Network MainStream Int) := do
  let s := Network.init buffer
  let s ← s.streamConnect .cons .merge
  let s ← s.streamConnect .merge .times5
  let s ← s.streamConnect .merge .times7
  let s ← s.streamConnect .times5 .suc
  s.streamConnect .times7 .suc

/-- The `producer_t` of a connection. -/
def node : Conn mainConns → Nat
  | ⟨.merge, _⟩ | ⟨.cons, _⟩ => 0
  | ⟨.times5, _⟩ => 1
  | ⟨.times7, _⟩ => 2
  | ⟨.suc, c⟩ => 3 + c

/-- The calls make the lists and the connections of the system. -/
theorem connect_lists (buffer : MainStream → Slot → Int) : ∃ net, connect buffer = .ok net ∧
    ∀ i, ProducerList net.heap (net.stream i) ((prods i).map node) ∧
      (net.stream i).numConsumers = mainConns i ∧
      ∀ c ∈ prods i, reader c = i ∧ ∃ p, net.heap.cell (node c) = some p ∧ p.stream = c.1 ∧
        p.bufferIdx = (Shared.init (buffer c.1) (mainConns c.1)).bufferIdx c.2 := by
  refine ⟨_, rfl, ?_⟩
  intro i
  cases i with
  | suc => exact ⟨⟨rfl, rfl, trivial⟩, rfl, nofun⟩
  | times5 | times7 | cons =>
    exact ⟨⟨rfl, rfl, ⟨_, rfl, rfl, rfl⟩, trivial⟩, rfl,
      List.forall_mem_singleton.2 ⟨rfl, _, rfl, rfl, rfl⟩⟩
  | merge =>
    refine ⟨⟨rfl, rfl, ⟨_, rfl, rfl, rfl⟩, ⟨_, rfl, rfl, rfl⟩, trivial⟩, rfl, ?_⟩
    exact List.forall_mem_cons.2 ⟨⟨rfl, _, rfl, rfl, rfl⟩,
      List.forall_mem_singleton.2 ⟨rfl, _, rfl, rfl, rfl⟩⟩

/-- The threads that `main` creates, with a consumer of any number of rounds. -/
def program (rounds : Nat) : MainStream → Process (Conn mainConns) Int
  | .suc => successorThread (Conn mainConns)
  | .times5 => timesThread (prods .times5) 5
  | .times7 => timesThread (prods .times7) 7
  | .merge => mergeThread (prods .merge)
  | .cons => consumerThread rounds (prods .cons)

/-- The values that a stream is for: those that its thread puts one after the other. -/
def values : MainStream → Nat → Int
  | .suc, k => k + 1
  | .times5, k => (k + 1) * 5
  | .times7, k => (k + 1) * 7
  | .merge, _ | .cons, _ => 0

end MainStream

open MainStream

/-- A run of the program. -/
abbrev MainRun (rounds : Nat) (buffer : MainStream → Slot → Int)
    (tr : List (Step (System (program rounds)) (SystemLabel mainConns Int)))
    (s : System (program rounds)) : Prop :=
  SystemRun reader buffer tr s

variable {rounds : Nat} {buffer : MainStream → Slot → Int} {s : System (program rounds)}
  {tr : List (Step (System (program rounds)) (SystemLabel mainConns Int))}

/-- Where the threads are, and what they have done. -/
structure MainAt (s : System (program rounds)) : Prop where
  suc : ∀ k v, (s.puts .suc)[k]? = some v → v = values .suc k
  times5 : TimesAt (values .suc) 5 suc5 (s.thread .times5) (s.done .times5)
  times7 : TimesAt (values .suc) 7 suc7 (s.thread .times7) (s.done .times7)
  merge : MergeAt (values .times5) (values .times7) merge5 merge7 (s.thread .merge) (s.done .merge)
  mergeAlone : (mergeThread [merge5, merge7]).play (fun c => values c.1) (s.done .merge).length =
    (s.thread .merge, s.done .merge)
  cons : (s.gets consMerge).length ≤ rounds ∧
    ((s.gets consMerge).length < rounds →
      (consumerThread rounds [consMerge]).WantsGet (s.thread .cons) consMerge)
  consPuts : s.puts .cons = []

/-- An element of the first elements of a sequence. -/
theorem eq_of_firstOf {A : Nat → Int} {m k : Nat} {v : Int} (h : (firstOf A m)[k]? = some v) :
    v = A k := by
  obtain ⟨hk, rfl⟩ := List.getElem?_eq_some_iff.1 h
  simp [firstOf]

/-- What the invariant of all systems says about this one. -/
theorem SystemInv.mainAt (h : SystemInv reader s) : MainAt s := by
  have hplay := fun i => h.plays_alone (fun c => values c.1) (i := i)
  -- the streams in the order of the flow
  have hsuc : ∀ k v, (s.puts .suc)[k]? = some v → v = values .suc k := by
    obtain ⟨es, hes, hputs⟩ :=
      successorThread_puts (fun c : Conn mainConns => values c.1) (s.done .suc).length
    have hdone : s.done .suc = es := by
      refine congrArg Prod.snd ((hplay .suc ?_).symm.trans hes)
      intro c hc
      rcases conn_cases c with rfl | rfl | rfl | rfl | rfl <;> cases hc
    intro k v hv
    rw [← h.puts, hdone, hputs] at hv
    exact eq_of_firstOf hv
  have htimes5 : TimesAt (values .suc) 5 suc5 (s.thread .times5) (s.done .times5) := by
    have hp : (timesThread [suc5] 5).play (fun c => values c.1) (s.done .times5).length =
        (s.thread .times5, s.done .times5) := by
      refine hplay .times5 ?_
      intro c hc
      rcases conn_cases c with rfl | rfl | rfl | rfl | rfl <;> first | exact hsuc | cases hc
    exact timesThread_at hp
  have htimes7 : TimesAt (values .suc) 7 suc7 (s.thread .times7) (s.done .times7) := by
    have hp : (timesThread [suc7] 7).play (fun c => values c.1) (s.done .times7).length =
        (s.thread .times7, s.done .times7) := by
      refine hplay .times7 ?_
      intro c hc
      rcases conn_cases c with rfl | rfl | rfl | rfl | rfl <;> first | exact hsuc | cases hc
    exact timesThread_at hp
  have hmerge : (mergeThread [merge5, merge7]).play (fun c => values c.1)
      (s.done .merge).length = (s.thread .merge, s.done .merge) := by
    refine hplay .merge ?_
    intro c hc k v hv
    rcases conn_cases c with rfl | rfl | rfl | rfl | rfl
    · cases hc
    · cases hc
    · rw [← h.puts] at hv
      obtain ⟨m, hp⟩ := htimes5.puts_eq
      exact eq_of_firstOf (hp ▸ hv)
    · rw [← h.puts] at hv
      obtain ⟨m, hp⟩ := htimes7.puts_eq
      exact eq_of_firstOf (hp ▸ hv)
    · cases hc
  refine ⟨hsuc, htimes5, htimes7, ?_, hmerge, ?_, ?_⟩
  · refine mergeThread_at (by decide) ?_ ?_ hmerge
    · intro k l hkl
      simp only [merge5, values]
      omega
    · intro k l hkl
      simp only [merge7, values]
      omega
  · have hc := consumerThread_wants (p := consMerge) (h.plays .cons)
    rw [show Dataflow.gots consMerge (s.done .cons) = s.gets consMerge from h.gots consMerge] at hc
    exact hc
  · rw [← h.puts]
    exact (consumerThread_gots (p := consMerge) (h.plays .cons)).2.2

section
variable (h : MainAt s) (hinv : SystemInv reader s)
include h hinv

/-- What `s_times5` wants next. -/
theorem MainAt.times5_wants :
    (program rounds .times5).WantsGet (s.thread .times5) suc5 ∧
        (s.gets suc5).length = (s.puts .times5).length ∨
      (∃ v, (program rounds .times5).WantsPut (s.thread .times5) v) ∧
        (s.gets suc5).length = (s.puts .times5).length + 1 := by
  rw [← hinv.puts, ← hinv.gots suc5]
  exact h.times5.wants []

/-- What `s_times7` wants next. -/
theorem MainAt.times7_wants :
    (program rounds .times7).WantsGet (s.thread .times7) suc7 ∧
        (s.gets suc7).length = (s.puts .times7).length ∨
      (∃ v, (program rounds .times7).WantsPut (s.thread .times7) v) ∧
        (s.gets suc7).length = (s.puts .times7).length + 1 := by
  rw [← hinv.puts, ← hinv.gots suc7]
  exact h.times7.wants []

/-- What `s_merge` wants next. -/
theorem MainAt.merge_wants :
    (∃ v, (program rounds .merge).WantsPut (s.thread .merge) v) ∨
      ∃ i j, Merged (values .times5) (values .times7) i j (s.puts .merge) ∧
        ((program rounds .merge).WantsGet (s.thread .merge) merge5 ∧
            (s.gets merge5).length = i ∧ ((s.gets merge7).length = j + 1 ∨ i = 0 ∧ j = 0) ∨
          (program rounds .merge).WantsGet (s.thread .merge) merge7 ∧
            (s.gets merge5).length = i + 1 ∧ (s.gets merge7).length = j) := by
  rw [← hinv.puts, ← hinv.gots merge5, ← hinv.gots merge7]
  exact h.merge.wants [] (by decide)

end

/-! ## The first token -/

/-- All threads that get wait for their first token before it is put; it goes through both `times`
and `merge`. -/
def firstToken : List (SystemLabel mainConns Int) :=
  [⟨.suc, .getWaitNew suc5.2⟩, ⟨.suc, .getWaitNew suc7.2⟩, ⟨.times5, .getWaitNew merge5.2⟩,
    ⟨.merge, .getWaitNew consMerge.2⟩, ⟨.suc, .semWait () 1⟩,
    ⟨.suc, .put () 1 (some (.inr suc5.2))⟩, ⟨.suc, .get suc5.2 (some (.inr suc7.2))⟩,
    ⟨.times5, .semWait () 5⟩, ⟨.times5, .put () 5 (some (.inr merge5.2))⟩,
    ⟨.times5, .get merge5.2 none⟩,
    ⟨.times7, .getWaitNew merge7.2⟩, ⟨.suc, .get suc7.2 none⟩, ⟨.times7, .semWait () 7⟩,
    ⟨.times7, .put () 7 (some (.inr merge7.2))⟩, ⟨.times7, .get merge7.2 none⟩,
    ⟨.merge, .semWait () 5⟩, ⟨.merge, .put () 5 (some (.inr consMerge.2))⟩,
    ⟨.merge, .get consMerge.2 none⟩]

/-- The state they lead to. -/
def firstTokenEnd : System (program 10) :=
  firstToken.foldl (System.next reader) (System.init fun _ _ => 0)

theorem firstToken_run : ∃ tr, MainRun 10 (fun _ _ => 0) tr firstTokenEnd ∧
    ∀ y ∈ tr, y.pre.NoOvertaking y.label :=
  SystemRun.of_labels reader (fun _ _ => 0) firstToken (by decide)

/-! ## What the program prints -/

/-- **The consumer gets the multiples of five and seven in order**, whatever the order of the steps,
in a run in which neither of the two `times` overtakes the other one. -/
theorem main_prints {s : System (program 10)}
    {tr : List (Step (System (program 10)) (SystemLabel mainConns Int))}
    (h : MainRun 10 buffer tr s) (ho : ∀ y ∈ tr, y.pre.NoOvertaking y.label) :
    s.gets consMerge <+: [5, 7, 10, 14, 15, 20, 21, 25, 28, 30] := by
  have hinv := h.inv ho
  have hat := hinv.mainAt
  have hgets : s.gets consMerge <+: s.puts .merge := (hinv.broadcast .merge).inOrder _
  have hten : Dataflow.puts ((mergeThread [merge5, merge7]).play (fun c => values c.1) 22).2 =
    [5, 7, 10, 14, 15, 20, 21, 25, 28, 30] := by decide
  have hputs : Dataflow.puts ((mergeThread [merge5, merge7]).play (fun c => values c.1)
      (s.done .merge).length).2 = s.puts .merge := by
    rw [hat.mergeAlone]
    exact hinv.puts .merge
  rcases Nat.le_total (s.done .merge).length 22 with hle | hle
  · refine hgets.trans ?_
    rw [← hputs, ← hten]
    exact puts_mono (Process.play_mono hle)
  · refine List.prefix_of_prefix_length_le hgets ?_ hat.cons.1
    rw [← hputs, ← hten]
    exact puts_mono (Process.play_mono hle)

theorem main_prints_firstToken : firstTokenEnd.gets consMerge = [5] ∧
    firstTokenEnd.gets consMerge <+: [5, 7, 10, 14, 15, 20, 21, 25, 28, 30] := by
  obtain ⟨tr, h, ho⟩ := firstToken_run
  exact ⟨by decide, main_prints h ho⟩

/-! ## How far the streams can be apart -/

/-- The numbers of values put and got, where `merge` has taken `i` and `j` tokens for its puts. -/
structure TokenAccount (s : System (program rounds)) (i j : Nat) : Prop where
  suc5 : (s.gets suc5).length ≤ (s.puts .suc).length ∧
    (s.puts .suc).length ≤ (s.gets suc5).length + 5
  suc7 : (s.gets suc7).length ≤ (s.puts .suc).length ∧
    (s.puts .suc).length ≤ (s.gets suc7).length + 5
  merge5 : (s.gets merge5).length ≤ (s.puts .times5).length ∧
    (s.puts .times5).length ≤ (s.gets merge5).length + 5
  merge7 : (s.gets merge7).length ≤ (s.puts .times7).length ∧
    (s.puts .times7).length ≤ (s.gets merge7).length + 5
  consMerge : (s.gets consMerge).length ≤ (s.puts .merge).length ∧
    (s.puts .merge).length ≤ (s.gets consMerge).length + 5
  times5 : (s.puts .times5).length ≤ (s.gets MainStream.suc5).length ∧
    (s.gets MainStream.suc5).length ≤ (s.puts .times5).length + 1
  times7 : (s.puts .times7).length ≤ (s.gets MainStream.suc7).length ∧
    (s.gets MainStream.suc7).length ≤ (s.puts .times7).length + 1
  merge : (s.puts .merge).length = i + j
  left : i ≤ (s.gets MainStream.merge5).length ∧ (s.gets MainStream.merge5).length ≤ i + 1
  right : j ≤ (s.gets MainStream.merge7).length ∧ (s.gets MainStream.merge7).length ≤ j + 1

/-- What has been taken of the multiples of five and seven, when one is not greater than the rest of
the other. -/
theorem merged_counts {i j : Nat} {out : List Int}
    (h : Merged (values .times5) (values .times7) i j out) :
    5 * i < 7 * (j + 1) ∧ 7 * j ≤ 5 * (i + 1) := by
  constructor
  · rcases Nat.eq_zero_or_pos i with rfl | hi
    · omega
    · have hlt := h.leftFirst (i - 1) (by omega) j (Nat.le_refl j)
      simp only [values] at hlt
      omega
  · rcases Nat.eq_zero_or_pos j with rfl | hj
    · omega
    · have hle := h.rightFirst (j - 1) (by omega) i (Nat.le_refl i)
      simp only [values] at hle
      omega

/-- The account of every state. -/
theorem MainAt.account (h : MainAt s) (hinv : SystemInv reader s) :
    ∃ i j, Merged (values .times5) (values .times7) i j (s.puts .merge) ∧ TokenAccount s i j := by
  have hbetween : ∀ c : Conn mainConns, (s.gets c).length ≤ (s.puts c.1).length ∧
      (s.puts c.1).length ≤ (s.gets c).length + 5 := fun c =>
    ⟨(hinv.broadcast c.1).reads_le c.2, (hinv.broadcast c.1).near c.2⟩
  have hgotsA : Dataflow.gots merge5 (s.done .merge) = s.gets merge5 := hinv.gots merge5
  have hgotsB : Dataflow.gots merge7 (s.done .merge) = s.gets merge7 := hinv.gots merge7
  obtain ⟨i, j, hm, hleft, hright⟩ := h.merge.merged (by decide)
  rw [hgotsA] at hleft
  rw [hgotsB] at hright
  rw [hinv.puts] at hm
  have h5 := h.times5_wants hinv
  have h7 := h.times7_wants hinv
  exact ⟨i, j, hm, hbetween suc5, hbetween suc7, hbetween merge5, hbetween merge7,
    hbetween consMerge, by omega, by omega, hm.length, hleft, hright⟩

/-- **In the end the threads wait for each other**: however many tokens the consumer asks for, and
whatever the order of the steps, in a run in which no get overtakes `merge` never puts more than 76,
and no token overflows an `int`. `merge` needs seven tokens of `s_times5` for five of `s_times7`,
and neither is more than `12` tokens ahead of the other one. -/
theorem main_stalls (h : MainRun rounds buffer tr s)
    (ho : ∀ y ∈ tr, y.pre.NoOvertaking y.label) :
    (s.gets consMerge).length ≤ (s.puts .merge).length ∧ (s.puts .merge).length ≤ 76 ∧
      ∀ i, ∀ v ∈ s.puts i, 0 < v ∧ v ≤ 308 := by
  have hinv := h.inv ho
  have hat := hinv.mainAt
  obtain ⟨i, j, hm, hacc⟩ := hat.account hinv
  obtain ⟨h5, h7⟩ := merged_counts hm
  obtain ⟨hsuc5, hsuc7, hmerge5, hmerge7, hcons, htimes5, htimes7, hmerge, hleft, hright⟩ := hacc
  refine ⟨hcons.1, by omega, ?_⟩
  intro i v hv
  cases i with
  | suc =>
    obtain ⟨k, hk, rfl⟩ := List.mem_iff_getElem.1 hv
    rw [hat.suc k _ (List.getElem?_eq_getElem hk)]
    simp only [values]
    omega
  | times5 =>
    obtain ⟨m, hp⟩ := hat.times5.puts_eq
    rw [hinv.puts] at hp
    have hlen := congrArg List.length hp
    rw [hp, mem_firstOf] at hv
    obtain ⟨k, hk, rfl⟩ := hv
    rw [length_firstOf] at hlen
    simp only [values]
    omega
  | times7 =>
    obtain ⟨m, hp⟩ := hat.times7.puts_eq
    rw [hinv.puts] at hp
    have hlen := congrArg List.length hp
    rw [hp, mem_firstOf] at hv
    obtain ⟨k, hk, rfl⟩ := hv
    rw [length_firstOf] at hlen
    simp only [values]
    omega
  | merge =>
    rcases hm.mem.1 hv with ⟨k, hk, rfl⟩ | ⟨k, hk, rfl⟩ <;>
    · simp only [values]
      omega
  | cons =>
    rw [hat.consPuts] at hv
    cases hv

theorem main_stalls_firstToken : firstTokenEnd.puts .times7 = [7] ∧
    ∀ i, ∀ v ∈ firstTokenEnd.puts i, 0 < v ∧ v ≤ 308 := by
  obtain ⟨tr, h, ho⟩ := firstToken_run
  exact ⟨by decide, (main_stalls h ho).2.2⟩

/-- **Until the consumer has its tokens some thread can go on**, for up to 53 of them, in a run in
which no get overtakes. -/
theorem main_goes_on (hrounds : rounds ≤ 53) (h : MainRun rounds buffer tr s)
    (ho : ∀ y ∈ tr, y.pre.NoOvertaking y.label) :
    (s.gets consMerge).length = rounds ∨ ∃ i, s.CanGoOn i := by
  have hinv := h.inv ho
  have hat := hinv.mainAt
  obtain ⟨_, _, -, hacc⟩ := hat.account hinv
  by_contra hno
  obtain ⟨hrest, hstuck⟩ := not_or.1 hno
  -- a get that waits leaves at most one value, and a put that waits leaves a consumer far behind
  have hget : ∀ i c, (program rounds i).WantsGet (s.thread i) c →
      (s.puts c.1).length ≤ (s.gets c).length + 1 := fun i c hw =>
    (hinv.broadcast c.1).behind_le fun hp => hstuck ⟨i, .inr ⟨c, hw, hp⟩⟩
  have hput : ∀ i, 0 < mainConns i → mainConns i ≤ 9999 →
      (∃ v, (program rounds i).WantsPut (s.thread i) v) →
      ∃ c : Conn mainConns, c.1 = i ∧ (s.puts i).length = (s.gets c).length + 5 := by
    rintro i h0 hn ⟨v, hw⟩
    obtain ⟨c, hc⟩ := h.exists_far hinv h0 hn fun hp => hstuck ⟨i, .inl ⟨v, hw, hp⟩⟩
    exact ⟨⟨i, c⟩, rfl, hc⟩
  have hcons : (s.puts .merge).length ≤ (s.gets consMerge).length + 1 :=
    hget .cons consMerge (hat.cons.2 (Nat.lt_of_le_of_ne hat.cons.1 hrest))
  have hsuc : (s.puts .suc).length = (s.gets suc5).length + 5 ∨
      (s.puts .suc).length = (s.gets suc7).length + 5 := by
    obtain ⟨c, hc, hlen⟩ := hput .suc (by decide) (by decide) ⟨_, rfl⟩
    rcases conn_cases c with rfl | rfl | rfl | rfl | rfl <;>
      first | exact .inl hlen | exact .inr hlen | cases hc
  have htimes5 : (s.puts .suc).length ≤ (s.gets suc5).length + 1 ∧
        (s.gets suc5).length = (s.puts .times5).length ∨
      (s.puts .times5).length = (s.gets merge5).length + 5 ∧
        (s.gets suc5).length = (s.puts .times5).length + 1 := by
    rcases hat.times5_wants hinv with ⟨hw, heq⟩ | ⟨hw, heq⟩
    · exact .inl ⟨hget _ _ hw, heq⟩
    · obtain ⟨c, hc, hlen⟩ := hput .times5 (by decide) (by decide) hw
      rcases conn_cases c with rfl | rfl | rfl | rfl | rfl <;>
        first | exact .inr ⟨hlen, heq⟩ | cases hc
  have htimes7 : (s.puts .suc).length ≤ (s.gets suc7).length + 1 ∧
        (s.gets suc7).length = (s.puts .times7).length ∨
      (s.puts .times7).length = (s.gets merge7).length + 5 ∧
        (s.gets suc7).length = (s.puts .times7).length + 1 := by
    rcases hat.times7_wants hinv with ⟨hw, heq⟩ | ⟨hw, heq⟩
    · exact .inl ⟨hget _ _ hw, heq⟩
    · obtain ⟨c, hc, hlen⟩ := hput .times7 (by decide) (by decide) hw
      rcases conn_cases c with rfl | rfl | rfl | rfl | rfl <;>
        first | exact .inr ⟨hlen, heq⟩ | cases hc
  have hmerge7 := hacc.merge7
  have hmerge5 := hacc.merge5
  have hrounds' := hat.cons.1
  rcases hat.merge_wants hinv with hw | ⟨i, j, hm, ⟨hw, hi, hj⟩ | ⟨hw, hi, hj⟩⟩
  · -- `merge` waits for the consumer, which waits for `merge`
    obtain ⟨c, hc, hlen⟩ := hput .merge (by decide) (by decide) hw
    rcases conn_cases c with rfl | rfl | rfl | rfl | rfl <;> first | omega | cases hc
  · -- it waits for `s_times5`, so `s_times7` holds up the successor
    have hwait : (s.puts .times5).length ≤ (s.gets merge5).length + 1 := hget _ _ hw
    have hlen := hm.length
    obtain ⟨h5, h7⟩ := merged_counts hm
    omega
  · have hwait : (s.puts .times7).length ≤ (s.gets merge7).length + 1 := hget _ _ hw
    have hlen := hm.length
    obtain ⟨h5, h7⟩ := merged_counts hm
    omega

theorem main_goes_on_firstToken : (firstTokenEnd.gets consMerge).length = 1 ∧
    ∃ i, firstTokenEnd.CanGoOn i := by
  obtain ⟨tr, h, ho⟩ := firstToken_run
  have hone : (firstTokenEnd.gets consMerge).length = 1 := by decide
  refine ⟨hone, (main_goes_on (by decide) h ho).resolve_left ?_⟩
  rw [hone]
  decide

end Eece4029
