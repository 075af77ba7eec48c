import Eece4029.Lib.Dataflow
import Eece4029.Streams.Broadcast
import Eece4029.Streams.Withheld

/-!
# A program of several streams

The programs of `hw3_pthreads` start one thread for every stream. The thread of the stream `i`
calls `put` on `i` only, and it gets through connections that no other thread gets through. A
`System` is the streams with the threads of `Streams.Threads` in their calls, and for every stream
the state of its thread between the calls: a process (`Lib.Dataflow`), because what a thread does
next depends on nothing but what it has got. `n i` is the number of connections to the stream `i`,
and `reader c` the thread that gets through the connection `c`.

The threads sleep in buffers that are full or empty, wake up in any order and take turns in any
order. As long as no get overtakes (`NoOvertaking`) this makes no difference to what they do:
the system is a network of processes (`SystemRun.netRun`), so two runs of it never disagree on what
is put or got (`systems_agree`), and every thread does what it does alone, on what the threads
before it put (`thread_plays`).
-/

namespace Eece4029

open Transition Dataflow

variable {ι α : Type} {n : ι → Nat}

/-- A connection: a stream and the number of the connection to it. -/
abbrev Conn (n : ι → Nat) : Type := Σ i, Fin (n i)

/-- A step of one of the streams. -/
abbrev SystemLabel (n : ι → Nat) (α : Type) : Type := Σ i, Label α Unit (Fin (n i))

/-- The streams and the threads between their calls. The last field is an observation, the calls of
every thread that have returned. -/
structure System (P : ι → Process (Conn n) α) where
  machine : (i : ι) → Machine α Unit (Fin (n i)) (n i)
  thread : (i : ι) → (P i).State
  done : ι → List (Transfer (Conn n) α)

namespace System

variable {P : ι → Process (Conn n) α} (reader : Conn n → ι)

/-- All threads before their first call. -/
def init (buffer : ι → Slot → α) : System P :=
  ⟨fun i => .init (buffer i), fun i => (P i).start, fun _ => []⟩

/-- The values put into the stream. -/
def puts (s : System P) (i : ι) : List α := (s.machine i).shared.puts

/-- The values got through the connection. -/
def gets (s : System P) (c : Conn n) : List α := (s.machine c.1).shared.gets c.2

/-- The consumer at the connection finds something new, and `v` is in its slot. -/
def Finds (s : System P) (c : Conn n) (v : α) : Prop :=
  let shared := (s.machine c.1).shared
  ¬ shared.stream.NothingNew (shared.bufferIdx c.2) ∧
    v = shared.stream.buffer (shared.bufferIdx c.2)

/-- The call that returns with a step of a stream, and the thread that made it. -/
def transfer (s : System P) (x : SystemLabel n α) : Option (ι × Transfer (Conn n) α) :=
  (x.2.op id).map fun
    | .put v => (x.1, .put v)
    | .get c =>
      let shared := (s.machine x.1).shared
      (reader ⟨x.1, c⟩, .got ⟨x.1, c⟩ (shared.stream.get (shared.bufferIdx c)).1)

/-- The thread whose step it is has made the call that it is a step of. -/
def Calls (s : System P) : SystemLabel n α → Prop
  | ⟨i, .semWait _ v⟩ | ⟨i, .putWait _ v⟩ | ⟨i, .put _ v _⟩ => (P i).WantsPut (s.thread i) v
  | ⟨i, .getWaitAhead c⟩ | ⟨i, .getWaitNew c⟩ | ⟨i, .get c _⟩ =>
    (P (reader ⟨i, c⟩)).WantsGet (s.thread (reader ⟨i, c⟩)) ⟨i, c⟩
  | ⟨_, .spurious _⟩ => True

variable [DecidableEq ι]

/-- A thread goes on after its call. -/
def goOn (s : System P) : Option (ι × Transfer (Conn n) α) → System P
  | none => s
  | some (i, e) =>
    { s with
      thread := Function.update s.thread i ((P i).after (s.thread i) e)
      done := Function.update s.done i (s.done i ++ [e]) }

/-- The state after a step. -/
def next (s : System P) (x : SystemLabel n α) : System P :=
  { s.goOn (s.transfer reader x) with
    machine := Function.update s.machine x.1 ((s.machine x.1).next id x.2) }

/-- The condition of a step. -/
def Enabled (s : System P) (x : SystemLabel n α) : Prop :=
  (s.machine x.1).Enabled id x.2 ∧ s.Calls reader x

end System

variable {P : ι → Process (Conn n) α} {reader : Conn n → ι} [DecidableEq ι]

/-- The step relation of the system. -/
def SystemStep (reader : Conn n → ι) (s : System P) (x : SystemLabel n α) (s' : System P) : Prop :=
  s.Enabled reader x ∧ s' = s.next reader x

/-- A run from streams with all connections made, on buffers with any contents. -/
abbrev SystemRun (reader : Conn n → ι) (buffer : ι → Slot → α)
    (tr : List (Step (System P) (SystemLabel n α))) (s : System P) : Prop :=
  Run (SystemStep reader) (System.init buffer) tr s

/-- The step is not a get that overtakes; only one of several consumers of a stream can do that. -/
def System.NoOvertaking (s : System P) (x : SystemLabel n α) : Prop :=
  2 ≤ n x.1 → Eece4029.NoOvertaking id (s.machine x.1) x.2

section
variable [DecidableEq α]

instance (s : System P) : DecidablePred (s.Calls reader)
  | ⟨_, .semWait _ _⟩ | ⟨_, .putWait _ _⟩ | ⟨_, .put _ _ _⟩ =>
    inferInstanceAs (Decidable (Process.WantsPut _ _ _))
  | ⟨_, .getWaitAhead _⟩ | ⟨_, .getWaitNew _⟩ | ⟨_, .get _ _⟩ =>
    inferInstanceAs (Decidable (Process.WantsGet _ _ _))
  | ⟨_, .spurious _⟩ => inferInstanceAs (Decidable True)

instance (s : System P) : DecidablePred (s.Enabled reader) := fun _ =>
  inferInstanceAs (Decidable (_ ∧ _))

end

instance {m : Nat} (s : Shared α m) : DecidablePred s.Overtakes := fun _ =>
  inferInstanceAs (Decidable (_ ∧ (_ ∨ _)))

instance (s : System P) : DecidablePred s.NoOvertaking
  | ⟨i, .get c _⟩ =>
    decidable_of_iff (2 ≤ n i → ¬ (s.machine i).shared.Overtakes c)
      ⟨fun h hn _ hop => by cases hop; exact h hn, fun h hn => h hn c rfl⟩
  | ⟨_, .semWait _ _⟩ | ⟨_, .putWait _ _⟩ | ⟨_, .put _ _ _⟩ | ⟨_, .getWaitAhead _⟩
  | ⟨_, .getWaitNew _⟩ | ⟨_, .spurious _⟩ => .isTrue fun _ _ hop => by cases hop

/-- Labels that are enabled one after the other, from the first state on, and do not overtake make a
run. -/
theorem SystemRun.of_labels (reader : Conn n → ι) (buffer : ι → Slot → α)
    (ls : List (SystemLabel n α))
    (h : EnabledAll (fun (s : System P) x => s.Enabled reader x ∧ s.NoOvertaking x)
      (System.next reader) (System.init buffer) ls) :
    ∃ tr,
      SystemRun reader buffer tr (ls.foldl (System.next reader) (System.init buffer : System P)) ∧
      ∀ y ∈ tr, y.pre.NoOvertaking y.label := by
  obtain ⟨tr, hr, -⟩ := h.run
  exact ⟨tr, hr.mono fun _ _ _ hs => ⟨hs.1.1, hs.2⟩, fun y hy => (hr.mem y hy).2.1.2⟩

/-! ## What a step does -/

/-- What a step does to the threads and to what was put and got. -/
inductive SystemEffect (reader : Conn n → ι) (s s' : System P) :
    Option (ι × Transfer (Conn n) α) → Prop
  | silent (hthread : s'.thread = s.thread) (hdone : s'.done = s.done)
      (hputs : ∀ j, s'.puts j = s.puts j) (hgets : ∀ c, s'.gets c = s.gets c) :
      SystemEffect reader s s' none
  | call (i : ι) (e : Transfer (Conn n) α) (hs : (P i).Step (s.thread i) e (s'.thread i))
      (hthread : ∀ j, j ≠ i → s'.thread j = s.thread j)
      (hdone : s'.done = Function.update s.done i (s.done i ++ [e]))
      (hputs : ∀ j, s'.puts j = s.puts j ++ if j = i then Dataflow.puts [e] else [])
      (hgets : ∀ c, s'.gets c = s.gets c ++ Dataflow.gots c [e])
      (hgot : ∀ c v, e = .got c v → reader c = i ∧ s.Finds c v) :
      SystemEffect reader s s' (some (i, e))

variable {s s' : System P} {x : SystemLabel n α}

omit [DecidableEq ι] in
/-- A call that returns is one that its thread wanted to make. -/
theorem System.Calls.step {k : ι × Transfer (Conn n) α} (h : s.Calls reader x)
    (hk : s.transfer reader x = some k) :
    (P k.1).Step (s.thread k.1) k.2 ((P k.1).after (s.thread k.1) k.2) := by
  obtain ⟨i, l⟩ := x
  cases l with
  | put _ v _ =>
    cases hk
    exact Process.WantsPut.step h
  | get c _ =>
    cases hk
    exact Process.WantsGet.step h
  | semWait | putWait | getWaitAhead | getWaitNew | spurious => cases hk

omit [DecidableEq ι] in
/-- The values put and got, where one machine is another one. -/
theorem System.history_update [DecidableEq ι] {i : ι} {m : Machine α Unit (Fin (n i)) (n i)}
    (ps : ι → List α) (gs : Conn n → List α)
    (hputs : m.shared.puts = ps i) (hgets : ∀ c, m.shared.gets c = gs ⟨i, c⟩)
    (hputs' : ∀ j, j ≠ i → s.puts j = ps j) (hgets' : ∀ c, c.1 ≠ i → s.gets c = gs c)
    (t : System P) (ht : t.machine = Function.update s.machine i m) :
    (∀ j, t.puts j = ps j) ∧ ∀ c, t.gets c = gs c := by
  constructor
  · intro j
    rw [System.puts, ht]
    by_cases hj : j = i
    · subst hj
      rw [Function.update_self, hputs]
    · rw [Function.update_of_ne hj]
      exact hputs' j hj
  · rintro ⟨j, c⟩
    rw [System.gets, ht]
    by_cases hj : j = i
    · subst hj
      simp only [Function.update_self, hgets]
    · simp only [Function.update_of_ne hj]
      exact hgets' ⟨j, c⟩ hj

/-- Every step of the system has one of the two effects. -/
theorem SystemStep.effect (h : SystemStep reader s x s') :
    SystemEffect reader s s' (s.transfer reader x) := by
  obtain ⟨⟨hen, hcall⟩, rfl⟩ := h
  obtain ⟨i, l⟩ := x
  have hstep : StreamStep id (s.machine i) l ((s.machine i).next id l) := ⟨hen, rfl⟩
  have heff := hstep.effect
  have hwant := fun k => hcall.step (k := k)
  simp only [System.transfer] at hwant ⊢
  unfold System.next System.transfer
  revert heff hwant
  generalize (s.machine i).next id l = m'
  generalize l.op id = o
  intro heff hwant
  cases heff with
  | silent hs _ | token _ hs _ =>
    have hhist := System.history_update (s := s) (m := m') s.puts s.gets
      (by rw [hs]; rfl) (fun c => by rw [hs]; rfl) (fun _ _ => rfl) fun _ _ => rfl
    exact .silent rfl rfl (hhist _ rfl).1 (hhist _ rfl).2
  | put v _ hs _ =>
    have hhist := System.history_update (s := s) (m := m')
      (fun j => s.puts j ++ if j = i then [v] else []) s.gets
      (by rw [hs, if_pos rfl]; rfl) (fun c => by rw [hs]; rfl)
      (fun j hj => by rw [if_neg hj, List.append_nil]) fun _ _ => rfl
    refine .call i (.put v) ?_ ?_ rfl (hhist _ rfl).1 ?_ nofun
    · simpa [System.goOn] using hwant _ rfl
    · exact fun j hj => Function.update_of_ne hj _ _
    · exact fun c => ((hhist _ rfl).2 c).trans (List.append_nil _).symm
  | get d hn hs _ =>
    have hhist := System.history_update (s := s) (m := m') s.puts
      (fun c => s.gets c ++
        Dataflow.gots c [.got ⟨i, d⟩ ((s.machine i).shared.stream.get
          ((s.machine i).shared.bufferIdx d)).1])
      (by rw [hs]; rfl) ?_ (fun _ _ => rfl) ?_
    · refine .call _ (.got ⟨i, d⟩ _) ?_ ?_ rfl ?_ (hhist _ rfl).2 ?_
      · simpa [System.goOn] using hwant _ rfl
      · exact fun j hj => Function.update_of_ne hj _ _
      · intro j
        rw [(hhist _ rfl).1, Dataflow.puts_got]
        simp
      · intro c v he
        cases he
        exact ⟨rfl, hn, rfl⟩
    · intro c
      rw [hs]
      by_cases hc : c = d
      · subst hc
        simp [Shared.get, Stream.get, System.gets]
      · have hne : (⟨i, d⟩ : Conn n) ≠ ⟨i, c⟩ := fun heq => hc (by cases heq; rfl)
        simp [Shared.get, hc, System.gets, hne]
    · intro c hc
      have hne : (⟨i, d⟩ : Conn n) ≠ c := fun heq => hc (heq ▸ rfl)
      simp [hne]

/-! ## The invariant -/

/-- The streams deliver in order, and the threads have made the calls that the streams have seen. -/
structure SystemInv (reader : Conn n → ι) (s : System P) : Prop where
  broadcast : ∀ i, BroadcastInv (s.machine i).shared
  plays : ∀ i, (P i).Plays (s.done i) (s.thread i)
  puts : ∀ i, Dataflow.puts (s.done i) = s.puts i
  gots : ∀ c, Dataflow.gots c (s.done (reader c)) = s.gets c
  own : ∀ i c, reader c ≠ i → Dataflow.gots c (s.done i) = []

/-- A consumer that overtakes is not the only one. -/
theorem Shared.Overtakes.two_le {m : Nat} {s : Shared α m} {c : Fin m} (h : s.Overtakes c) :
    2 ≤ m := by
  obtain ⟨hreads, hbig | ⟨d, hfar⟩⟩ := h
  · omega
  · have hne : (d : Nat) ≠ c := fun heq => by
      rw [Fin.ext heq, hreads] at hfar
      exact absurd hfar (by simp)
    omega

/-- The next value of a consumer that does not overtake is the one in its slot. -/
theorem BroadcastInv.next_value {m : Nat} {s : Shared α m} (h : BroadcastInv s) {c : Fin m}
    (hn : ¬ s.stream.NothingNew (s.bufferIdx c)) (ho : ¬ s.Overtakes c) :
    s.puts[(s.gets c).length]? = some (s.stream.buffer (s.bufferIdx c)) := by
  have hlt : (s.gets c).length < s.puts.length := h.reads_lt hn ho
  rw [h.bufferIdx_eq, List.getElem?_eq_getElem hlt]
  exact congrArg some (h.recent _ _ (h.near c) (List.getElem?_eq_getElem hlt)).symm

/-- Before the first step. -/
theorem SystemInv.init (buffer : ι → Slot → α) :
    SystemInv reader (System.init buffer : System P) := by
  refine ⟨fun i => .init (buffer i) (n i), fun _ => .start, fun _ => rfl, fun _ => rfl, ?_⟩
  exact fun _ _ _ => rfl

/-- A get that does not overtake returns the value after those got before. -/
theorem SystemInv.finds (h : SystemInv reader s) {c : Conn n} {v : α} (hv : s.Finds c v)
    (ho : ¬ (s.machine c.1).shared.Overtakes c.2) : (s.puts c.1)[(s.gets c).length]? = some v := by
  rw [hv.2]
  exact (h.broadcast c.1).next_value hv.1 ho

/-- A step without overtaking keeps the invariant, and is a step of the network of the threads, or
nothing that the threads see. -/
theorem SystemInv.step (h : SystemInv reader s) (ho : s.NoOvertaking x)
    (hs : SystemStep reader s x s') : SystemInv reader s' ∧
      ((s.transfer reader x = none ∧ s'.done = s.done) ∨
        ∃ k, s.transfer reader x = some k ∧ NetStep P Sigma.fst s.done k s'.done) := by
  have hnone : Eece4029.NoOvertaking id (s.machine x.1) x.2 :=
    fun c hop hover => ho hover.two_le c hop hover
  have hbroadcast : ∀ i, BroadcastInv (s'.machine i).shared := by
    obtain ⟨⟨hen, -⟩, rfl⟩ := hs
    refine (Function.forall_update_iff s.machine
      (p := fun j m => BroadcastInv (Machine.shared m))).2 ⟨?_, fun j _ => h.broadcast j⟩
    exact (h.broadcast x.1).step hnone ⟨hen, rfl⟩
  have hover : ∀ c v, s.transfer reader x = some (reader c, .got c v) →
      ¬ (s.machine c.1).shared.Overtakes c.2 := by
    obtain ⟨i, l⟩ := x
    intro c v hev
    cases l with
    | get d _ =>
      obtain ⟨rfl, -⟩ := Transfer.got.inj (Prod.ext_iff.1 (Option.some.inj hev)).2
      exact hnone d rfl
    | semWait | putWait | put | getWaitAhead | getWaitNew | spurious => cases hev
  have heff := hs.effect
  revert heff hover
  generalize s.transfer reader x = k
  intro hover heff
  cases heff with
  | silent hthread hdone hputs hgets =>
    refine ⟨⟨hbroadcast, ?_, ?_, ?_, ?_⟩, .inl ⟨rfl, hdone⟩⟩
    · rw [hthread, hdone]; exact h.plays
    · intro i; rw [hdone, hputs]; exact h.puts i
    · intro c; rw [hdone, hgets]; exact h.gots c
    · rw [hdone]; exact h.own
  | call i e hstep hthread hdone hputs hgets hgot =>
    refine ⟨⟨hbroadcast, ?_, ?_, ?_, ?_⟩, .inr ⟨_, rfl, ?_⟩⟩
    · intro j
      rw [hdone]
      by_cases hj : j = i
      · subst hj
        rw [Function.update_self]
        exact (h.plays j).snoc hstep
      · rw [Function.update_of_ne hj, hthread j hj]
        exact h.plays j
    · intro j
      rw [hdone, puts_update, h.puts, hputs]
    · intro c
      rw [hdone, gots_update, h.gots, hgets]
      split
      · rfl
      · next hc =>
        -- a get through the connection is a call of its reader
        cases e with
        | put v => rfl
        | got d v =>
          have hne : d ≠ c := fun hdc => hc (hdc ▸ (hgot d v rfl).1)
          simp [hne]
    · intro j c hc
      rw [hdone, gots_update, h.own j c hc]
      split
      · next hj =>
        cases e with
        | put v => rfl
        | got d v =>
          have hne : d ≠ c := fun hdc => hc (hj ▸ hdc ▸ (hgot d v rfl).1)
          simp [hne]
      · rfl
    · rw [hdone]
      refine .mk (h.plays i) hstep ?_
      rintro c v rfl
      obtain ⟨rfl, hv⟩ := hgot c v rfl
      rw [h.puts, h.gots]
      exact h.finds hv (hover c v rfl)

/-- A thread whose producers put the first values of sequences has done what it does alone on these
sequences. -/
theorem SystemInv.plays_alone (h : SystemInv reader s) (deliver : Conn n → Nat → α) {i : ι}
    (hd : ∀ c, reader c = i → ∀ k v, (s.puts c.1)[k]? = some v → v = deliver c k) :
    (P i).play deliver (s.done i).length = (s.thread i, s.done i) := by
  refine (h.plays i).eq_play ?_
  intro c k v hv
  by_cases hc : reader c = i
  · rw [← hc, h.gots] at hv
    exact hd c hc k v (getElem?_mono ((h.broadcast c.1).inOrder c.2) hv)
  · rw [h.own i c hc] at hv
    cases hv

/-! ## Runs -/

variable {buffer buffer' : ι → Slot → α} {tr tr' : List (Step (System P) (SystemLabel n α))}

/-- What a stream sees of a run is a run of its own. -/
theorem SystemRun.streamRun (h : SystemRun reader buffer tr s) (i : ι) :
    ∃ mtr, StreamRun id (buffer i) mtr (s.machine i) := by
  induction h with
  | nil => exact ⟨[], .nil⟩
  | @snoc tr s s' x hr hs ih =>
    obtain ⟨mtr, hm⟩ := ih
    obtain ⟨⟨hen, -⟩, rfl⟩ := hs
    by_cases hi : i = x.1
    · subst hi
      refine ⟨_, hm.snoc (l := x.2) ⟨hen, ?_⟩⟩
      exact Function.update_self ..
    · refine ⟨mtr, ?_⟩
      have hsame : (s.next reader x).machine i = s.machine i := Function.update_of_ne hi _ _
      rw [hsame]
      exact hm

/-- Every state of a run without overtaking. -/
theorem SystemRun.inv (h : SystemRun reader buffer tr s)
    (ho : ∀ y ∈ tr, y.pre.NoOvertaking y.label) : SystemInv reader s :=
  (Run.inv_where (I := SystemInv reader) (C := System.NoOvertaking) (.init buffer)
    (fun _ _ _ hi ho hs => (hi.step ho hs).1) h ho).1

/-- A run without overtaking is a run of the network of the threads, in which every connection
delivers what was put into its stream. -/
theorem SystemRun.netRun (h : SystemRun reader buffer tr s)
    (ho : ∀ y ∈ tr, y.pre.NoOvertaking y.label) : ∃ ntr, NetRun P Sigma.fst ntr s.done := by
  induction h with
  | nil => exact ⟨[], .nil⟩
  | @snoc tr s s' x hr hs ih =>
    have ho' : ∀ y ∈ tr, y.pre.NoOvertaking y.label := fun y hy => ho y (List.mem_append_left _ hy)
    obtain ⟨ntr, hnet⟩ := ih ho'
    have hx : s.NoOvertaking x := ho ⟨s, x, s'⟩ (by simp)
    rcases ((SystemRun.inv hr ho').step hx hs).2 with ⟨-, hdone⟩ | ⟨k, -, hk⟩
    · exact ⟨ntr, hdone ▸ hnet⟩
    · exact ⟨_, hnet.snoc hk⟩

/-- **The interleaving does not matter.** In any two runs of a system of streams in which no get
overtakes, with any number of threads, whatever they do and however they are connected: what is put
into a stream in one of the runs continues what is put into it in the other one, and so do what is
got through a connection, and the calls of a thread. -/
theorem systems_agree {t : System P} (h : SystemRun reader buffer tr s)
    (h' : SystemRun reader buffer' tr' t) (ho : ∀ y ∈ tr, y.pre.NoOvertaking y.label)
    (ho' : ∀ y ∈ tr', y.pre.NoOvertaking y.label) :
    (∀ i, s.puts i <+: t.puts i ∨ t.puts i <+: s.puts i) ∧
      (∀ c, s.gets c <+: t.gets c ∨ t.gets c <+: s.gets c) ∧
      ∀ i, s.done i <+: t.done i ∨ t.done i <+: s.done i := by
  obtain ⟨ntr, hnet⟩ := h.netRun ho
  obtain ⟨ntr', hnet'⟩ := h'.netRun ho'
  have hcmp := hnet.comparable hnet'.isFed
  have hs := h.inv ho
  have ht := h'.inv ho'
  refine ⟨fun i => ?_, fun c => ?_, hcmp⟩
  · rw [← hs.puts, ← ht.puts]
    exact (hcmp i).imp puts_mono puts_mono
  · rw [← hs.gots, ← ht.gots]
    exact (hcmp (reader c)).imp gots_mono gots_mono

/-- The connections to three streams: the threads of the last two get from the first one. -/
def forkConns (i : Fin 3) : Nat := if i = 0 then 2 else 0

/-- The connection of the second thread, and that of the third one. -/
def forkLeft : Conn forkConns := ⟨0, 0, by decide⟩

def forkRight : Conn forkConns := ⟨0, 1, by decide⟩

/-- The thread that gets through a connection. -/
def forkReader (c : Conn forkConns) : Fin 3 := if c.2.1 = 0 then 1 else 2

/-- One thread puts the numbers from 1 on, and the other two get them. -/
def forkThreads (i : Fin 3) : Process (Conn forkConns) Nat :=
  if i = 0 then ⟨Nat, 1, fun k => .put k (k + 1)⟩
  else ⟨Unit, (), fun _ => .get (if i = 1 then forkLeft else forkRight) fun _ => ()⟩

/-- A put, and the thread that it wakes. -/
def forkPut (v : Nat) (w : Option (Unit ⊕ Fin 2)) : List (SystemLabel forkConns Nat) :=
  [⟨0, .semWait () v⟩, ⟨0, .put () v w⟩]

/-- Three numbers are put before a consumer comes. -/
def forkLate : List (SystemLabel forkConns Nat) :=
  forkPut 1 none ++ forkPut 2 none ++ forkPut 3 none ++
    [⟨0, .get forkRight.2 none⟩, ⟨0, .get forkLeft.2 none⟩, ⟨0, .get forkLeft.2 none⟩]

/-- Both consumers wait for the first number, and one wakes the other. -/
def forkEarly : List (SystemLabel forkConns Nat) :=
  [⟨0, .getWaitNew forkRight.2⟩, ⟨0, .getWaitNew forkLeft.2⟩] ++
    forkPut 1 (some (.inr forkLeft.2)) ++
    [⟨0, .get forkLeft.2 (some (.inr forkRight.2))⟩, ⟨0, .get forkRight.2 none⟩]

/-- The state after the steps. -/
def forkEnd (ls : List (SystemLabel forkConns Nat)) : System forkThreads :=
  ls.foldl (System.next forkReader) (System.init fun _ _ => 0)

theorem systems_agree_fork : (forkEnd forkLate).gets forkLeft = [1, 2] ∧
    (forkEnd forkEarly).gets forkLeft = [1] ∧
    ∀ c, (forkEnd forkLate).gets c <+: (forkEnd forkEarly).gets c ∨
      (forkEnd forkEarly).gets c <+: (forkEnd forkLate).gets c := by
  obtain ⟨tr, h, ho⟩ := SystemRun.of_labels (P := forkThreads) forkReader (fun _ _ => 0)
    forkLate (by decide)
  obtain ⟨tr', h', ho'⟩ := SystemRun.of_labels (P := forkThreads) forkReader (fun _ _ => 0)
    forkEarly (by decide)
  exact ⟨by decide, by decide, (systems_agree h h' ho ho').2.1⟩

/-- **Every thread does what it does alone.** In a run in which no get overtakes, every thread has
made the calls, and is in the state, that it comes to when its connections deliver the sequences
that were put into their streams; and it has got only values that were put. -/
theorem thread_plays [Inhabited α] (h : SystemRun reader buffer tr s)
    (ho : ∀ y ∈ tr, y.pre.NoOvertaking y.label) (i : ι) :
    (P i).play (fun c k => (s.puts c.1)[k]?.getD default) (s.done i).length =
        (s.thread i, s.done i) ∧
      Dataflow.puts (s.done i) = s.puts i ∧
      ∀ c, reader c = i → Dataflow.gots c (s.done i) = s.gets c ∧ s.gets c <+: s.puts c.1 := by
  have hs := h.inv ho
  refine ⟨hs.plays_alone _ ?_, hs.puts i, ?_⟩
  · intro c _ k v hv
    rw [hv, Option.getD_some]
  · rintro c rfl
    exact ⟨hs.gots c, (hs.broadcast c.1).inOrder c.2⟩

theorem thread_plays_fork :
    (forkEnd forkLate).done 1 = [.got forkLeft 1, .got forkLeft 2] ∧
    ((forkThreads 1).play (fun c k => ((forkEnd forkLate).puts c.1)[k]?.getD default)
      ((forkEnd forkLate).done 1).length).2 = (forkEnd forkLate).done 1 := by
  obtain ⟨tr, h, ho⟩ := SystemRun.of_labels (P := forkThreads) forkReader (fun _ _ => 0)
    forkLate (by decide)
  exact ⟨by decide, congrArg Prod.snd (thread_plays h ho 1).1⟩

/-! ## Calls that cannot be completed -/

/-- The conditions of the call that the thread is in would let it through: it has a token or can
take one and its slot is free, or both loops of `get` end. -/
def System.CanGoOn (s : System P) (i : ι) : Prop :=
  (∃ v, (P i).WantsPut (s.thread i) v ∧
      (0 < (s.machine i).shared.stream.empty ∨ ((s.machine i).putter ()).inPut = true) ∧
      ¬ (s.machine i).shared.stream.PutWaits) ∨
    ∃ c, (P i).WantsGet (s.thread i) c ∧ (s.machine c.1).shared.Passes c.2

/-- A consumer that `get` does not serve has got all values but one, at least. -/
theorem BroadcastInv.behind_le {m : Nat} {s : Shared α m} (h : BroadcastInv s) {c : Fin m}
    (hc : ¬ s.Passes c) : s.puts.length ≤ s.reads c + 1 := by
  by_contra hfar
  have hlt : s.reads c < s.puts.length := by omega
  have howed : s.SlotOwed c := SharedInv.slotOwed h.reads_le hlt
  refine hc ⟨?_, ?_⟩
  · have hnear := h.near c
    rw [h.shared.getAhead_iff hlt]
    simp only [Shared.behind, bufferSize] at hnear ⊢
    omega
  · rw [h.shared.nothingNew_iff]
    exact not_not.2 howed

/-- While the slot at `put_idx` is not free, some consumer misses `BUFFER_SIZE` values. -/
theorem BroadcastInv.exists_far {m : Nat} {s : Shared α m} (h : BroadcastInv s) (hm : m ≤ 9999)
    (hw : s.stream.PutWaits) : ∃ c, s.puts.length = s.reads c + bufferSize := by
  by_contra hno
  have hT := (h.shared.lt_iff s.stream.putIdx).1 (h.shared.putWaits_iff.1 hw)
  rw [h.shared.putIdx] at hT
  have hall := (Ring.total_eq_iff (m := bufferSize) (by decide) h.reads_le).2 fun d =>
    Nat.lt_of_le_of_ne (h.near d) fun hd => hno ⟨d, hd⟩
  rw [Fintype.card_fin] at hall
  omega

/-- A stream whose thread cannot complete a put has a consumer that misses `BUFFER_SIZE` values. -/
theorem SystemRun.exists_far (h : SystemRun reader buffer tr s) (hinv : SystemInv reader s) {i : ι}
    (h0 : 0 < n i) (hn : n i ≤ 9999)
    (hput : ¬ ((0 < (s.machine i).shared.stream.empty ∨ ((s.machine i).putter ()).inPut = true) ∧
      ¬ (s.machine i).shared.stream.PutWaits)) :
    ∃ c : Fin (n i), (s.puts i).length = (s.gets ⟨i, c⟩).length + bufferSize := by
  obtain ⟨mtr, hm⟩ := h.streamRun i
  have hmach : MachineInv (s.machine i) := .of_run h0 hm
  refine (hinv.broadcast i).exists_far hn ?_
  by_contra hw
  have hidle : ¬ (0 < (s.machine i).shared.stream.empty ∨
      ((s.machine i).putter ()).inPut = true) := fun hor => hput ⟨hor, hw⟩
  obtain ⟨hempty, hpc⟩ := not_or.1 hidle
  -- without a token and a thread that has one, no slot is free
  refine hw (hmach.shared.putWaits_iff.2 (hmach.unread_of_no_tokens ?_ ?_ _))
  · exact Nat.eq_zero_of_not_pos hempty
  · exact Finset.card_eq_zero.2 (Finset.filter_eq_empty_iff.2 fun _ _ => hpc)

end Eece4029
