import Eece4029.Streams.Semaphore

/-!
# Lost wake-ups

The putter and all consumers wait on one condition variable, every completed put or get signals one
waiter, and a woken thread whose condition is false waits again without passing the signal on. With
one thread that puts and one that gets through each connection, what a signal has to do is to leave
some thread outside the wait set that can proceed, if any thread in it can (`Machine.Directed`):
`never_all_blocked` shows that as long as every signal does, the threads are never all blocked at
once, and that the first signal that does not can be followed by a state in which they are. With
three consumers `pthread_cond_signal` is free to choose so (`lost_wakeup`).
-/

namespace Eece4029

open Transition

variable {α : Type} {n : Nat}

/-- One thread that puts, and one that gets through each of `n` connections. -/
abbrev Threads (α : Type) (n : Nat) := Machine α Unit (Fin n) n

namespace Machine

/-! ## Blocked threads and threads that can proceed -/

/-- The thread would complete its section if it ran now: for a thread in the second loop of `get`,
the first one is behind it. -/
def Proceeds (m : Threads α n) : Unit ⊕ Fin n → Prop
  | .inl t => ((m.putter t).inPut = true ∨ 0 < m.shared.stream.empty) ∧ ¬ m.shared.stream.PutWaits
  | .inr c => (m.getter c = .waitNew ∨ m.getter c = .wokenNew ∨
      ¬ m.shared.stream.GetAhead (m.shared.bufferIdx c)) ∧
      ¬ m.shared.stream.NothingNew (m.shared.bufferIdx c)

/-- The thread is blocked: in the wait set, or in `sem_wait` with the semaphore at `0`. -/
def Blocked (m : Threads α n) : Unit ⊕ Fin n → Prop
  | .inl t => ((m.putter t).inPut = false ∧ m.shared.stream.empty = 0) ∨ m.Waits (.inl t)
  | .inr c => m.Waits (.inr c)

instance (m : Threads α n) : DecidablePred m.Blocked
  | .inl _ => inferInstanceAs (Decidable (_ ∨ _))
  | .inr c => inferInstanceAs (Decidable (m.Waits (.inr c)))

/-- Some thread in the wait set can proceed. -/
def Able (m : Threads α n) : Prop := ∃ t, m.Waits t ∧ m.Proceeds t

/-- Some thread outside the wait set can proceed. -/
def Live (m : Threads α n) : Prop := ∃ t, ¬ m.Waits t ∧ m.Proceeds t

/-- What a signal in the state `m` has to do: if some waiter can proceed, it wakes one that can, or
some thread outside the wait set can. -/
def Directed (m : Threads α n) (w : Option (Unit ⊕ Fin n)) : Prop :=
  m.Able → (∃ t, w = some t ∧ m.Proceeds t) ∨ m.Live

variable {m m' : Threads α n} {w : Option (Unit ⊕ Fin n)} {t u : Unit ⊕ Fin n}

/-- Waking a thread changes nothing about who can proceed. -/
@[simp] theorem proceeds_wake : (m.wake w).Proceeds t ↔ m.Proceeds t := by
  rcases w with _ | u | d
  · exact Iff.rfl
  · rcases t with t | c
    · simp only [Proceeds, wake_shared]
      simp [wake]
    · exact Iff.rfl
  · rcases t with t | c
    · exact Iff.rfl
    · simp only [Proceeds, wake_shared]
      by_cases hc : c = d
      · subst hc
        cases hpc : m.getter c <;> simp [wake, hpc, GetPc.wake]
      · simp [wake, Function.update_of_ne hc]

/-- After a signal some thread outside the wait set can proceed, if any thread can, exactly when the
signal was directed. -/
theorem directed_iff (hw : m.CanSignal w) :
    m.Directed w ↔ ((m.wake w).Able → (m.wake w).Live) := by
  simp only [Directed, Able, Live, waits_wake, proceeds_wake]
  constructor
  · rintro h ⟨t, ⟨hwait, -⟩, hp⟩
    rcases h ⟨t, hwait, hp⟩ with ⟨u, rfl, hu⟩ | ⟨u, hu, hpu⟩
    · exact ⟨u, fun hwu => hwu.2 rfl, hu⟩
    · exact ⟨u, fun hwu => hu hwu.1, hpu⟩
  · rintro h ⟨t, hwait, hp⟩
    by_cases hwt : w = some t
    · exact .inl ⟨t, hwt, hp⟩
    · obtain ⟨u, hu, hpu⟩ := h ⟨t, ⟨hwait, hwt⟩, hp⟩
      by_cases hwu : m.Waits u
      · exact .inl ⟨u, by_contra fun hne => hu ⟨hwu, hne⟩, hpu⟩
      · exact .inr ⟨u, hwu, hpu⟩

/-- A thread that cannot proceed goes to sleep. -/
theorem live_of_sleep (h : m.Able → m.Live) (hu : ¬ m.Proceeds u) (hu' : ¬ m'.Proceeds u)
    (hwaits : ∀ t, t ≠ u → (m'.Waits t ↔ m.Waits t))
    (hproceeds : ∀ t, t ≠ u → (m'.Proceeds t ↔ m.Proceeds t)) : m'.Able → m'.Live := by
  rintro ⟨t, hw, hp⟩
  have ht : t ≠ u := fun heq => hu' (heq ▸ hp)
  obtain ⟨v, hwv, hpv⟩ := h ⟨t, (hwaits t ht).1 hw, (hproceeds t ht).1 hp⟩
  have hv : v ≠ u := fun heq => hu (heq ▸ hpv)
  exact ⟨v, fun hwv' => hwv ((hwaits v hv).1 hwv'), (hproceeds v hv).2 hpv⟩

/-- What a getter does to its program counter alone concerns no other thread. -/
theorem waits_getter {c : Fin n} {pc : GetPc} (ht : t ≠ .inr c) :
    ({ m with getter := Function.update m.getter c pc } : Threads α n).Waits t ↔ m.Waits t := by
  rcases t with t | d
  · exact Iff.rfl
  · have hd : d ≠ c := fun heq => ht (heq ▸ rfl)
    simp [Function.update_of_ne hd]

/-- What a getter does to its program counter alone concerns no other thread. -/
theorem proceeds_getter {c : Fin n} {pc : GetPc} (ht : t ≠ .inr c) :
    ({ m with getter := Function.update m.getter c pc } : Threads α n).Proceeds t ↔
      m.Proceeds t := by
  rcases t with t | d
  · exact Iff.rfl
  · have hd : d ≠ c := fun heq => ht (heq ▸ rfl)
    simp only [Proceeds, Function.update_of_ne hd]

end Machine

/-! ## Directed runs -/

variable {m m' : Threads α n} {l : Label α Unit (Fin n)}

/-- The signal of the step is directed, if the step has one. -/
def DirectedStep (m : Threads α n) (l : Label α Unit (Fin n)) : Prop :=
  match l with
  | .put t value wake => (m.putSection t value).Directed wake
  | .get c wake => (m.getSection id c).Directed wake
  | _ => True

/-- If a thread in the wait set can proceed then one outside of it can: every step keeps that, and
directed signals establish it. -/
theorem StreamStep.live (hs : StreamStep id m l m') (hd : DirectedStep m l) (h : m.Able → m.Live) :
    m'.Able → m'.Live := by
  obtain ⟨hen, rfl⟩ := hs
  cases l with
  | semWait t value =>
    rintro ⟨u, hw, hp⟩
    rcases u with u | c
    · simp [Machine.next, PutPc.isWaiting] at hw
    · obtain ⟨v, hwv, hpv⟩ := h ⟨.inr c, hw, hp⟩
      refine ⟨v, ?_, ?_⟩
      · rcases v with v | d
        · simp [Machine.next, PutPc.isWaiting]
        · exact hwv
      · rcases v with v | d
        · exact ⟨.inl (by simp [Machine.next, PutPc.inPut]), hpv.2⟩
        · exact hpv
  | putWait t value =>
    refine Machine.live_of_sleep (u := .inl t) h (fun hp => hp.2 hen.2) (fun hp => hp.2 hen.2)
      ?_ ?_
    · intro u hu
      rcases u with u | c
      · exact absurd rfl hu
      · exact Iff.rfl
    · intro u hu
      rcases u with u | c
      · exact absurd rfl hu
      · exact Iff.rfl
  | put t value wake => exact (Machine.directed_iff hen.2.2).1 hd
  | getWaitAhead c =>
    obtain ⟨hpc, hahead⟩ := hen
    refine Machine.live_of_sleep (u := .inr c) h ?_ ?_ (fun u hu => Machine.waits_getter hu)
      fun u hu => Machine.proceeds_getter hu
    · rintro ⟨hwait | hwoken | hno, -⟩
      · simp [hwait, GetPc.atAhead] at hpc
      · simp [hwoken, GetPc.atAhead] at hpc
      · exact hno hahead
    · rintro ⟨hwait | hwoken | hno, -⟩
      · simp [Machine.next] at hwait
      · simp [Machine.next] at hwoken
      · exact hno hahead
  | getWaitNew c =>
    obtain ⟨-, hnew⟩ := hen
    exact Machine.live_of_sleep (u := .inr c) h (fun hp => hp.2 hnew) (fun hp => hp.2 hnew)
      (fun u hu => Machine.waits_getter hu) fun u hu => Machine.proceeds_getter hu
  | get c wake => exact (Machine.directed_iff hen.2.2).1 hd
  | spurious t =>
    rintro ⟨u, hw, hp⟩
    obtain ⟨v, hwv, hpv⟩ := h ⟨u, (Machine.waits_wake.1 hw).1, Machine.proceeds_wake.1 hp⟩
    exact ⟨v, fun hwv' => hwv (Machine.waits_wake.1 hwv').1, Machine.proceeds_wake.2 hpv⟩

/-- When every thread is blocked, one of them could proceed if it were woken. -/
theorem MachineInv.able_of_blocked (h : MachineInv m) (hb : ∀ t, m.Blocked t) : m.Able := by
  by_contra hno
  have hstuck : ∀ t, m.Waits t → ¬ m.Proceeds t := fun t hw hp => hno ⟨t, hw, hp⟩
  have hall : ∀ i, m.shared.stream.bufferReadCount i < n := by
    rcases hb (.inl ()) with ⟨hidle, hempty⟩ | hw
    · refine h.unread_of_no_tokens hempty (Finset.card_eq_zero.2 (Finset.filter_eq_empty_iff.2 ?_))
      exact fun t _ => by simp [hidle]
    · have hin : (m.putter ()).inPut = true := by
        rw [Machine.waits_inl] at hw
        cases hpc : m.putter () <;> simp_all [PutPc.isWaiting, PutPc.inPut]
      exact h.shared.order (not_not.1 fun hfree => hstuck _ hw ⟨.inl hin, hfree⟩)
  refine h.shared.not_all_ahead hall ?_
  intro c
  by_contra hahead
  exact hstuck (.inr c) (hb (.inr c)) ⟨.inr (.inr hahead), (h.shared.new_iff _).2 (hall _)⟩

/-- While a thread outside the wait set can proceed, not all threads are blocked. -/
theorem Machine.Live.not_blocked (h : m.Live) : ¬ ∀ t, m.Blocked t := by
  obtain ⟨t, hw, hp⟩ := h
  intro hb
  rcases t with t | c
  · rcases hb (.inl t) with ⟨hidle, hempty⟩ | hwait
    · rcases hp.1 with hin | hpos
      · simp [hidle] at hin
      · omega
    · exact hw hwait
  · exact hw (hb (.inr c))

/-! ## What an undirected signal leads to -/

/-- A getter that cannot proceed goes to sleep. -/
theorem Machine.getter_sleeps {c : Fin n} (hw : ¬ m.Waits (.inr c)) (hp : ¬ m.Proceeds (.inr c)) :
    ∃ l pc, StreamStep id m l { m with getter := Function.update m.getter c pc } ∧
      l.isSpurious = false ∧ pc.isWaiting = true := by
  by_cases hahead : (m.getter c).atAhead = true ∧ m.shared.stream.GetAhead (m.shared.bufferIdx c)
  · exact ⟨.getWaitAhead c, .waitAhead, ⟨hahead, rfl⟩, rfl, rfl⟩
  · have hpast : m.PastAhead id c := by
      cases hpc : m.getter c with
      | idle | wokenAhead =>
        have hat : (m.getter c).atAhead = true := by rw [hpc]; rfl
        exact .inl ⟨hat, fun h => hahead ⟨hat, h⟩⟩
      | wokenNew => exact .inr hpc
      | waitAhead | waitNew => exact absurd (by rw [Machine.waits_inr, hpc]; rfl) hw
    have hnew : m.shared.stream.NothingNew (m.shared.bufferIdx c) := by
      by_contra hnew
      rcases hpast with ⟨-, hno⟩ | hpc
      · exact hp ⟨.inr (.inr hno), hnew⟩
      · exact hp ⟨.inr (.inl hpc), hnew⟩
    exact ⟨.getWaitNew c, .waitNew, ⟨⟨hpast, hnew⟩, rfl⟩, rfl, rfl⟩

/-- While no thread outside the wait set can proceed, the getters can all go to sleep. -/
theorem Machine.getters_sleep (hlive : ¬ m.Live) : ∃ tr m', Run (StreamStep id) m tr m' ∧
    (∀ x ∈ tr, x.label.isSpurious = false) ∧ ¬ m'.Live ∧ ∀ c, m'.Waits (.inr c) := by
  -- by induction on the number of getters that are awake
  induction hk : (Finset.univ.filter fun c => ¬ m.Waits (.inr c)).card generalizing m with
  | zero =>
    have hnone := Finset.filter_eq_empty_iff.1 (Finset.card_eq_zero.1 hk)
    exact ⟨[], m, .nil, fun x hx => (nomatch hx), hlive,
      fun c => not_not.1 (hnone (Finset.mem_univ c))⟩
  | succ k ih =>
    obtain ⟨c, hc⟩ := Finset.card_pos.1 (by rw [hk]; exact Nat.succ_pos k)
    have hw : ¬ m.Waits (.inr c) := (Finset.mem_filter.1 hc).2
    obtain ⟨l, pc, hs, hl, hpc⟩ := Machine.getter_sleeps hw fun hp => hlive ⟨_, hw, hp⟩
    have hwaits : ({ m with getter := Function.update m.getter c pc } : Threads α n).Waits
        (.inr c) := by simpa using hpc
    have hlive' : ¬ ({ m with getter := Function.update m.getter c pc } : Threads α n).Live := by
      rintro ⟨t, ht, hp⟩
      have hne : t ≠ .inr c := fun heq => ht (heq ▸ hwaits)
      exact hlive ⟨t, fun h => ht ((Machine.waits_getter hne).2 h),
        (Machine.proceeds_getter hne).1 hp⟩
    have hcard : (Finset.univ.filter fun d =>
        ¬ ({ m with getter := Function.update m.getter c pc } : Threads α n).Waits (.inr d)) =
        (Finset.univ.filter fun d => ¬ m.Waits (.inr d)).erase c := by
      ext d
      rw [Finset.mem_erase, Finset.mem_filter, Finset.mem_filter]
      by_cases hd : d = c
      · subst hd
        simp [hpc]
      · rw [Machine.waits_getter fun heq => hd (Sum.inr.inj heq)]
        simp [hd]
    obtain ⟨tr, m', hr, hsp, hm', hall⟩ := ih hlive' (by
      rw [hcard, Finset.card_erase_of_mem hc, hk]
      rfl)
    exact ⟨_, m', (Run.nil.snoc hs).append hr,
      List.forall_mem_append.2 ⟨List.forall_mem_singleton.2 hl, hsp⟩, hm', hall⟩

/-- A putter that waits in its loop is the last thread to go to sleep. -/
theorem Machine.putter_sleeps {value : α} (hpc : (m.putter ()).AtLoop value)
    (hw : m.shared.stream.PutWaits) (hget : ∀ c, m.Waits (.inr c)) :
    StreamStep id m (.putWait () value) (m.next id (.putWait () value)) ∧
      ∀ t, (m.next id (.putWait () value)).Blocked t := by
  refine ⟨⟨⟨hpc, hw⟩, rfl⟩, ?_⟩
  intro t
  rcases t with t | c
  · exact .inr (by simp [Machine.next, PutPc.isWaiting])
  · exact hget c

/-- While no thread outside the wait set can proceed, all threads can become blocked. -/
theorem Machine.all_block (hlive : ¬ m.Live) : ∃ tr m', Run (StreamStep id) m tr m' ∧
    (∀ x ∈ tr, x.label.isSpurious = false) ∧ ∀ t, m'.Blocked t := by
  obtain ⟨tr, m₁, hr, hsp, hlive₁, hget⟩ := Machine.getters_sleep hlive
  -- the run so far and one more step that is not spurious
  have hsnoc : ∀ {tr : List (Step (Threads α n) (Label α Unit (Fin n)))} {m₂ : Threads α n} {l m₃},
      (∀ x ∈ tr, x.label.isSpurious = false) → l.isSpurious = false →
      ∀ x ∈ tr ++ [⟨m₂, l, m₃⟩], x.label.isSpurious = false := fun htr hl =>
    List.forall_mem_append.2 ⟨htr, List.forall_mem_singleton.2 hl⟩
  by_cases hwait : m₁.Waits (.inl ())
  · refine ⟨tr, m₁, hr, hsp, ?_⟩
    intro t
    rcases t with t | c
    · exact .inr hwait
    · exact hget c
  have hstuck : (m₁.putter ()).inPut = true ∨ 0 < m₁.shared.stream.empty →
      m₁.shared.stream.PutWaits := fun h =>
    not_not.1 fun hfree => hlive₁ ⟨.inl (), hwait, h, hfree⟩
  cases hpc : m₁.putter () with
  | idle =>
    rcases Nat.eq_zero_or_pos m₁.shared.stream.empty with hempty | hempty
    · refine ⟨tr, m₁, hr, hsp, ?_⟩
      intro t
      rcases t with t | c
      · exact .inl ⟨by rw [show t = () from rfl, hpc]; rfl, hempty⟩
      · exact hget c
    · -- it takes a token first, with any value
      have hs : StreamStep id m₁ (.semWait () (m₁.shared.stream.buffer 0)) (m₁.next id _) :=
        ⟨⟨by rw [hpc]; rfl, hempty⟩, rfl⟩
      have hin : ((m₁.next id (.semWait () (m₁.shared.stream.buffer 0))).putter ()).AtLoop
          (m₁.shared.stream.buffer 0) := .inl (by simp [Machine.next])
      obtain ⟨hs', hb⟩ := Machine.putter_sleeps hin (hstuck (.inr hempty)) hget
      exact ⟨_, _, (hr.snoc hs).snoc hs', hsnoc (hsnoc hsp rfl) rfl, hb⟩
  | entered value =>
    obtain ⟨hs, hb⟩ := Machine.putter_sleeps (.inl hpc) (hstuck (.inl (by rw [hpc]; rfl))) hget
    exact ⟨_, _, hr.snoc hs, hsnoc hsp rfl, hb⟩
  | waiting value => exact absurd (by rw [Machine.waits_inl, hpc]; rfl) hwait
  | woken value =>
    obtain ⟨hs, hb⟩ := Machine.putter_sleeps (.inr hpc) (hstuck (.inl (by rw [hpc]; rfl))) hget
    exact ⟨_, _, hr.snoc hs, hsnoc hsp rfl, hb⟩

/-! ## Lost wake-ups -/

/-- **The threads are never all blocked while every signal is directed**, and a signal that is not
directed can be followed by steps after which they are. -/
theorem never_all_blocked {buffer : Slot → α}
    {tr : List (Step (Threads α n) (Label α Unit (Fin n)))} (h0 : 1 ≤ n)
    (h : StreamRun id buffer tr m) :
    ((∀ x ∈ tr, DirectedStep x.pre x.label) →
      (¬ ∀ t, m.Blocked t) ∧ ∀ x ∈ tr, (¬ ∀ t, x.pre.Blocked t) ∧ ¬ ∀ t, x.post.Blocked t) ∧
    ∀ x ∈ tr, ¬ DirectedStep x.pre x.label → ∃ tr' m', Run (StreamStep id) x.post tr' m' ∧
      (∀ y ∈ tr', y.label.isSpurious = false) ∧ ∀ t, m'.Blocked t := by
  have hfree : ∀ {m : Threads α n}, MachineInv m ∧ (m.Able → m.Live) → ¬ ∀ t, m.Blocked t :=
    fun h hb => (h.2 (h.1.able_of_blocked hb)).not_blocked hb
  constructor
  · intro hd
    have hinit : MachineInv (Machine.init buffer : Threads α n) ∧
        ((Machine.init buffer : Threads α n).Able → (Machine.init buffer : Threads α n).Live) := by
      refine ⟨.init buffer, ?_⟩
      rintro ⟨t | c, hw, -⟩
      · exact absurd hw (by simp [Machine.init, PutPc.isWaiting])
      · exact absurd hw (by simp [Machine.init, GetPc.isWaiting])
    obtain ⟨hm, hall⟩ := h.inv_where (I := fun m => MachineInv m ∧ (m.Able → m.Live))
      (C := DirectedStep) hinit (fun _ _ _ hi hd hs => ⟨hi.1.step h0 hs, hs.live hd hi.2⟩) hd
    exact ⟨hfree hm, fun x hx => ⟨hfree (hall x hx).1, hfree (hall x hx).2⟩⟩
  · intro x hx hnd
    obtain ⟨-, hen, hpost⟩ := h.mem x hx
    have hlive : ¬ x.post.Live := by
      obtain ⟨pre, label, post⟩ := x
      obtain rfl : post = pre.next id label := hpost
      cases label with
      | put t value wake =>
        exact fun hl => hnd ((Machine.directed_iff hen.2.2).2 fun _ => hl)
      | get c wake =>
        exact fun hl => hnd ((Machine.directed_iff hen.2.2).2 fun _ => hl)
      | semWait | putWait | getWaitAhead | getWaitNew | spurious => exact absurd trivial hnd
    exact Machine.all_block hlive

/-- Two of three consumers get the next value; the signals of both wake the other one of the two,
and both wait again. -/
def pingPong : List (Label Nat Unit (Fin 3)) :=
  [.get 0 (some (.inr 1)), .getWaitAhead 0, .get 1 (some (.inr 0)), .getWaitAhead 0,
    .getWaitAhead 1]

/-- All three consumers wait in the first loop; from then on no signal wakes the third one, until
the putter is out of free slots. -/
def thirdSleeps : List (Label Nat Unit (Fin 3)) :=
  [.semWait () 0, .put () 0 none, .semWait () 0, .getWaitAhead 0, .getWaitAhead 1, .getWaitAhead 2,
    .put () 0 (some (.inr 0))] ++
  (List.replicate 3 ([.semWait () 0] ++ pingPong ++ [.put () 0 (some (.inr 0))])).flatten ++
  pingPong

/-- The state they lead to. -/
def thirdSleepsEnd : Threads Nat 3 :=
  thirdSleeps.foldl (Machine.next id) (Machine.init fun _ => 0)

theorem thirdSleeps_run : ∃ tr, StreamRun id (fun _ => 0) tr thirdSleepsEnd ∧
    tr.map (·.label) = thirdSleeps :=
  StreamRun.of_labels (n := 3) id (fun _ => 0) thirdSleeps (by decide)

/-- All threads are blocked at once, without a spurious wake-up, although the third consumer has not
got anything of the full buffer. -/
theorem lost_wakeup : ¬ ∀ tr m, StreamRun id (fun _ => 0) tr (m : Threads Nat 3) →
    (∀ x ∈ tr, x.label.isSpurious = false) → ¬ ∀ t, m.Blocked t := by
  intro hall
  obtain ⟨tr, hr, hlabels⟩ := thirdSleeps_run
  have hsp : ∀ l ∈ thirdSleeps, l.isSpurious = false := by decide
  exact hall tr thirdSleepsEnd hr
    (fun x hx => hsp _ (hlabels ▸ List.mem_map_of_mem hx)) (by decide)

/-- One of its signals is not directed. -/
theorem never_all_blocked_thirdSleeps : ∃ tr, StreamRun id (fun _ => 0) tr thirdSleepsEnd ∧
    ¬ ∀ x ∈ tr, DirectedStep x.pre x.label := by
  obtain ⟨tr, hr, -⟩ := thirdSleeps_run
  exact ⟨tr, hr, fun hd => ((never_all_blocked (by decide) hr).1 hd).1 (by decide)⟩

end Eece4029
