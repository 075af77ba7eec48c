import Eece4029.Battcheck.Blocks
import Eece4029.Battcheck.Monitor

/-!
# What battcheck does for its users

Leaving the pointers aside, battcheck finds batteries, and from the start of its thread on they are
monitored, as in `Battcheck.Monitor`, while calls of `read_proc` go over them at their own pace.
`BatteryService` is this machine, on a list of batteries and places in it. Here is that the module
does what it does: `Represents` relates their states, and `Represents.outcome` says of every step of
the module that it is one of the service, or is not seen by it, or is one of two mistakes.
-/

namespace Eece4029

open Transition

/-! ## The service -/

/-- The batteries found, the thread that monitors them if it was started, and for every call of
`read_proc` under way the number of batteries it has printed and what it has printed. -/
structure BatteryService (ρ : Type) where
  found : List AcpiChild
  started : Bool
  monitor : Monitor
  reader : ρ → Option (Nat × List Char)

/-- What the service does. -/
inductive ServiceCall (ρ : Type)
  | find (c : AcpiChild)
  | start
  | monitor (call : MonitorCall)
  | read (r : ρ)
  | entry (r : ρ)
  | text (r : ρ) (text : List Char)

/-- The monitor of the batteries that were found. -/
def watch (found : List AcpiChild) : Monitor := .init (found.map fun c => (c.text, c.info))

section
variable {ρ : Type}

/-- Nothing was found. -/
def BatteryService.init : BatteryService ρ := ⟨[], false, watch [], fun _ => none⟩

variable [DecidableEq ρ]

/-- A step of the service. -/
inductive ServiceStep (a : BatteryService ρ) : ServiceCall ρ → BatteryService ρ → Prop
  | find {c : AcpiChild} (h : a.started = false) :
      ServiceStep a (.find c)
        { a with found := a.found ++ [c], monitor := watch (a.found ++ [c]) }
  | start (h : a.started = false) : ServiceStep a .start { a with started := true }
  | monitor {call : MonitorCall} {m : Monitor} (h : a.started = true)
      (hm : MonitorStep a.monitor call m) :
      ServiceStep a (.monitor call) { a with monitor := m }
  | read {r : ρ} (h : a.reader r = none) :
      ServiceStep a (.read r)
        { a with reader := Function.update a.reader r (some (0, " | ".toList)) }
  | entry {r : ρ} {i : Nat} {buf : List Char} {b : AcpiBattery} (h : a.reader r = some (i, buf))
      (hb : a.monitor.batteries[i]? = some b) :
      ServiceStep a (.entry r) { a with
        reader := Function.update a.reader r (some (i + 1, buf ++ BattcheckModule.entry b)) }
  | text {r : ρ} {i : Nat} {buf : List Char} (h : a.reader r = some (i, buf))
      (hend : a.monitor.batteries.length ≤ i) :
      ServiceStep a (.text r (buf ++ "\n".toList))
        { a with reader := Function.update a.reader r none }

/-- The step of the service that is seen in a step of the module. -/
def serviceCall (s : BattcheckModule ρ) : BattcheckLabel ρ → Option (ServiceCall ρ)
  | .findChild ok =>
    match s.pc with
    | .find (c :: _) device =>
      if (device || c.device) ∧ c.status = some true ∧ ok then some (.find c) else none
    | _ => none
  | .kthreadRun ok => if ok then some .start else none
  | .threadCheck eval reports => some (.monitor (.sample eval reports))
  | .threadTimeout delay => some (.monitor (.sleep delay))
  | .read r offset _ => if offset = 0 then some (.read r) else none
  | .readBattery r => some (.entry r)
  | .readEnd r text => some (.text r text)
  | _ => none

/-- The service makes this step, or none. -/
def BatteryService.Follows (a : BatteryService ρ) : Option (ServiceCall ρ) → BatteryService ρ → Prop
  | none, a' => a' = a
  | some call, a' => ServiceStep a call a'

end

section
variable {ρ : Type}

/-- What the thread does in a step. -/
def threadCall : BattcheckLabel ρ → Option MonitorCall
  | .threadCheck eval reports => some (.sample eval reports)
  | .threadTimeout delay => some (.sleep delay)
  | _ => none

/-- What the monitor does in a step of the service. -/
def ServiceCall.toMonitor : ServiceCall ρ → Option MonitorCall
  | .monitor call => some call
  | _ => none

theorem bind_toMonitor (s : BattcheckModule ρ) (label : BattcheckLabel ρ) :
    (serviceCall s label).bind ServiceCall.toMonitor = threadCall label := by
  cases label with
  | findChild =>
    simp only [serviceCall]
    split
    · split <;> rfl
    · rfl
  | kthreadRun ok => cases ok <;> rfl
  | read r offset ok =>
    simp only [serviceCall]
    split <;> rfl
  | _ => rfl

end

/-! ## The module -/

section
variable {ρ : Type}

/-- The thread has returned or died. -/
def Task.Over (task : Task) : Prop := task = .ended ∨ task = .trapped

/-- What the places of `init_battcheck` and `exit_battcheck` mean for the entry in `/proc`, the
thread and the flag that stops it. -/
def Phase : BattcheckPc → Bool → Task → Bool → Prop
  | .init, proc, task, stop | .find _ _, proc, task, stop | .found, proc, task, stop
  | .failed _, proc, task, stop => proc = false ∧ task = .none ∧ stop = false
  | .proc, _, task, stop => task = .none ∧ stop = false
  | .loaded, _, task, stop => task ≠ .none ∧ task ≠ .ended ∧ stop = false
  | .stopping, _, task, stop => task ≠ .none ∧ task ≠ .error ∧ stop = true
  | .stopped, _, task, _ => task.Over
  | .freeing _ _, proc, task, _ | .exited, proc, task, _ => task.Over ∧ proc = false

/-- `exit_battcheck` is in its loop or at its end. -/
def BattcheckPc.Leaving : BattcheckPc → Prop
  | .freeing _ _ | .exited => True
  | _ => False

/-- The children that `find_batteries` has gone over without an error, and the batteries among
them. -/
def WalkedPast (pre found : List AcpiChild) : Prop :=
  (∀ c ∈ pre, c.status ≠ none) ∧ found = pre.filter fun c => c.status = some true

/-- How far `find_batteries` has come, and with what result. -/
def Walked (bus : Option (List AcpiChild)) (found : List AcpiChild) : BattcheckPc → Prop
  | .init => found = []
  | .find rest device => ∃ pre, bus = some (pre ++ rest) ∧ WalkedPast pre found ∧
      device = !pre.isEmpty
  | .failed status => bus = none ∧ status = -1 ∧ found = [] ∨
      ∃ pre c post, bus = some (pre ++ c :: post) ∧ WalkedPast pre found ∧
        (c.status = none ∧ status = -ENODEV ∨
          c.status = some true ∧ status = -BattcheckModule.ENOMEM)
  | _ => ∃ children, bus = some children ∧ WalkedPast children found

/-- What the thread is about to do is what the monitor is about to do. -/
def TaskRep (l : List Nat) (a : BatteryService ρ) : Task → Prop
  | .none | .error => a.started = false ∧ a.monitor = watch a.found
  | .running (.each battery delay) => a.started = true ∧ a.monitor.trapped = false ∧
      battery = cursor l a.monitor.pos ∧ delay = a.monitor.delay
  | .running _ => a.started = true ∧ a.monitor.trapped = false ∧ a.monitor.pos = 0 ∧
      a.monitor.delay = 1
  | .trapped | .ended => True

/-- A call of `read_proc` and what the service knows about it. -/
def ReaderRep (l : List Nat) (reader : Reader) (x : Nat × List Char) : Prop :=
  reader.battery = cursor l x.1 ∧ reader.buf = x.2

/-- The state of the service that a state of the module stands for, where the blocks of `l` are the
elements of the list. -/
structure Represents (bus : Option (List AcpiChild)) (s : BattcheckModule ρ)
    (a : BatteryService ρ) (l scratch : List Nat) (bs : List AcpiBattery) : Prop where
  begun : s.pc ≠ .init
  intact : s.crashed = none
  phase : Phase s.pc s.proc s.task s.shouldStop
  walked : Walked bus a.found s.pc
  names : s.names = a.found.countP (·.name.isSome)
  blocks : BatteryBlocks s.heap l scratch bs
  listed : ¬ s.pc.Leaving → bs = a.monitor.batteries
  leaving : s.pc.Leaving → s.Idle
  freeing : ∀ battery tmp, s.pc = .freeing battery tmp → battery = cursor l 0 ∧ tmp = cursor l 1
  exited : s.pc = .exited → l = []
  task : TaskRep l a s.task
  served : ∀ r, s.reader r ≠ none → s.proc = true
  readers : ∀ r, Option.Rel (ReaderRep l) (s.reader r) (a.reader r)

/-- The two mistakes: the first child of the bus has no device, which `find_batteries` does not
notice, and `exit_battcheck` stops a thread that was never started or that has died. -/
def Hazard (bus : Option (List AcpiChild)) (s : BattcheckModule ρ) : BattcheckLabel ρ → Prop
  | .findChild _ => ∃ c rest, bus = some (c :: rest) ∧ s.pc = .find (c :: rest) false ∧
      c.device = false
  | .kthreadStop => s.task = .error ∨ s.task = .trapped
  | _ => False

/-- The step makes a block for a loop variable, which nothing frees. -/
def losesBlock (s : BattcheckModule ρ) : BattcheckLabel ρ → Bool
  | .threadStart ok => !s.shouldStop && ok
  | .read _ offset ok => offset == 0 && ok
  | _ => false

variable {bus : Option (List AcpiChild)} {s s' : BattcheckModule ρ} {a a' : BatteryService ρ}
  {l scratch : List Nat} {bs : List AcpiBattery}

/-- `find_batteries` goes past a child, with a battery or without. -/
theorem WalkedPast.snoc {pre found : List AcpiChild} (h : WalkedPast pre found) {c : AcpiChild}
    {present : Bool} (hc : c.status = some present) :
    WalkedPast (pre ++ [c]) (if present then found ++ [c] else found) := by
  obtain ⟨hpre, hfound⟩ := h
  refine ⟨?_, ?_⟩
  · intro c' hc'
    rcases List.mem_append.1 hc' with hc' | hc'
    · exact hpre c' hc'
    · rw [List.mem_singleton.1 hc', hc]
      nofun
  · cases present <;> simp [hfound, hc]

namespace Represents

/-- A step that moves only what the phases are about. -/
theorem moveTo {pc : BattcheckPc} {proc stop started : Bool} {task : Task}
    (h : Represents bus s a l scratch bs) (hl : ¬ s.pc.Leaving) (hb : pc ≠ .init)
    (hl' : ¬ pc.Leaving) (hphase : Phase pc proc task stop) (hwalked : Walked bus a.found pc)
    (htask : TaskRep l { a with started := started } task)
    (hserved : ∀ r, s.reader r ≠ none → proc = true) :
    Represents bus { s with pc := pc, proc := proc, task := task, shouldStop := stop }
      { a with started := started } l scratch bs :=
  { h with
    begun := hb
    phase := hphase
    walked := hwalked
    listed := fun _ => h.listed hl
    leaving := fun h => absurd h hl'
    freeing := by
      rintro battery tmp rfl
      exact absurd trivial hl'
    exited := by
      rintro rfl
      exact absurd trivial hl'
    task := htask
    served := hserved }

/-- While there is no entry in `/proc`, nothing is read. -/
theorem idle (h : Represents bus s a l scratch bs) (hproc : s.proc = false) : s.Idle := by
  intro r
  by_contra hr
  rw [h.served r hr] at hproc
  cases hproc

/-- A call that is not under way is none of the service. -/
theorem reader_none {r : ρ} (h : Represents bus s a l scratch bs) (hr : s.reader r = none) :
    a.reader r = none := by
  have hrel := h.readers r
  rw [hr] at hrel
  generalize a.reader r = y at hrel
  cases hrel
  rfl

/-- A call under way is one of the service, and there is an entry in `/proc`. -/
theorem reader_some {r : ρ} {i : Reader} (h : Represents bus s a l scratch bs)
    (hr : s.reader r = some i) :
    s.proc = true ∧ ∃ k, a.reader r = some (k, i.buf) ∧ i.battery = cursor l k := by
  refine ⟨h.served r (by rw [hr]; nofun), ?_⟩
  have hrel := h.readers r
  rw [hr] at hrel
  generalize a.reader r = y at hrel
  cases hrel with
  | some hrep => exact ⟨_, by rw [hrep.2], hrep.1⟩

/-- Without calls of `read_proc` there are none in the service. -/
theorem readers_idle (h : Represents bus s a l scratch bs) (hidle : s.Idle) (l' : List Nat)
    (r : ρ) : Option.Rel (ReaderRep l') (s.reader r) (a.reader r) := by
  rw [h.reader_none (hidle r), hidle r]
  exact .none

/-- One more battery. -/
theorem addBattery {heap : BatteryHeap} {b : Nat} {c : AcpiChild} {rest : List AcpiChild}
    (h : Represents bus s a l scratch bs) (hl : ¬ s.pc.Leaving)
    (hphase : s.proc = false ∧ s.task = .none ∧ s.shouldStop = false)
    (hwalked : Walked bus (a.found ++ [c]) (.find rest true))
    (hblocks : BatteryBlocks heap (l ++ [b]) scratch (bs ++ [.found c.text c.info])) :
    Represents bus { s with
        pc := .find rest true, heap := heap
        names := s.names + (if c.name.isSome then 1 else 0) }
      { a with found := a.found ++ [c], monitor := watch (a.found ++ [c]) }
      (l ++ [b]) scratch (bs ++ [.found c.text c.info]) := by
  have htask := h.task
  rw [hphase.2.1] at htask
  refine { h with
    begun := nofun
    phase := hphase
    walked := hwalked
    names := ?_
    blocks := hblocks
    listed := fun _ => ?_
    leaving := False.elim
    freeing := nofun
    exited := nofun
    task := ?_
    readers := fun r => ?_ }
  · rw [List.countP_append, List.countP_singleton, h.names]
  · rw [h.listed hl, htask.2]
    simp [watch, Monitor.init]
  · rw [hphase.2.1]
    exact ⟨htask.1, rfl⟩
  · exact h.readers_idle (h.idle hphase.1) _ r

/-- While the thread runs, the module is loaded or waits for the thread. -/
theorem running {pc : CheckPc} (h : Represents bus s a l scratch bs)
    (htask : s.task = .running pc) :
    s.pc = .loaded ∧ s.shouldStop = false ∨ s.pc = .stopping ∧ s.shouldStop = true := by
  have hphase := h.phase
  rw [htask] at hphase
  cases hpc : s.pc with
  | loaded =>
    rw [hpc] at hphase
    exact .inl ⟨rfl, hphase.2.2⟩
  | stopping =>
    rw [hpc] at hphase
    exact .inr ⟨rfl, hphase.2.2⟩
  | init | find | found | failed =>
    rw [hpc] at hphase
    cases hphase.2.1
  | proc =>
    rw [hpc] at hphase
    cases hphase.1
  | stopped =>
    rw [hpc] at hphase
    rcases hphase with hover | hover <;> cases hover
  | freeing | exited =>
    rw [hpc] at hphase
    rcases hphase.1 with hover | hover <;> cases hover

theorem not_leaving {pc : CheckPc} (h : Represents bus s a l scratch bs)
    (htask : s.task = .running pc) : ¬ s.pc.Leaving := by
  rcases h.running htask with ⟨hpc, -⟩ | ⟨hpc, -⟩ <;> rw [hpc] <;> exact id

theorem not_leaving_of_proc (h : Represents bus s a l scratch bs) (hproc : s.proc = true) :
    ¬ s.pc.Leaving := by
  intro hl
  have hphase := h.phase
  rw [hproc] at hphase
  cases hpc : s.pc with
  | freeing | exited =>
    rw [hpc] at hphase
    cases hphase.2
  | _ =>
    rw [hpc] at hl
    exact hl.elim

/-- A step of the thread. -/
theorem threadTo {pc : CheckPc} {task : Task} {heap : BatteryHeap} {m : Monitor}
    {scratch' : List Nat} {bs' : List AcpiBattery} (h : Represents bus s a l scratch bs)
    (htask : s.task = .running pc)
    (htask' : task = .trapped ∨ (∃ pc', task = .running pc') ∨ task = .ended ∧ s.shouldStop = true)
    (hblocks : BatteryBlocks heap l scratch' bs') (hm : bs' = m.batteries)
    (hrep : TaskRep l { a with monitor := m } task) :
    Represents bus { s with heap := heap, task := task } { a with monitor := m } l scratch'
      bs' := by
  obtain ⟨hloaded, hphase⟩ : ¬ s.pc.Leaving ∧ Phase s.pc s.proc task s.shouldStop := by
    rcases h.running htask with ⟨hpc, hstop⟩ | ⟨hpc, hstop⟩
    · rw [hpc, hstop]
      rcases htask' with rfl | ⟨pc', rfl⟩ | ⟨-, hstop'⟩
      · exact ⟨id, nofun, nofun, rfl⟩
      · exact ⟨id, nofun, nofun, rfl⟩
      · cases hstop.symm.trans hstop'
    · rw [hpc, hstop]
      rcases htask' with rfl | ⟨pc', rfl⟩ | ⟨rfl, -⟩ <;> exact ⟨id, nofun, nofun, rfl⟩
  exact { h with
    phase := hphase
    blocks := hblocks
    listed := fun _ => hm
    task := hrep }

end Represents

/-- After `INIT_LIST_HEAD` the module stands for the service before its first step. -/
theorem represents_init {heap : BatteryHeap} {pc : BattcheckPc}
    (hblocks : BatteryBlocks heap [] [] []) (hb : pc ≠ .init) (hl : ¬ pc.Leaving)
    (hphase : Phase pc false .none false) (hwalked : Walked bus [] pc) :
    Represents bus { (.init : BattcheckModule ρ) with heap := heap, pc := pc } .init [] [] [] where
  begun := hb
  intact := rfl
  phase := hphase
  walked := hwalked
  names := rfl
  blocks := hblocks
  listed := fun _ => rfl
  leaving := fun h => absurd h hl
  freeing := by
    rintro battery tmp rfl
    exact absurd trivial hl
  exited := fun _ => rfl
  task := ⟨rfl, rfl⟩
  served := fun _ h => absurd rfl h
  readers := fun _ => .none

/-- A mistake is not seen by the service. -/
theorem Hazard.unseen {label : BattcheckLabel ρ} (h : Hazard bus s label) :
    serviceCall s label = none ∧ losesBlock s label = false := by
  cases label with
  | findChild =>
    obtain ⟨c, rest, -, hpc, hc⟩ := h
    simp [serviceCall, losesBlock, hpc, hc]
  | kthreadStop => exact ⟨rfl, rfl⟩
  | _ => exact h.elim

variable [DecidableEq ρ] {label : BattcheckLabel ρ} {result : Except Stop (BattcheckModule ρ)}
  {r : ρ} {ok : Bool}

/-- What comes of a step: a state that the service follows, or a crash where there is a mistake. -/
def Outcome (bus : Option (List AcpiChild)) (s : BattcheckModule ρ) (a : BatteryService ρ)
    (scratch : List Nat) (label : BattcheckLabel ρ) : Except Stop (BattcheckModule ρ) → Prop
  | .ok s' => ∃ a' l' scratch' bs', Represents bus s' a' l' scratch' bs' ∧
      a.Follows (serviceCall s label) a' ∧
      scratch'.length = scratch.length + (if losesBlock s label then 1 else 0) ∧
      ¬ Hazard bus s label
  | .error _ => Hazard bus s label

/-! ## The steps one by one -/

namespace Represents

/-- A step that the service does not see and that makes no block. -/
theorem silent (h : Represents bus s' a l scratch bs) (hcall : serviceCall s label = none)
    (hlose : losesBlock s label = false) (hsafe : ¬ Hazard bus s label) :
    Outcome bus s a scratch label (.ok s') :=
  ⟨a, l, scratch, bs, h, by rw [hcall]; rfl, by rw [hlose]; rfl, hsafe⟩

theorem findBatteries (h : Represents bus s a l scratch bs)
    (hx : s.exec bus .findBatteries = some result) :
    Outcome bus s a scratch .findBatteries result := by
  simp only [BattcheckModule.exec] at hx
  split at hx
  · next hpc => exact absurd hpc h.begun
  · cases hx

theorem createProc (h : Represents bus s a l scratch bs)
    (hx : s.exec bus (.createProc ok) = some result) :
    Outcome bus s a scratch (.createProc ok) result := by
  simp only [BattcheckModule.exec] at hx
  split at hx
  · next hpc =>
    cases hx
    have hphase := h.phase
    have hwalked := h.walked
    rw [hpc] at hphase hwalked
    obtain ⟨hproc, htask, hstop⟩ := hphase
    exact silent (h.moveTo (by rw [hpc]; exact id) nofun id ⟨htask, hstop⟩ hwalked h.task
      fun r hr => absurd (h.idle hproc r) hr) rfl rfl id
  · cases hx

theorem kthreadRun (h : Represents bus s a l scratch bs)
    (hx : s.exec bus (.kthreadRun ok) = some result) :
    Outcome bus s a scratch (.kthreadRun ok) result := by
  simp only [BattcheckModule.exec] at hx
  split at hx
  · next hpc =>
    cases hx
    have hphase := h.phase
    have hwalked := h.walked
    rw [hpc] at hphase hwalked
    obtain ⟨htask, hstop⟩ := hphase
    have hrep := h.task
    rw [htask] at hrep
    have hpc' : ¬ s.pc.Leaving := by
      rw [hpc]
      exact id
    cases ok with
    | false =>
      exact silent (h.moveTo hpc' nofun id ⟨nofun, nofun, hstop⟩ hwalked hrep h.served) rfl rfl id
    | true =>
      have hstart : TaskRep l { a with started := true } (.running .start) := by
        refine ⟨rfl, ?_⟩
        rw [hrep.2]
        exact ⟨rfl, rfl, rfl⟩
      refine ⟨_, l, scratch, bs, ?_, .start hrep.1, rfl, id⟩
      exact h.moveTo hpc' nofun id ⟨nofun, nofun, hstop⟩ hwalked hstart h.served
  · cases hx

theorem kthreadStop (h : Represents bus s a l scratch bs)
    (hx : s.exec bus .kthreadStop = some result) :
    Outcome bus s a scratch .kthreadStop result := by
  simp only [BattcheckModule.exec] at hx
  split at hx
  · next hpc =>
    have hphase := h.phase
    have hwalked := h.walked
    rw [hpc] at hphase hwalked
    have hpc' : ¬ s.pc.Leaving := by
      rw [hpc]
      exact id
    rcases s.kthreadStop_eq with ⟨⟨e, he⟩, hnone⟩ | ⟨hstop, pc, htask⟩
    · rw [he] at hx
      cases hx
      obtain ⟨h1, h2, -⟩ := hphase
      cases htask : s.task with
      | none => exact absurd htask h1
      | error => exact .inl htask
      | running pc => exact absurd htask (hnone pc)
      | trapped => exact .inr htask
      | ended => exact absurd htask h2
    · rw [hstop] at hx
      cases hx
      refine silent (h.moveTo hpc' nofun id ⟨hphase.1, ?_, rfl⟩ hwalked h.task h.served) rfl rfl ?_
      · rw [htask]
        nofun
      · rintro (htask' | htask') <;> cases htask.symm.trans htask'
  · cases hx

theorem kthreadStopped (h : Represents bus s a l scratch bs)
    (hx : s.exec bus .kthreadStopped = some result) :
    Outcome bus s a scratch .kthreadStopped result := by
  have hstopped : s.pc = .stopping → s.task.Over →
      Represents bus { s with pc := .stopped } a l scratch bs := by
    intro hpc hover
    have hwalked := h.walked
    rw [hpc] at hwalked
    exact h.moveTo (by rw [hpc]; exact id) nofun id hover hwalked h.task h.served
  simp only [BattcheckModule.exec] at hx
  split at hx
  · next hpc htask =>
    cases hx
    exact silent (hstopped hpc (.inl htask)) rfl rfl id
  · next hpc htask =>
    cases hx
    exact silent (hstopped hpc (.inr htask)) rfl rfl id
  · cases hx

theorem findChild (h : Represents bus s a l scratch bs)
    (hx : s.exec bus (.findChild ok) = some result) :
    Outcome bus s a scratch (.findChild ok) result := by
  simp only [BattcheckModule.exec] at hx
  have hphase := h.phase
  have hwalked := h.walked
  split at hx
  · next device hpc =>
    cases hx
    rw [hpc] at hphase hwalked
    obtain ⟨pre, hbus, hpast, -⟩ := hwalked
    rw [List.append_nil] at hbus
    refine silent (h.moveTo (by rw [hpc]; exact id) nofun id hphase ⟨pre, hbus, hpast⟩ h.task
      h.served) ?_ rfl ?_
    · simp only [serviceCall, hpc]
    · rintro ⟨c, rest, -, hpc', -⟩
      cases hpc.symm.trans hpc'
  · next c rest device hpc =>
    rw [hpc] at hphase hwalked
    obtain ⟨pre, hbus, hpast, hdevice⟩ := hwalked
    have hpc' : ¬ s.pc.Leaving := by
      rw [hpc]
      exact id
    obtain rfl := Option.some.inj hx
    unfold BattcheckModule.findChild
    have hsafe : (device || c.device) = true → ¬ Hazard bus s (.findChild ok) := by
      rintro hd ⟨c', rest', -, hpc', hc⟩
      cases hpc.symm.trans hpc'
      rw [hc] at hd
      cases hd
    split
    · next hd =>
      have hcall : serviceCall s (.findChild ok) =
          if (device || c.device) ∧ c.status = some true ∧ ok then some (.find c) else none := by
        simp only [serviceCall, hpc]
      have hsnoc : bus = some ((pre ++ [c]) ++ rest) := by
        rw [hbus, List.append_assoc, List.singleton_append]
      have hfirst : true = !(pre ++ [c]).isEmpty := by simp
      split
      · next hc =>
        refine silent (h.moveTo hpc' nofun id hphase
          (.inr ⟨pre, c, rest, hbus, hpast, .inl ⟨hc, rfl⟩⟩) h.task h.served) ?_ rfl (hsafe hd)
        rw [hcall, if_neg (by simp [hc])]
      · next hc =>
        refine silent (h.moveTo hpc' nofun id hphase ⟨pre ++ [c], hsnoc, hpast.snoc hc, hfirst⟩
          h.task h.served) ?_ rfl (hsafe hd)
        rw [hcall, if_neg (by simp [hc])]
      · next hc =>
        cases ok with
        | false =>
          refine silent (h.moveTo hpc' nofun id hphase
            (.inr ⟨pre, c, rest, hbus, hpast, .inr ⟨hc, rfl⟩⟩) h.task h.served) ?_ rfl (hsafe hd)
          rw [hcall, if_neg (by simp)]
        | true =>
          obtain ⟨heap, b, hadd, hblocks⟩ := BattcheckModule.addBattery_spec h.blocks c
          have htask := h.task
          rw [hphase.2.1] at htask
          simp only [if_pos, hadd, bind, Except.bind]
          refine ⟨_, l ++ [b], scratch, _, h.addBattery hpc' hphase
            ⟨pre ++ [c], hsnoc, hpast.snoc hc, hfirst⟩ hblocks, ?_, rfl, hsafe hd⟩
          rw [hcall, if_pos ⟨hd, hc, rfl⟩]
          exact .find htask.1
    · next hd =>
      simp only [Bool.not_eq_true, Bool.or_eq_false_iff] at hd
      obtain ⟨rfl, hc⟩ := hd
      have hpre : pre = [] := by simpa using hdevice
      rw [hpre, List.nil_append] at hbus
      exact ⟨c, rest, hbus, hpc, hc⟩
  · cases hx

theorem removeProc (h : Represents bus s a l scratch bs) (hidle : s.Idle)
    (hx : s.exec bus .removeProc = some result) :
    Outcome bus s a scratch .removeProc result := by
  simp only [BattcheckModule.exec] at hx
  split at hx
  · next hpc =>
    rw [BattcheckModule.removeProc_spec h.blocks] at hx
    cases hx
    have hphase := h.phase
    have hwalked := h.walked
    rw [hpc] at hphase hwalked
    refine silent { h with
      begun := nofun
      phase := ⟨hphase, rfl⟩
      walked := hwalked
      listed := fun hl => absurd trivial hl
      leaving := fun _ => hidle
      freeing := ?_
      exited := nofun
      served := fun r hr => absurd (hidle r) hr } rfl rfl id
    rintro battery tmp heq
    cases heq
    exact ⟨rfl, rfl⟩
  · cases hx

theorem freeBattery (h : Represents bus s a l scratch bs)
    (hx : s.exec bus .freeBattery = some result) :
    Outcome bus s a scratch .freeBattery result := by
  simp only [BattcheckModule.exec] at hx
  split at hx
  · next battery tmp hpc =>
    have hphase := h.phase
    have hwalked := h.walked
    rw [hpc] at hphase hwalked
    have hidle : s.Idle := h.leaving (by rw [hpc]; trivial)
    obtain ⟨hbattery, htmp⟩ := h.freeing _ _ hpc
    have hover : ∀ l', TaskRep l' a s.task := by
      rcases hphase.1 with htask | htask <;> rw [htask] <;> exact fun _ => trivial
    split at hx
    · next hhead =>
      cases hx
      rw [hhead] at hbattery
      have hl : l = [] := by
        rw [← List.length_eq_zero_iff, h.blocks.length_eq, ← Nat.le_zero]
        exact h.blocks.cursor_eq_head.1 hbattery.symm
      exact silent { h with
        begun := nofun
        phase := hphase
        walked := hwalked
        listed := fun hl => absurd trivial hl
        leaving := fun _ => hidle
        freeing := nofun
        exited := fun _ => hl } rfl rfl id
    · next hhead =>
      obtain ⟨b, hb, hcur⟩ := h.blocks.exists_of_cursor_ne (i := 0) (by
        rw [← hbattery]
        exact fun heq => hhead (Option.some.inj heq))
      obtain rfl : b = battery := Option.some.inj (hcur.symm.trans hbattery.symm)
      obtain ⟨c, -, hc, -⟩ := h.blocks.get hb
      have hblocks := h.blocks
      cases l with
      | nil => cases hb
      | cons b' l =>
        obtain rfl : b' = b := Option.some.inj hb
        cases bs with
        | nil => cases hc
        | cons c' bs =>
          obtain ⟨heap, hfree, hblocks'⟩ := BattcheckModule.freeBattery_spec hblocks
          rw [htmp, hfree] at hx
          cases hx
          refine ⟨a, l, scratch, bs, { h with
            begun := nofun
            phase := hphase
            walked := hwalked
            blocks := hblocks'
            listed := fun hl => absurd trivial hl
            leaving := fun _ => hidle
            freeing := ?_
            exited := nofun
            task := hover l
            readers := h.readers_idle hidle l }, rfl, rfl, id⟩
          rintro battery tmp heq
          cases heq
          exact ⟨rfl, rfl⟩
  · cases hx

theorem threadStart (h : Represents bus s a l scratch bs)
    (hx : s.exec bus (.threadStart ok) = some result) :
    Outcome bus s a scratch (.threadStart ok) result := by
  simp only [BattcheckModule.exec] at hx
  split at hx
  · next htask =>
    cases hx
    have hrep := h.task
    rw [htask] at hrep
    have hm := h.listed (h.not_leaving htask)
    unfold BattcheckModule.threadStart
    split
    · next hstop =>
      exact silent (h.threadTo htask (.inr (.inr ⟨rfl, hstop⟩)) h.blocks hm trivial) rfl
        (by simp [losesBlock, hstop]) id
    · next hstop =>
      obtain ⟨scratch', hblocks, hlen⟩ := h.blocks.kzalloc ok
      refine ⟨a, l, scratch', bs, h.threadTo htask (.inr (.inl ⟨_, rfl⟩)) hblocks hm hrep, rfl, ?_,
        id⟩
      rw [hlen]
      simp only [losesBlock, hstop, Bool.not_false, Bool.true_and]
  · cases hx

theorem threadTest (h : Represents bus s a l scratch bs)
    (hx : s.exec bus .threadTest = some result) :
    Outcome bus s a scratch .threadTest result := by
  simp only [BattcheckModule.exec] at hx
  split at hx
  · next htask =>
    rw [BattcheckModule.threadTest_spec h.blocks] at hx
    cases hx
    have hrep := h.task
    rw [htask] at hrep
    obtain ⟨hstarted, htrapped, hpos, hdelay⟩ := hrep
    have hm := h.listed (h.not_leaving htask)
    refine silent (?_ : Represents _ _ _ l scratch bs) rfl rfl id
    split
    · next hstop => exact h.threadTo htask (.inr (.inr ⟨rfl, hstop⟩)) h.blocks hm trivial
    · exact h.threadTo htask (.inr (.inl ⟨_, rfl⟩)) h.blocks hm
        ⟨hstarted, htrapped, by rw [hpos], hdelay.symm⟩
  · cases hx

theorem threadCheck {eval : Evaluation} {reports : List Report}
    (h : Represents bus s a l scratch bs)
    (hx : s.exec bus (.threadCheck eval reports) = some result) :
    Outcome bus s a scratch (.threadCheck eval reports) result := by
  simp only [BattcheckModule.exec] at hx
  split at hx
  · next battery delay htask =>
    have hrep := h.task
    rw [htask] at hrep
    obtain ⟨hstarted, htrapped, hbattery, hdelay⟩ := hrep
    have hm := h.listed (h.not_leaving htask)
    split at hx
    · cases hx
    · next hhead =>
      rw [hbattery] at hhead hx
      obtain ⟨b, hb, hcur⟩ := h.blocks.exists_of_cursor_ne hhead
      obtain ⟨c, heap, hc, hcheck, hblocks⟩ := BattcheckModule.threadCheck_spec h.blocks hb
        delay eval
      rw [hcur, hcheck] at hx
      simp only at hx
      split at hx
      · next hreports =>
        cases hx
        rw [hm] at hc
        have hset : bs.set a.monitor.pos (checkBattery eval c).battery =
            (a.monitor.check eval c).batteries := by
          rw [hm]
          rfl
        refine ⟨{ a with monitor := a.monitor.check eval c }, l, scratch,
          bs.set a.monitor.pos (checkBattery eval c).battery, ?_, ?_, rfl, id⟩
        · split
          · exact h.threadTo htask (.inl rfl) hblocks hset trivial
          · next htrap =>
            refine h.threadTo htask (.inr (.inl ⟨_, rfl⟩)) hblocks hset ⟨hstarted, ?_, rfl, ?_⟩
            · exact Bool.eq_false_iff.2 htrap
            · rw [hdelay]
              rfl
        · rw [← hreports]
          exact .monitor hstarted (.sample htrapped hc)
      · cases hx
  · cases hx

theorem threadTimeout {delay : Nat} (h : Represents bus s a l scratch bs)
    (hx : s.exec bus (.threadTimeout delay) = some result) :
    Outcome bus s a scratch (.threadTimeout delay) result := by
  simp only [BattcheckModule.exec] at hx
  split at hx
  · next battery delay' htask =>
    have hrep := h.task
    rw [htask] at hrep
    obtain ⟨hstarted, htrapped, hbattery, hdelay⟩ := hrep
    have hm := h.listed (h.not_leaving htask)
    split at hx
    · next hend =>
      cases hx
      obtain ⟨hhead, rfl⟩ := hend
      rw [hbattery, h.blocks.cursor_eq_head, hm] at hhead
      refine ⟨{ a with monitor := { a.monitor with pos := 0, delay := 1 } }, l, scratch, bs,
        h.threadTo htask (.inr (.inl ⟨_, rfl⟩)) h.blocks hm ⟨hstarted, htrapped, rfl, rfl⟩, ?_, rfl,
        id⟩
      rw [hdelay]
      exact .monitor hstarted (.sleep htrapped hhead)
    · cases hx
  · cases hx

/-- A step of the call `r`. -/
theorem readTo {heap : BatteryHeap} {scratch' : List Nat} {x : Option Reader}
    {y : Option (Nat × List Char)} (h : Represents bus s a l scratch bs) (hproc : s.proc = true)
    (hblocks : BatteryBlocks heap l scratch' bs) (hrel : Option.Rel (ReaderRep l) x y) (r : ρ) :
    Represents bus { s with heap := heap, reader := Function.update s.reader r x }
      { a with reader := Function.update a.reader r y } l scratch' bs := by
  refine { h with
    blocks := hblocks
    leaving := fun hl => ?_
    served := fun _ _ => hproc
    readers := fun r' => ?_ }
  · exact absurd hl (h.not_leaving_of_proc hproc)
  · obtain rfl | hne := eq_or_ne r' r
    · simpa using hrel
    · simpa [hne] using h.readers r'

theorem read {offset : Int} (h : Represents bus s a l scratch bs)
    (hx : s.exec bus (.read r offset ok) = some result) :
    Outcome bus s a scratch (.read r offset ok) result := by
  simp only [BattcheckModule.exec] at hx
  split at hx
  · next hopen =>
    obtain ⟨hproc, hnone⟩ := hopen
    obtain rfl := Option.some.inj hx
    obtain rfl | hoffset := eq_or_ne offset 0
    · obtain ⟨heap, scratch', hread, hblocks, hlen⟩ := BattcheckModule.read_spec h.blocks r ok
      rw [hread]
      exact ⟨_, l, scratch', bs, h.readTo hproc hblocks (.some ⟨rfl, rfl⟩) r,
        .read (h.reader_none hnone), hlen, id⟩
    · simp only [BattcheckModule.read, if_neg hoffset]
      refine silent h ?_ ?_ id
      · simp only [serviceCall, if_neg hoffset]
      · simpa [losesBlock] using fun h => absurd h hoffset
  · cases hx

theorem readBattery (h : Represents bus s a l scratch bs)
    (hx : s.exec bus (.readBattery r) = some result) :
    Outcome bus s a scratch (.readBattery r) result := by
  simp only [BattcheckModule.exec] at hx
  split at hx
  · next i hr =>
    obtain ⟨hproc, k, ha, hbattery⟩ := h.reader_some hr
    split at hx
    · cases hx
    · next hhead =>
      rw [hbattery] at hhead
      obtain ⟨b, hb, hcur⟩ := h.blocks.exists_of_cursor_ne hhead
      obtain ⟨c, hc, hread⟩ := BattcheckModule.readBattery_spec (r := r) h.blocks hb
        (hbattery.trans hcur)
      rw [hread] at hx
      cases hx
      rw [h.listed (h.not_leaving_of_proc hproc)] at hc
      exact ⟨_, l, scratch, bs, h.readTo hproc h.blocks (.some ⟨rfl, rfl⟩) r, .entry ha hc, rfl, id⟩
  · cases hx

theorem readEnd {text : List Char} (h : Represents bus s a l scratch bs)
    (hx : s.exec bus (.readEnd r text) = some result) :
    Outcome bus s a scratch (.readEnd r text) result := by
  simp only [BattcheckModule.exec] at hx
  split at hx
  · next i hr =>
    obtain ⟨hproc, k, ha, hbattery⟩ := h.reader_some hr
    split at hx
    · next hend =>
      cases hx
      obtain ⟨hhead, rfl⟩ := hend
      rw [hbattery, h.blocks.cursor_eq_head, h.listed (h.not_leaving_of_proc hproc)] at hhead
      exact ⟨_, l, scratch, bs, h.readTo hproc h.blocks .none r, .text ha hhead, rfl, id⟩
    · cases hx
  · cases hx

/-- Whatever the label. -/
theorem outcome (h : Represents bus s a l scratch bs) (hidle : label = .removeProc → s.Idle)
    (hx : s.exec bus label = some result) : Outcome bus s a scratch label result := by
  cases label with
  | findBatteries => exact h.findBatteries hx
  | findChild => exact h.findChild hx
  | createProc => exact h.createProc hx
  | kthreadRun => exact h.kthreadRun hx
  | kthreadStop => exact h.kthreadStop hx
  | kthreadStopped => exact h.kthreadStopped hx
  | removeProc => exact h.removeProc (hidle rfl) hx
  | freeBattery => exact h.freeBattery hx
  | threadStart => exact h.threadStart hx
  | threadTest => exact h.threadTest hx
  | threadCheck => exact h.threadCheck hx
  | threadTimeout => exact h.threadTimeout hx
  | read => exact h.read hx
  | readBattery => exact h.readBattery hx
  | readEnd => exact h.readEnd hx

end Represents

end

end Eece4029
