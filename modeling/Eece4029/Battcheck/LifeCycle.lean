import Eece4029.Battcheck.Service

/-!
# The life of battcheck

Nothing in battcheck protects its memory: the thread and the calls of `read_proc` go over a list
that `init_battcheck` builds and `exit_battcheck` frees. Here are runs of the whole module, from its
loading to its unloading, in any interleaving. No step uses memory that it should not, but for two
mistakes that have nothing to do with the interleaving (`battcheck_crashes_iff`). Every block is
accounted for at any time, the ones that are never freed included (`battcheck_accounts`). And the
thread is the monitor of `Battcheck.Monitor`, on the batteries of the bus in the order of the bus
(`battcheck_monitors`).
-/

namespace Eece4029

open Transition

variable {ρ : Type} [DecidableEq ρ] {bus : Option (List AcpiChild)} {s s' : BattcheckModule ρ}
  {a : BatteryService ρ} {scratch : List Nat} {label : BattcheckLabel ρ}
  {result : Except Stop (BattcheckModule ρ)} {tr : BattcheckTrace ρ}

/-! ## Runs -/

/-- `init_battcheck` is the first thing that happens. -/
theorem init_outcome (hx : BattcheckModule.init.exec bus label = some result) :
    Outcome bus (.init : BattcheckModule ρ) .init [] label result := by
  cases label with
  | findBatteries =>
    obtain rfl := Option.some.inj hx
    obtain ⟨heap, hinit, hblocks⟩ := BattcheckModule.initList_init (ρ := ρ)
    simp only [BattcheckModule.findBatteries, hinit, bind, Except.bind]
    cases bus with
    | none =>
      have hrep : Represents none { (.init : BattcheckModule ρ) with
          heap := heap, pc := .failed (-1) } .init [] [] [] :=
        represents_init hblocks (by simp) id ⟨rfl, rfl, rfl⟩ (.inl ⟨rfl, rfl, rfl⟩)
      exact hrep.silent rfl rfl id
    | some children =>
      have hrep : Represents (some children) { (.init : BattcheckModule ρ) with
          heap := heap, pc := .find children false } .init [] [] [] :=
        represents_init hblocks (by simp) id ⟨rfl, rfl, rfl⟩ ⟨[], rfl, ⟨by simp, rfl⟩, rfl⟩
      exact hrep.silent rfl rfl id
  | _ => cases hx

/-- The module has made no step, or its state stands for one of the service, but for a crash in its
last step. -/
def StandsFor (bus : Option (List AcpiChild)) (s : BattcheckModule ρ) (a : BatteryService ρ)
    (scratch : List Nat) : Prop :=
  ∃ s₀, s = { s₀ with crashed := s.crashed } ∧
    (s₀ = .init ∧ a = .init ∧ scratch = [] ∨ ∃ l bs, Represents bus s₀ a l scratch bs)

/-- Every step is one of the service or is not seen by it, and it crashes where there is a
mistake. -/
theorem StandsFor.step (h : StandsFor bus s a scratch) (hs : BattcheckStep bus s label s') :
    (∃ a' scratch', StandsFor bus s' a' scratch' ∧ a.Follows (serviceCall s label) a' ∧
      scratch'.length = scratch.length + (if losesBlock s label then 1 else 0)) ∧
    (s'.crashed ≠ none ↔ Hazard bus s label) := by
  obtain ⟨s₀, hs₀, hrep⟩ := h
  have houtcome : ∀ {result}, s.crashed = none → (label = .removeProc → s.Idle) →
      s.exec bus label = some result → Outcome bus s a scratch label result := by
    intro result hok hidle hx
    have heq : s = s₀ := by
      rw [hs₀, hok]
      rcases hrep with ⟨rfl, -, -⟩ | ⟨l, bs, hrep⟩
      · rfl
      · rw [← hrep.intact]
    subst heq
    rcases hrep with ⟨rfl, rfl, rfl⟩ | ⟨l, bs, hrep⟩
    · exact init_outcome hx
    · exact hrep.outcome hidle hx
  obtain ⟨⟨hok, hidle, hsome⟩, rfl⟩ := hs
  obtain ⟨result, hx⟩ := Option.isSome_iff_exists.1 hsome
  simp only [BattcheckModule.next, hx]
  cases result with
  | ok s' =>
    obtain ⟨a', l', scratch', bs', hrep', hfollows, hlen, hsafe⟩ := houtcome hok hidle hx
    refine ⟨⟨a', scratch', ⟨s', rfl, .inr ⟨l', bs', hrep'⟩⟩, hfollows, hlen⟩,
      iff_of_false (fun h => h hrep'.intact) hsafe⟩
  | error e =>
    have hhazard : Hazard bus s label := houtcome hok hidle hx
    refine ⟨⟨a, scratch, ⟨s₀, ?_, hrep⟩, ?_⟩, iff_of_true nofun hhazard⟩
    · rw [hs₀]
    · rw [hhazard.unseen.1, hhazard.unseen.2]
      exact ⟨rfl, rfl⟩

/-- A run of the module is one of the service, and the blocks that it loses are counted by its
steps. -/
theorem BattcheckRun.standsFor (h : BattcheckRun bus tr s) :
    ∃ a atr scratch, StandsFor bus s a scratch ∧ Run ServiceStep .init atr a ∧
      atr.map (·.label) = tr.filterMap (fun x => serviceCall x.pre x.label) ∧
      scratch.length = tr.countP fun x => losesBlock x.pre x.label := by
  induction h with
  | nil => exact ⟨.init, [], [], ⟨.init, rfl, .inl ⟨rfl, rfl, rfl⟩⟩, .nil, rfl, rfl⟩
  | @snoc tr s s' label _ hs ih =>
    obtain ⟨a, atr, scratch, hstands, hrun, hlabels, hlen⟩ := ih
    obtain ⟨⟨a', scratch', hstands', hfollows, hlen'⟩, -⟩ := hstands.step hs
    have hcount : scratch'.length = (tr ++ [⟨s, label, s'⟩] : BattcheckTrace ρ).countP
        fun x => losesBlock x.pre x.label := by
      rw [List.countP_append, List.countP_singleton, hlen', hlen]
    rw [List.filterMap_append, ← hlabels]
    cases hcall : serviceCall s label with
    | none =>
      rw [hcall] at hfollows
      obtain rfl : a' = a := hfollows
      exact ⟨a', atr, scratch', hstands', hrun, by simp [hcall], hcount⟩
    | some call =>
      rw [hcall] at hfollows
      exact ⟨a', _, scratch', hstands', hrun.snoc hfollows, by simp [hcall], hcount⟩

/-! ## A run -/

/-- A bus with a device without a battery and one with the battery of `bat0`. -/
def laptop : Option (List AcpiChild) :=
  some [⟨true, some false, some "PCI0", .noHandle⟩, ⟨true, some true, some bat0.1, bat0.2⟩]

/-- The module is loaded, checks the battery while somebody reads its percent, and is unloaded. -/
def session : List (BattcheckLabel Unit) :=
  [.findBatteries, .findChild true, .findChild true, .findChild true, .createProc true,
    .kthreadRun true, .threadStart true, .threadTest, .read () 0 true,
    .threadCheck (bstOf 1) [.begunToDischarge, .critical], .readBattery (),
    .readEnd () " | BAT0: 50% | \n".toList, .kthreadStop, .threadTimeout 2, .threadTest,
    .kthreadStopped, .removeProc, .freeBattery, .freeBattery]

/-- The module at its end. -/
def unloaded : BattcheckModule Unit := session.foldl (BattcheckModule.next laptop) .init

theorem session_run : ∃ tr, BattcheckRun laptop tr unloaded ∧ tr.map (·.label) = session := by
  have henabled : EnabledAll (BattcheckModule.Enabled laptop) (BattcheckModule.next laptop)
      (.init : BattcheckModule Unit) session := by
    decide
  exact henabled.run

/-! ## Results -/

/-- What is live in a state: the head of the list, its elements, and scratch blocks; and which
batteries there are. -/
structure BattcheckAccount (bus : Option (List AcpiChild)) (tr : BattcheckTrace ρ)
    (s : BattcheckModule ρ) (found : List AcpiChild) (l scratch : List Nat) : Prop where
  walked : Walked bus found s.pc
  list : s.pc ≠ .init → Circular s.heap acpiBatteryList l
  live : ∀ b, s.heap.Live b ↔ b ∈ acpiBatteryList :: (l ++ scratch)
  nodup : (acpiBatteryList :: (l ++ scratch)).Nodup
  listed : ¬ s.pc.Leaving → l.length = found.length
  exited : s.pc = .exited → l = []
  lost : scratch.length = tr.countP fun x => losesBlock x.pre x.label
  names : s.names = found.countP (·.name.isSome)

theorem BatteryService.length_batteries {atr : List (Step (BatteryService ρ) (ServiceCall ρ))}
    (h : Run ServiceStep .init atr a) : a.monitor.batteries.length = a.found.length := by
  refine h.inv (I := fun a => a.monitor.batteries.length = a.found.length) rfl ?_
  intro a call a' hlen hs
  cases hs with
  | find => simp [watch, Monitor.init]
  | monitor _ hm =>
    cases hm with
    | sample => exact (List.length_set ..).trans hlen
    | sleep => exact hlen
  | _ => exact hlen

/-- **Every block is accounted for**: at any time the blocks that are live are the list of the
batteries that were found and as many scratch blocks as the calls of `kzalloc` for a loop variable
have made. At the end of `exit_battcheck` the list is empty; the scratch blocks and the names are
never freed, and neither are the batteries that were found before `init_battcheck` fails. -/
theorem battcheck_accounts (h : BattcheckRun bus tr s) :
    ∃ found l scratch, BattcheckAccount bus tr s found l scratch := by
  obtain ⟨a, atr, scratch, ⟨s₀, hs₀, hrep⟩, hrun, -, hlost⟩ := h.standsFor
  have hlen := BatteryService.length_batteries hrun
  rcases hrep with ⟨rfl, rfl, rfl⟩ | ⟨l, bs, hrep⟩
  · rw [hs₀]
    refine ⟨[], [], [], rfl, fun h => absurd rfl h, ?_, by simp, fun _ => rfl, nofun, hlost, rfl⟩
    intro b
    obtain rfl | hne := eq_or_ne b acpiBatteryList
    · exact iff_of_true (Heap.live_of_cell rfl) List.mem_cons_self
    · refine iff_of_false (fun hlive => hlive (Function.update_of_ne hne _ _)) ?_
      simpa using hne
  · refine ⟨a.found, l, scratch, ?_, ?_, ?_, hrep.blocks.nodup, ?_, ?_, hlost, ?_⟩ <;> rw [hs₀]
    · exact hrep.walked
    · exact fun _ => hrep.blocks.list
    · exact hrep.blocks.live
    · intro hl
      rw [hrep.blocks.length_eq, hrep.listed hl, hlen]
    · exact hrep.exited
    · exact hrep.names

theorem battcheck_accounts_session : ∃ tr, BattcheckRun laptop tr unloaded ∧
    ∃ found l scratch, BattcheckAccount laptop tr unloaded found l scratch := by
  obtain ⟨tr, h, -⟩ := session_run
  exact ⟨tr, h, battcheck_accounts h⟩

/-- The service monitors the batteries that it has found. -/
theorem BatteryService.monitorRun {atr : List (Step (BatteryService ρ) (ServiceCall ρ))}
    (h : Run ServiceStep .init atr a) :
    ∃ mtr, MonitorRun (a.found.map fun c => (c.text, c.info)) mtr a.monitor ∧
      mtr.map (·.label) = (atr.map (·.label)).filterMap ServiceCall.toMonitor ∧
      (a.started = false → mtr = []) := by
  induction h with
  | nil => exact ⟨[], .nil, rfl, fun _ => rfl⟩
  | @snoc atr a a' call _ hs ih =>
    obtain ⟨mtr, hm, hlabels, hnew⟩ := ih
    rw [List.map_append, List.filterMap_append, ← hlabels]
    cases hs with
    | find hstarted =>
      rw [hnew hstarted]
      exact ⟨[], .nil, rfl, fun _ => rfl⟩
    | monitor hstarted hs =>
      refine ⟨_, hm.snoc hs, List.map_append, fun h => ?_⟩
      cases hstarted.symm.trans h
    | start =>
      exact ⟨mtr, hm, (List.append_nil _).symm, nofun⟩
    | _ => exact ⟨mtr, hm, (List.append_nil _).symm, hnew⟩

/-- The batteries in the list, in its order. -/
def BattcheckModule.Shows (s : BattcheckModule ρ) (bs : List AcpiBattery) : Prop :=
  ∃ l, Circular s.heap acpiBatteryList l ∧
    l.map (fun a => (s.heap.cell a).map ListNode.data) = bs.map some

/-- **The thread is the monitor**: what it samples and reports, and how long it sleeps, in whatever
interleaving, is a run of the monitor on the batteries that `find_batteries` has found on the bus,
in the order of the bus; and until the list is freed it holds the batteries of the monitor. -/
theorem battcheck_monitors (h : BattcheckRun bus tr s) :
    ∃ found mtr m, Walked bus found s.pc ∧
      MonitorRun (found.map fun c => (c.text, c.info)) mtr m ∧
      mtr.map (·.label) = tr.filterMap (fun x => threadCall x.label) ∧
      (s.pc ≠ .init → ¬ s.pc.Leaving → s.Shows m.batteries) := by
  obtain ⟨a, atr, scratch, ⟨s₀, hs₀, hrep⟩, hrun, hlabels, -⟩ := h.standsFor
  obtain ⟨mtr, hm, hmtr, -⟩ := BatteryService.monitorRun hrun
  have hcalls : mtr.map (·.label) = tr.filterMap fun x => threadCall x.label := by
    rw [hmtr, hlabels, List.filterMap_filterMap]
    exact congrArg (tr.filterMap ·) (funext fun x => bind_toMonitor x.pre x.label)
  refine ⟨a.found, mtr, a.monitor, ?_, hm, hcalls, ?_⟩ <;> rw [hs₀]
  · rcases hrep with ⟨rfl, rfl, -⟩ | ⟨l, bs, hrep⟩
    · rfl
    · exact hrep.walked
  · rcases hrep with ⟨rfl, rfl, -⟩ | ⟨l, bs, hrep⟩
    · exact fun h => absurd rfl h
    · intro _ hl
      exact ⟨l, hrep.blocks.list, by rw [hrep.blocks.data, hrep.listed hl]⟩

theorem battcheck_monitors_session : ∃ tr, BattcheckRun laptop tr unloaded ∧
    ∃ found mtr m, Walked laptop found unloaded.pc ∧
      MonitorRun (found.map fun c => (c.text, c.info)) mtr m ∧
      mtr.map (·.label) = tr.filterMap (fun x => threadCall x.label) ∧
      (unloaded.pc ≠ .init → ¬ unloaded.pc.Leaving → unloaded.Shows m.batteries) := by
  obtain ⟨tr, h, -⟩ := session_run
  exact ⟨tr, h, battcheck_monitors h⟩

end Eece4029
