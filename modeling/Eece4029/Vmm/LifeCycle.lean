import Eece4029.Buddy.Ownership
import Eece4029.Vmm.Device

/-!
# Loading and unloading the module

`init_mod` registers the device first and then calls `buddy_init`, which allocates the pool and the
head node; `exit_mod` calls `buddy_kill` and then takes the registration back. Here are the steps of
the two functions with every outcome of `register_chrdev` and of the two calls of `bmalloc`, and the
ioctls that clients issue in between, as soon as the device is registered. The blocks are those of
the nodes, as in `Buddy.Blocks`, and the block of the pool.

`life_cycle_iff` says exactly when this goes well. Between the registration and the end of
`buddy_init`, and between `buddy_kill` and the end of the registration, an ioctl works on a tree
that is not there; `init_mod` does not take the registration back when `buddy_init` fails; and
nothing ever frees the pool.
-/

namespace Eece4029

open Transition Blocks

/-- Where `init_mod` and `exit_mod` are: before the registration, in `buddy_init` before the first
call of `bmalloc`, after it, and after the second one; after `init_mod` returned `0`, or a negative
value; in `exit_mod` after `buddy_kill`, and at its end. -/
inductive ModPc
  | initMod
  | buddyInit
  | poolMade
  | headMade
  | loaded
  | failed
  | killed
  | exited
deriving DecidableEq, Repr

/-- The module. A block of a pool holds its bytes, of which the number is kept here. -/
structure VmmModule where
  pc : ModPc
  registered : Bool
  pools : Heap Nat
  buddyPool : Ptr
  mem : BuddyMem
  currentIdx : Int
  readSize : Int

/-- The module before `init_mod`. -/
def VmmModule.init : VmmModule := ⟨.initMod, false, .empty, none, ⟨none, .empty⟩, 0, 0⟩

/-- A step: `register_chrdev` with its result, the two calls of `bmalloc`, which succeed or not, and
the assignments to the head node, all in `init_mod`; an ioctl; and the two calls of `exit_mod`. -/
inductive LifeLabel
  | registerChrdev (ret : Int)
  | bmallocPool (ok : Bool)
  | bmallocHead (ok : Bool)
  | initHead
  | ioctl (io : Ioctl)
  | buddyKill
  | unregisterChrdev

/-- The call of the buddy functions that an ioctl makes, as a function of its result. -/
def Ioctl.memCall (currentIdx : Int) : Ioctl → Option (Int → MemCall)
  | .alloc size => some (.alloc size)
  | .free idx => some (.free idx)
  | .write _ | .read => some (.size currentIdx)
  | .setIdx _ | .setReadSize _ | .unknown => none

/-- The call stops for a mistake, such as an access through `NULL`. -/
def MemCall.Faults (m : BuddyMem) : MemCall → Prop
  | .alloc request _ => ¬ ∀ fuel, NoFault (buddyAlloc always fuel m.heap m.buddyHead request)
  | .free idx _ => ¬ ∀ fuel, NoFault (buddyFree fuel m.heap m.buddyHead idx)
  | .size idx _ => ¬ ∀ fuel, NoFault (buddySize fuel m.heap m.buddyHead idx)

/-- The variables after an ioctl that does not call the buddy functions. -/
def VmmModule.setVars (m : VmmModule) : Ioctl → VmmModule
  | .setIdx idx => { m with currentIdx := idx }
  | .setReadSize size => { m with readSize := size }
  | _ => m

/-- The steps. After an ioctl that stopped for a mistake the blocks may hold anything. -/
inductive LifeStep (poolSize : Nat) (m : VmmModule) : LifeLabel → VmmModule → Prop
  | registerFails {ret : Int} (hpc : m.pc = .initMod) (h : ret < 0) :
      LifeStep poolSize m (.registerChrdev ret) { m with pc := .failed }
  | register {ret : Int} (hpc : m.pc = .initMod) (h : 0 ≤ ret) :
      LifeStep poolSize m (.registerChrdev ret) { m with pc := .buddyInit, registered := true }
  | poolFails (hpc : m.pc = .buddyInit) :
      LifeStep poolSize m (.bmallocPool false) { m with pc := .failed, buddyPool := none }
  | pool (hpc : m.pc = .buddyInit) :
      LifeStep poolSize m (.bmallocPool true)
        { m with
          pc := .poolMade
          pools := (m.pools.malloc poolSize).2
          buddyPool := some (m.pools.malloc poolSize).1 }
  | head {ok : Bool} (hpc : m.pc = .poolMade) :
      LifeStep poolSize m (.bmallocHead ok)
        { m with
          pc := if ok then .headMade else .failed
          mem := ⟨(bmalloc (fun _ => ok) m.mem.heap).1, (bmalloc (fun _ => ok) m.mem.heap).2⟩ }
  | initHead {heap : Blocks} (hpc : m.pc = .headMade)
      (h : Blocks.initHead m.mem.heap m.mem.buddyHead poolSize = .ok heap) :
      LifeStep poolSize m .initHead { m with pc := .loaded, mem := { m.mem with heap := heap } }
  | ioctl {io : Ioctl} {call : Int → MemCall} {rt : Int} {mem : BuddyMem}
      (hreg : m.registered = true) (hcall : io.memCall m.currentIdx = some call)
      (h : MemStep m.mem (call rt) mem) : LifeStep poolSize m (.ioctl io) { m with mem := mem }
  | fault {io : Ioctl} {call : Int → MemCall} {rt : Int} {heap : Blocks}
      (hreg : m.registered = true) (hcall : io.memCall m.currentIdx = some call)
      (h : (call rt).Faults m.mem) :
      LifeStep poolSize m (.ioctl io) { m with mem := { m.mem with heap := heap } }
  | setVars {io : Ioctl} (hreg : m.registered = true) (hcall : io.memCall m.currentIdx = none) :
      LifeStep poolSize m (.ioctl io) (m.setVars io)
  | kill {fuel : Nat} {heap : Blocks} (hpc : m.pc = .loaded)
      (h : Blocks.buddyKill fuel m.mem.heap m.mem.buddyHead = .ok heap) :
      LifeStep poolSize m .buddyKill { m with pc := .killed, mem := { m.mem with heap := heap } }
  | unregister (hpc : m.pc = .killed) :
      LifeStep poolSize m .unregisterChrdev { m with pc := .exited, registered := false }

/-- `tr` is a run of the module with the parameter `pool_size`. -/
abbrev LifeRun (poolSize : Nat) (tr : List (Step VmmModule LifeLabel)) (m : VmmModule) : Prop :=
  Run (LifeStep poolSize) VmmModule.init tr m

/-! ## What should hold -/

/-- The step is an ioctl that reaches the buddy functions. -/
def LifeLabel.Reaches (m : VmmModule) : LifeLabel → Prop
  | .ioctl io => io.memCall m.currentIdx ≠ none
  | _ => False

/-- `buddy_head` is an initialised tree that was not killed. -/
def VmmModule.TreeUp (m : VmmModule) : Prop := ∃ a t F, MemRep m.mem a t F

/-- `init_mod` has returned a negative value, or `exit_mod` has finished. -/
def VmmModule.Over (m : VmmModule) : Prop := m.pc = .failed ∨ m.pc = .exited

/-- The device is not registered, and every block was freed. -/
structure VmmModule.Clean (m : VmmModule) : Prop where
  unregistered : m.registered = false
  pools : ∀ a, ¬ m.pools.Live a
  nodes : ∀ a, ¬ m.mem.heap.Live a

/-- What a step should do: it reaches the buddy functions only while there is a tree, and when
`init_mod` or `exit_mod` is over it leaves nothing behind. -/
structure InOrder (m : VmmModule) (label : LifeLabel) (m' : VmmModule) : Prop where
  tree : label.Reaches m → m.TreeUp
  clean : m'.Over → m'.Clean

/-- The condition of it: ioctls that call the buddy functions come after `init_mod` returned `0` and
before `exit_mod` begins, no call of `bmalloc` in `buddy_init` fails, and `exit_mod` does not come
to its end. -/
def LifeLabel.Meets (m : VmmModule) : LifeLabel → Prop
  | .ioctl io => io.memCall m.currentIdx ≠ none → m.pc = .loaded
  | .bmallocPool ok => ok = true
  | .bmallocHead ok => ok = true
  | .unregisterChrdev => False
  | .registerChrdev _ | .initHead | .buddyKill => True

/-! ## The invariant -/

/-- What holds at each place of `init_mod` and `exit_mod` as long as all steps meet the
condition. -/
def LifeInv (m : VmmModule) : Prop :=
  match m.pc with
  | .initMod | .failed => m.Clean ∧ m.mem.buddyHead = none
  | .buddyInit => (∀ a, ¬ m.mem.heap.Live a) ∧ m.mem.buddyHead = none ∧ m.registered = true
  | .poolMade => (∀ a, ¬ m.mem.heap.Live a) ∧ m.mem.buddyHead = none ∧ m.registered = true ∧
      ∃ a, m.pools.Live a
  | .headMade => (∃ a, m.mem.buddyHead = some a ∧ m.mem.heap.cell a = some .raw ∧
      ∀ b, m.mem.heap.Live b → b = a) ∧ ∃ a, m.pools.Live a
  | .loaded => m.TreeUp ∧ ∃ a, m.pools.Live a
  | .killed => (∀ a, ¬ m.mem.heap.Live a) ∧ ∃ a, m.pools.Live a
  | .exited => False

variable {S a : Nat} {m m' : VmmModule} {label : LifeLabel} {io : Ioctl}
  {tr : List (Step VmmModule LifeLabel)} {call : MemCall} {mem : BuddyMem}

namespace VmmModule

theorem not_treeUp_of_null (h : m.mem.buddyHead = none) : ¬ m.TreeUp := by
  rintro ⟨a, t, F, hm⟩
  cases h.symm.trans hm.head

theorem not_treeUp_of_dead (h : ∀ a, ¬ m.mem.heap.Live a) : ¬ m.TreeUp := by
  rintro ⟨a, t, F, hm⟩
  exact h a (hm.owns.rep.live a hm.owns.rep.root_mem)

theorem not_treeUp_of_raw (h : m.mem.buddyHead = some a) (hc : m.mem.heap.cell a = some .raw) :
    ¬ m.TreeUp := by
  rintro ⟨b, t, F, hm⟩
  cases h.symm.trans hm.head
  obtain ⟨c, hc', hs⟩ := hm.owns.rep.cell
  cases hc.symm.trans hc'
  cases hs

end VmmModule

/-- On a tree no call stops for a mistake. -/
theorem MemRep.not_faults {t : Node} {F : List Nat} (hm : MemRep mem a t F) :
    ¬ call.Faults mem := by
  cases call with
  | alloc => exact not_not.2 fun fuel => hm.alloc_noFault fuel _
  | free => exact not_not.2 fun fuel => hm.free_noFault fuel _
  | size => exact not_not.2 fun fuel => hm.size_noFault fuel _

namespace LifeInv

theorem init : LifeInv .init := ⟨⟨rfl, fun _ h => h rfl, fun _ h => h rfl⟩, rfl⟩

/-- While the device is registered and `init_mod` has not returned `0` or `exit_mod` has begun,
there is no tree. -/
theorem not_treeUp (h : LifeInv m) (hreg : m.registered = true) (hpc : m.pc ≠ .loaded) :
    ¬ m.TreeUp := by
  unfold LifeInv at h
  split at h
  · cases hreg.symm.trans h.1.unregistered
  · cases hreg.symm.trans h.1.unregistered
  · exact VmmModule.not_treeUp_of_null h.2.1
  · exact VmmModule.not_treeUp_of_null h.2.1
  · obtain ⟨⟨a, hhead, hc, -⟩, -⟩ := h
    exact VmmModule.not_treeUp_of_raw hhead hc
  · exact absurd ‹_› hpc
  · exact VmmModule.not_treeUp_of_dead h.1
  · exact h.elim

/-- The two variables of the ioctls do not matter. -/
theorem setVars (h : LifeInv m) (io : Ioctl) : LifeInv (m.setVars io) := by
  have hclean : m.Clean → (m.setVars io).Clean := by
    rintro ⟨hreg, hpools, hnodes⟩
    cases io <;> exact ⟨hreg, hpools, hnodes⟩
  have hpc : (m.setVars io).pc = m.pc := by cases io <;> rfl
  have hmem : (m.setVars io).mem = m.mem := by cases io <;> rfl
  have hpools : (m.setVars io).pools = m.pools := by cases io <;> rfl
  have hreg : (m.setVars io).registered = m.registered := by cases io <;> rfl
  simp only [LifeInv, VmmModule.TreeUp, hpc, hmem, hpools, hreg] at h ⊢
  generalize m.pc = pc at h ⊢
  cases pc with
  | initMod | failed => exact ⟨hclean h.1, h.2⟩
  | buddyInit | poolMade | headMade | loaded | killed | exited => exact h

/-- A step that meets the condition keeps the invariant and is in order. -/
theorem keep (h : LifeInv m) (hl : label.Meets m) (hs : LifeStep S m label m') :
    LifeInv m' ∧ InOrder m label m' := by
  -- the steps of `init_mod` and `exit_mod` are no ioctls, and only the failed registration ends one
  have hinit : ∀ {m'}, LifeInv m' → ¬ label.Reaches m → ¬ m'.Over →
      LifeInv m' ∧ InOrder m label m' :=
    fun hi hno hover => ⟨hi, fun h => absurd h hno, fun h => absurd h hover⟩
  cases hs with
  | registerFails hpc hret =>
    simp only [LifeInv, hpc] at h
    obtain ⟨⟨hreg, hpools, hnodes⟩, hhead⟩ := h
    exact ⟨⟨⟨hreg, hpools, hnodes⟩, hhead⟩, nofun, fun _ => ⟨hreg, hpools, hnodes⟩⟩
  | register hpc hret =>
    simp only [LifeInv, hpc] at h
    exact hinit ⟨h.1.nodes, h.2, rfl⟩ id (by simp [VmmModule.Over])
  | poolFails hpc => cases hl
  | pool hpc =>
    simp only [LifeInv, hpc] at h
    have hpool : (m.pools.malloc S).2.Live m.pools.next := by simp [Heap.Live]
    exact hinit ⟨h.1, h.2.1, h.2.2, _, hpool⟩ id (by simp [VmmModule.Over])
  | head hpc =>
    simp only [LifeInv, hpc] at h
    cases hl
    refine hinit ⟨⟨m.mem.heap.next, rfl, ?_, ?_⟩, h.2.2.2⟩ id (by simp [VmmModule.Over])
    · exact Function.update_self _ _ _
    · intro b hb
      by_contra hne
      refine h.1 b ?_
      simp only [bmalloc, if_true, Heap.Live, Heap.cell_malloc, Function.update_of_ne hne] at hb
      exact hb
  | @initHead heap hpc hret =>
    simp only [LifeInv, hpc] at h
    obtain ⟨⟨a, hhead, hc, hall⟩, hpool⟩ := h
    rw [hhead] at hret
    have hm : MemRep ⟨m.mem.buddyHead, heap⟩ a (.init S) [a] := by
      rw [hhead]
      exact .initHead hc hall hret
    exact hinit ⟨⟨a, _, _, hm⟩, hpool⟩ id (by simp [VmmModule.Over])
  | ioctl hreg hcall hret =>
    have hpc : m.pc = .loaded := hl (by simp [hcall])
    simp only [LifeInv, hpc] at h
    obtain ⟨⟨a, t, F, hm⟩, hpool⟩ := h
    obtain ⟨t', F', hm', -⟩ := hm.step hret
    refine ⟨?_, fun _ => ⟨a, t, F, hm⟩, by simp [VmmModule.Over, hpc]⟩
    simp only [LifeInv, hpc]
    exact ⟨⟨a, t', F', hm'⟩, hpool⟩
  | fault hreg hcall hfault =>
    have hpc : m.pc = .loaded := hl (by simp [hcall])
    simp only [LifeInv, hpc] at h
    obtain ⟨⟨a, t, F, hm⟩, -⟩ := h
    exact absurd hfault hm.not_faults
  | @setVars io hreg hcall =>
    refine ⟨h.setVars io, fun hno => absurd hcall hno, ?_⟩
    intro hover
    have hpc : m.pc = .failed ∨ m.pc = .exited := by cases io <;> exact hover
    rcases hpc with hpc | hpc
    · simp only [LifeInv, hpc] at h
      cases hreg.symm.trans h.1.unregistered
    · simp only [LifeInv, hpc] at h
  | kill hpc hret =>
    simp only [LifeInv, hpc] at h
    obtain ⟨⟨a, t, F, hm⟩, hpool⟩ := h
    exact hinit ⟨hm.kill_all hret, hpool⟩ id (by simp [VmmModule.Over])
  | unregister hpc => exact hl.elim

/-- A step that is in order meets the condition. -/
theorem meets (h : LifeInv m) (hs : LifeStep S m label m') (ho : InOrder m label m') :
    label.Meets m := by
  have hreach : ∀ io : Ioctl, m.registered = true →
      ((LifeLabel.ioctl io).Reaches m → m.TreeUp) → (LifeLabel.ioctl io).Meets m :=
    fun io hreg htree hcall => by_contra fun hpc => h.not_treeUp hreg hpc (htree hcall)
  cases hs with
  | registerFails | register | initHead | kill => trivial
  | poolFails hpc =>
    simp only [LifeInv, hpc] at h
    cases h.2.2.symm.trans (ho.clean (.inl rfl)).unregistered
  | pool hpc => rfl
  | @head ok hpc =>
    simp only [LifeInv, hpc] at h
    cases ok with
    | true => rfl
    | false => cases h.2.2.1.symm.trans (ho.clean (.inl rfl)).unregistered
  | ioctl hreg => exact hreach _ hreg ho.tree
  | fault hreg => exact hreach _ hreg ho.tree
  | setVars hreg => exact hreach _ hreg ho.tree
  | unregister hpc =>
    simp only [LifeInv, hpc] at h
    obtain ⟨-, a, ha⟩ := h
    exact absurd ha ((ho.clean (.inr rfl)).pools a)

end LifeInv

/-- **When loading and unloading goes well.** In every run, all steps are in order exactly when the
ioctls that call the buddy functions come after `init_mod` returned `0` and before `exit_mod`
begins, no call of `bmalloc` in `buddy_init` fails, and `exit_mod` does not come to its end. -/
theorem life_cycle_iff (h : LifeRun S tr m) :
    (∀ x ∈ tr, InOrder x.pre x.label x.post) ↔ ∀ x ∈ tr, x.label.Meets x.pre :=
  h.forall_step_iff LifeInv.init (fun _ _ _ hi hl hs => hi.keep hl hs)
    fun _ _ _ hi hs ho => hi.meets hs ho

/-- The module can be loaded, with any pool. -/
theorem loads (S : Nat) : ∃ tr m, LifeRun S tr m ∧ m.pc = .loaded ∧
    ∀ x ∈ tr, x.label.Meets x.pre := by
  have hraw : ((Heap.empty : Blocks).malloc .raw).2.cell 0 = some .raw := rfl
  obtain ⟨heap, hret, -⟩ := initHead_cell S hraw
  have hregister : LifeStep S .init (.registerChrdev 0)
      ⟨.buddyInit, true, .empty, none, ⟨none, .empty⟩, 0, 0⟩ := .register rfl (Int.le_refl 0)
  have hpool : LifeStep S ⟨.buddyInit, true, .empty, none, ⟨none, .empty⟩, 0, 0⟩ (.bmallocPool true)
      ⟨.poolMade, true, (Heap.empty.malloc S).2, some 0, ⟨none, .empty⟩, 0, 0⟩ := .pool rfl
  have hhead : LifeStep S ⟨.poolMade, true, (Heap.empty.malloc S).2, some 0, ⟨none, .empty⟩, 0, 0⟩
      (.bmallocHead true) ⟨.headMade, true, (Heap.empty.malloc S).2, some 0,
        ⟨some 0, (Heap.empty.malloc .raw).2⟩, 0, 0⟩ := .head rfl
  have hinit : LifeStep S ⟨.headMade, true, (Heap.empty.malloc S).2, some 0,
        ⟨some 0, (Heap.empty.malloc .raw).2⟩, 0, 0⟩ .initHead
      ⟨.loaded, true, (Heap.empty.malloc S).2, some 0, ⟨some 0, heap⟩, 0, 0⟩ := .initHead rfl hret
  have hrun : LifeRun S _ _ := (((Run.nil.snoc hregister).snoc hpool).snoc hhead).snoc hinit
  refine ⟨_, _, hrun, rfl, ?_⟩
  simp only [List.forall_mem_append, List.forall_mem_singleton, LifeLabel.Meets, and_true]
  exact List.forall_mem_nil _

/-- And `exit_mod` can begin then; it leaves the pool to the end. -/
theorem unloads (S : Nat) : ∃ tr m, LifeRun S tr m ∧ m.pc = .killed ∧ (∃ a, m.pools.Live a) ∧
    ∀ x ∈ tr, x.label.Meets x.pre := by
  obtain ⟨tr, m, hrun, hpc, hmeets⟩ := loads S
  have hinv := (hrun.inv_where LifeInv.init (fun _ _ _ hi hl hs => (hi.keep hl hs).1) hmeets).1
  simp only [LifeInv, hpc] at hinv
  obtain ⟨⟨a, t, F, hm⟩, hpool⟩ := hinv
  obtain ⟨fuel, heap, hret⟩ := hm.kill_returns
  refine ⟨_, _, hrun.snoc (.kill hpc hret), rfl, hpool, ?_⟩
  exact List.forall_mem_append.2 ⟨hmeets, List.forall_mem_singleton.2 trivial⟩

/-- The module of a pool of two bytes is loaded, and `exit_mod` begins. -/
theorem life_cycle_iff_loaded : ∃ tr m, LifeRun 2 tr m ∧ m.pc = .killed ∧
    ∀ x ∈ tr, InOrder x.pre x.label x.post := by
  obtain ⟨tr, m, hrun, hpc, -, hmeets⟩ := unloads 2
  exact ⟨tr, m, hrun, hpc, (life_cycle_iff hrun).2 hmeets⟩

/-- After the module was loaded and unloaded the pool is still allocated. -/
theorem pool_leaks : ¬ ∀ (S : Nat) (tr : List (Step VmmModule LifeLabel)) (m : VmmModule),
    LifeRun S tr m → ∀ x ∈ tr, InOrder x.pre x.label x.post := by
  intro h
  obtain ⟨tr, m, hrun, hpc, ⟨a, ha⟩, -⟩ := unloads 2
  have hlast := h _ _ _ (hrun.snoc (.unregister hpc)) _
    (List.mem_append_right _ List.mem_cons_self)
  exact (hlast.clean (.inr rfl)).pools a ha

end Eece4029
