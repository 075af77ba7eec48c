import Eece4029.Loopback.Host

/-!
# The devices of a host

What becomes of the devices over any number of loadings and unloadings, with every outcome of the
allocations and the registrations and any traffic in between. None of them is ever freed
(`devices_account`): `init_mod` may return `-ENOMEM` with one of the two made, and `exit_mod` only
takes the registrations back, which it does whether they succeeded or not. And `os_start_xmit` does
not ask whether the other device is registered: while one of the two is and the other one is not,
frames are handed to `netif_rx` for a device that the kernel does not know
(`delivered_registered_iff`).
-/

namespace Eece4029

open Transition

variable {ipFastCsum : List UInt8 → Nat → UInt16} {m m' : Host} {label : HostLabel}
  {tr : List (Step Host HostLabel)} {a b s : Nat} {sk : SkBuff} {p dev : Ptr} {ok : Bool}
  {out : Option (Ptr × List UInt8)} {devs devs' : Heap NetDev} {os0 os1 : Ptr} {ret : Int}

/-! ## The functions -/

/-- The device after `init_mod` up to the registration. -/
def NetDev.made : NetDevice → NetDev
  | .os0 => ⟨[0, 1, 2, 3, 4, 5], List.replicate 6 0xFF, "os0".toList, true, 14, true, false, false⟩
  | .os1 => ⟨[0, 1, 2, 3, 4, 6], List.replicate 6 0xFF, "os1".toList, true, 14, true, false, false⟩

/-- `init_mod` up to the registration makes both devices, or it fails and keeps what it made. -/
theorem initDevices_cases {ok0 ok1 : Bool}
    (h : initDevices ok0 ok1 devs = .ok (ret, os0, os1, devs')) :
    devs'.next = devs.next + (ok0.toNat + ok1.toNat) ∧
    (∀ c, c < devs.next → devs'.cell c = devs.cell c) ∧
    ((ret = 0 ∧ os0 = some devs.next ∧ os1 = some (devs.next + 1) ∧
        devs'.cell devs.next = some (.made .os0) ∧
        devs'.cell (devs.next + 1) = some (.made .os1)) ∨
      (ret = -12 ∧ ∀ c, devs.next ≤ c → c < devs'.next → devs'.cell c = some .etherSetup)) := by
  have hpq : devs.next ≠ devs.next + 1 := Nat.ne_of_lt (Nat.lt_succ_self _)
  cases ok0 <;> cases ok1
  · cases h
    exact ⟨rfl, fun _ _ => rfl, .inr ⟨rfl, fun c hle hlt => absurd hlt (Nat.not_lt.2 hle)⟩⟩
  · cases h
    refine ⟨rfl, fun c hc => Function.update_of_ne (Nat.ne_of_lt hc) _ _, .inr ⟨rfl, ?_⟩⟩
    intro c hle hlt
    obtain rfl : c = devs.next := Nat.le_antisymm (Nat.le_of_lt_succ hlt) hle
    exact Function.update_self _ _ _
  · cases h
    refine ⟨rfl, fun c hc => Function.update_of_ne (Nat.ne_of_lt hc) _ _, .inr ⟨rfl, ?_⟩⟩
    intro c hle hlt
    obtain rfl : c = devs.next := Nat.le_antisymm (Nat.le_of_lt_succ hlt) hle
    exact Function.update_self _ _ _
  · simp only [initDevices, allocEtherdev, if_true, Heap.next_malloc, Heap.store, reduceCtorEq,
      or_self, if_false, Heap.cell_malloc, Heap.cell_upd, Function.update_apply, hpq, hpq.symm,
      Option.isSome_some, Option.map_some, bind, Except.bind, pure, Except.pure, Except.ok.injEq,
      Prod.mk.injEq] at h
    obtain ⟨rfl, rfl, rfl, rfl⟩ := h
    refine ⟨rfl, ?_, .inl ⟨rfl, rfl, rfl, ?_, ?_⟩⟩
    · intro c hc
      have h0 : c ≠ devs.next := Nat.ne_of_lt hc
      have h1 : c ≠ devs.next + 1 := Nat.ne_of_lt (Nat.lt_succ_of_lt hc)
      simp [h0, h1]
    · simp
      rfl
    · simp
      rfl

/-! ## What holds at each place -/

/-- What the place of the module says about the registrations of its two devices. -/
def ModPlace.Allows : ModPlace → Bool → Bool → Prop
  | .out, _, _ => False
  | .register0, r0, r1 => r0 = false ∧ r1 = false
  | .register1, r0, r1 => r0 = true ∧ r1 = false
  | .loaded both, r0, r1 => r1 = both ∧ (both = true → r0 = true)
  | .unregister1 both, r0, r1 => r0 = false ∧ r1 = both

namespace ModPlace.Allows

variable {place : ModPlace} {r0 r1 : Bool}

/-- When the first device is registered, so is the second one exactly after both registrations. -/
theorem registered1 (h : place.Allows true r1) : r1 = true ↔ place = .loaded true := by
  cases place with
  | out => exact h.elim
  | register0 => cases h.1
  | register1 => exact iff_of_false (by simp [h.2]) (by simp)
  | loaded both => rw [h.1, ModPlace.loaded.injEq]
  | unregister1 both => cases h.1

/-- And the other way round. -/
theorem registered0 (h : place.Allows r0 true) : r0 = true ↔ place = .loaded true := by
  cases place with
  | out => exact h.elim
  | register0 => cases h.2
  | register1 => cases h.2
  | loaded both =>
    rw [ModPlace.loaded.injEq]
    exact iff_of_true (h.2 h.1.symm) h.1.symm
  | unregister1 both => exact iff_of_false (by simp [h.1]) (by simp)

end ModPlace.Allows

/-- The two devices of the module. -/
structure TwoDevices (m : Host) (a0 a1 : Nat) (d0 d1 : NetDev) : Prop where
  os0 : m.os0 = some a0
  os1 : m.os1 = some a1
  ne : a0 ≠ a1
  cell0 : m.devs.cell a0 = some d0
  cell1 : m.devs.cell a1 = some d1
  addr0 : d0.devAddr = (NetDev.made .os0).devAddr
  addr1 : d1.devAddr = (NetDev.made .os1).devAddr
  allows : m.place.Allows d0.registered d1.registered
  only : ∀ a, m.Registered a → a = a0 ∨ a = a1

/-- The devices that were made are there, and no other device than the two of a module in the
kernel is registered. -/
structure DevicesOk (m : Host) : Prop where
  live : ∀ a, a < m.devs.next → m.devs.Live a
  place : (m.place = .out ∧ ∀ a, ¬ m.Registered a) ∨ ∃ a0 a1 d0 d1, TwoDevices m a0 a1 d0 d1

namespace TwoDevices

variable {a0 a1 c : Nat} {d0 d1 : NetDev} {place : ModPlace} {f : NetDev → NetDev}

/-- An assignment to a device that keeps its address. -/
theorem upd (h : TwoDevices m a0 a1 d0 d1) (haddr : ∀ d, (f d).devAddr = d.devAddr)
    (hreg : (c = a0 ∨ c = a1) ∨ ∀ d, (f d).registered = d.registered)
    (hallows : place.Allows (if a0 = c then f d0 else d0).registered
      (if a1 = c then f d1 else d1).registered) :
    TwoDevices { m with place, devs := m.devs.upd c f } a0 a1 (if a0 = c then f d0 else d0)
      (if a1 = c then f d1 else d1) := by
  refine ⟨h.os0, h.os1, h.ne, ?_, ?_, ?_, ?_, hallows, ?_⟩
  · rw [Heap.cell_upd, Function.update_apply]
    split
    · next heq => rw [← heq, h.cell0, Option.map_some]
    · exact h.cell0
  · rw [Heap.cell_upd, Function.update_apply]
    split
    · next heq => rw [← heq, h.cell1, Option.map_some]
    · exact h.cell1
  · rw [← h.addr0]
    split
    · exact haddr d0
    · rfl
  · rw [← h.addr1]
    split
    · exact haddr d1
    · rfl
  · rintro a ⟨dev, hc, hdev⟩
    simp only [Heap.cell_upd, Function.update_apply] at hc
    split at hc
    · next heq =>
      obtain hc' | hsame := hreg
      · rwa [heq]
      · obtain ⟨dev', hc', rfl⟩ := Option.map_eq_some_iff.1 hc
        exact h.only a ⟨dev', heq ▸ hc', (hsame dev').symm.trans hdev⟩
    · exact h.only a ⟨dev, hc, hdev⟩

theorem registered0 (h : TwoDevices m a0 a1 d0 d1) : m.Registered a0 ↔ d0.registered = true := by
  refine ⟨?_, fun hreg => ⟨d0, h.cell0, hreg⟩⟩
  rintro ⟨dev, hc, hreg⟩
  cases h.cell0.symm.trans hc
  exact hreg

theorem registered1 (h : TwoDevices m a0 a1 d0 d1) : m.Registered a1 ↔ d1.registered = true := by
  refine ⟨?_, fun hreg => ⟨d1, h.cell1, hreg⟩⟩
  rintro ⟨dev, hc, hreg⟩
  cases h.cell1.symm.trans hc
  exact hreg

end TwoDevices

namespace DevicesOk

theorem two (h : DevicesOk m) {place : ModPlace} (hpl : m.place = place) (hne : place ≠ .out) :
    ∃ a0 a1 d0 d1, TwoDevices m a0 a1 d0 d1 ∧ place.Allows d0.registered d1.registered := by
  obtain ⟨a0, a1, d0, d1, h2⟩ := h.place.resolve_left fun hout => hne (hpl.symm.trans hout.1)
  exact ⟨a0, a1, d0, d1, h2, hpl ▸ h2.allows⟩

theorem two_of_registered (h : DevicesOk m) (hreg : m.Registered a) :
    ∃ a0 a1 d0 d1, TwoDevices m a0 a1 d0 d1 :=
  h.place.resolve_left fun hout => hout.2 a hreg

theorem not_registered (h : DevicesOk m) (hpl : m.place = .out) : ¬ m.Registered a := by
  intro hreg
  obtain ⟨a0, a1, d0, d1, h2⟩ := h.two_of_registered hreg
  have hallows := h2.allows
  rw [hpl] at hallows
  exact hallows

/-- A step that leaves the devices alone. -/
theorem same (h : DevicesOk m) (hpl : m'.place = m.place) (hdevs : m'.devs = m.devs)
    (h0 : m'.os0 = m.os0) (h1 : m'.os1 = m.os1) : DevicesOk m' := by
  obtain ⟨place, devs, os0, os1, skbs, bytes⟩ := m'
  cases hpl
  cases hdevs
  cases h0
  cases h1
  refine ⟨h.live, h.place.imp id ?_⟩
  rintro ⟨a0, a1, d0, d1, h2⟩
  exact ⟨a0, a1, d0, d1, h2.os0, h2.os1, h2.ne, h2.cell0, h2.cell1, h2.addr0, h2.addr1,
    h2.allows, h2.only⟩

theorem live_upd {f : NetDev → NetDev} (h : DevicesOk m) :
    ∀ c, c < (m.devs.upd a f).next → (m.devs.upd a f).Live c := by
  intro c hc
  have hlive := h.live c hc
  rw [Heap.Live, Heap.cell_upd, Function.update_apply]
  split
  · next heq =>
    subst heq
    simpa [Heap.Live] using hlive
  · exact hlive

end DevicesOk

theorem devicesOk_init : DevicesOk .init := by
  refine ⟨fun a ha => absurd ha (Nat.not_lt_zero a), .inl ⟨rfl, ?_⟩⟩
  rintro a ⟨dev, hc, -⟩
  cases hc

theorem exitDevice_some {d : NetDev} (hc : devs.cell a = some d) :
    exitDevice (some a) devs = .ok (devs.upd a NetDev.unregister) := by
  rw [exitDevice, if_neg (by simp), Heap.store_some hc]

@[simp] theorem NetDev.registered_unregister (d : NetDev) : d.unregister.registered = false := by
  rw [NetDev.unregister]
  split
  · rfl
  · next h => exact Bool.eq_false_iff.2 h

@[simp] theorem NetDev.devAddr_unregister (d : NetDev) : d.unregister.devAddr = d.devAddr := by
  rw [NetDev.unregister]
  split <;> rfl

/-- `init_mod` makes two devices of its own, or the module is still not loaded. -/
theorem DevicesOk.initDevices (h : DevicesOk m) {ok0 ok1 : Bool} (hpl : m.place = .out)
    (hret : Eece4029.initDevices ok0 ok1 m.devs = .ok (ret, os0, os1, devs)) :
    DevicesOk { m with place := if ret = 0 then .register0 else .out, devs, os0, os1 } := by
  obtain ⟨hnext, hold, hnew⟩ := initDevices_cases hret
  -- none of the old devices is registered
  have hreg : ∀ c, (∃ dev, devs.cell c = some dev ∧ dev.registered = true) →
      m.devs.next ≤ c := by
    rintro c ⟨dev, hc, hdev⟩
    by_contra hlt
    exact h.not_registered hpl ⟨dev, hold c (Nat.lt_of_not_le hlt) ▸ hc, hdev⟩
  have hlive : ∀ c, c < m.devs.next → devs.Live c := by
    intro c hc
    rw [Heap.Live, hold c hc]
    exact h.live c hc
  rcases hnew with ⟨rfl, rfl, rfl, hc0, hc1⟩ | ⟨rfl, hnew⟩
  · have hlast : ∀ c, m.devs.next ≤ c → c < devs.next →
        c = m.devs.next ∨ c = m.devs.next + 1 := by
      intro c hle hlt
      have hb0 := ok0.toNat_le
      have hb1 := ok1.toNat_le
      omega
    refine ⟨fun c hc => ?_, .inr ⟨_, _, _, _, rfl, rfl, Nat.ne_of_lt (Nat.lt_succ_self _),
      hc0, hc1, rfl, rfl, ⟨rfl, rfl⟩, fun c hc => ?_⟩⟩
    · obtain hlt | hle := Nat.lt_or_ge c m.devs.next
      · exact hlive c hlt
      · obtain rfl | rfl := hlast c hle hc
        · exact Heap.live_of_cell hc0
        · exact Heap.live_of_cell hc1
    · have hle := hreg c hc
      obtain ⟨dev, hcell, -⟩ := hc
      exact hlast c hle (Heap.live_of_cell hcell).lt
  · refine ⟨fun c hc => ?_, .inl ⟨rfl, fun c hc => ?_⟩⟩
    · obtain hlt | hle := Nat.lt_or_ge c m.devs.next
      · exact hlive c hlt
      · exact Heap.live_of_cell (hnew c hle hc)
    · have hle := hreg c hc
      obtain ⟨dev, hcell, hdev⟩ := hc
      cases (hnew c hle (Heap.live_of_cell hcell).lt).symm.trans hcell
      cases hdev

/-- Every step keeps the account of the devices. -/
theorem DevicesOk.step (h : DevicesOk m) (hs : HostStep ipFastCsum m label m') : DevicesOk m' := by
  cases label with
  | osStartXmit =>
    obtain ⟨sk, a, ht⟩ := hs.transmission
    exact h.same ht.place ht.devs ht.os0 ht.os1
  | osCreateHeader | frame | clone | kfree =>
    cases hs
    exact h.same rfl rfl rfl rfl
  | osOpen c | osStop c =>
    cases hs with
    | _ hreg =>
      obtain ⟨a0, a1, d0, d1, h2⟩ := h.two_of_registered hreg
      refine ⟨h.live_upd, .inr ⟨a0, a1, _, _, h2.upd (fun _ => rfl)
        (.inr fun _ => rfl) ?_⟩⟩
      have hallows := h2.allows
      split <;> split <;> exact hallows
  | initDevices ok0 ok1 ret =>
    cases hs with
    | initDevices hpl hret => exact h.initDevices hpl hret
  | registerNetdev dev ok =>
    cases hs with
    | register0 hpl hret =>
      obtain ⟨a0, a1, d0, d1, h2, hallows⟩ := h.two hpl (by simp)
      rw [h2.os0, registerNetdev, Heap.store_some h2.cell0] at hret
      cases hret
      refine ⟨h.live_upd, .inr ⟨a0, a1, _, _, h2.upd (fun _ => rfl) (.inl (.inl rfl)) ?_⟩⟩
      rw [if_pos rfl, if_neg h2.ne.symm]
      cases ok with
      | true => exact ⟨rfl, hallows.2⟩
      | false => exact ⟨hallows.2, by simp⟩
    | register1 hpl hret =>
      obtain ⟨a0, a1, d0, d1, h2, hallows⟩ := h.two hpl (by simp)
      rw [h2.os1, registerNetdev, Heap.store_some h2.cell1] at hret
      cases hret
      refine ⟨h.live_upd, .inr ⟨a0, a1, _, _, h2.upd (fun _ => rfl) (.inl (.inr rfl)) ?_⟩⟩
      rw [if_pos rfl, if_neg h2.ne]
      exact ⟨rfl, fun _ => hallows.1⟩
  | unregisterNetdev dev =>
    cases hs with
    | unregister0 hpl hret =>
      obtain ⟨a0, a1, d0, d1, h2, hallows⟩ := h.two hpl (by simp)
      rw [h2.os0, exitDevice_some h2.cell0] at hret
      cases hret
      refine ⟨h.live_upd, .inr ⟨a0, a1, _, _, h2.upd NetDev.devAddr_unregister
        (.inl (.inl rfl)) ?_⟩⟩
      rw [if_pos rfl, if_neg h2.ne.symm]
      exact ⟨d0.registered_unregister, hallows.1⟩
    | unregister1 hpl hret =>
      obtain ⟨a0, a1, d0, d1, h2, hallows⟩ := h.two hpl (by simp)
      rw [h2.os1, exitDevice_some h2.cell1] at hret
      cases hret
      have hallows' : (ModPlace.unregister1 false).Allows
          (if a0 = a1 then d0.unregister else d0).registered
          (if a1 = a1 then d1.unregister else d1).registered := by
        rw [if_neg h2.ne, if_pos rfl]
        exact ⟨hallows.1, d1.registered_unregister⟩
      have h2' := h2.upd NetDev.devAddr_unregister (.inl (.inr rfl)) hallows'
      refine ⟨h.live_upd, .inl ⟨rfl, fun a hreg => ?_⟩⟩
      obtain rfl | rfl := h2'.only a hreg
      · exact absurd (h2'.registered0.1 hreg) (by rw [hallows'.1]; decide)
      · exact absurd (h2'.registered1.1 hreg) (by rw [hallows'.2]; decide)

theorem DevicesOk.of_run (h : HostRun ipFastCsum tr m) : DevicesOk m :=
  Run.inv devicesOk_init (fun _ _ _ hok hs => hok.step hs) h

/-! ## Results -/

theorem TwoDevices.other0 {a0 a1 : Nat} {d0 d1 : NetDev} (h : TwoDevices m a0 a1 d0 d1) :
    m.other (some a0) = some a1 := by
  rw [Host.other, h.os0, if_pos rfl, h.os1]

theorem TwoDevices.other1 {a0 a1 : Nat} {d0 d1 : NetDev} (h : TwoDevices m a0 a1 d0 d1) :
    m.other (some a1) = some a0 := by
  rw [Host.other, h.os0, if_neg fun heq => h.ne (Option.some.inj heq).symm]

/-- **When a frame is delivered to a registered device.** In every run `netif_rx` gets a frame for a
device that was made and not freed, and the kernel knows this device exactly when both registrations
of `init_mod` have succeeded and `exit_mod` has not begun. -/
theorem delivered_registered_iff (h : HostRun ipFastCsum tr m) :
    ∀ x ∈ tr, ∀ s ok p g, x.label = .osStartXmit s ok (some (p, g)) →
      ∃ b, p = some b ∧ x.pre.devs.Live b ∧ (x.pre.Registered b ↔ x.pre.place = .loaded true) := by
  intro x hx s ok p g hlabel
  obtain ⟨⟨tr', hr⟩, hs⟩ := h.mem x hx
  rw [hlabel] at hs
  obtain ⟨sk, a, ht⟩ := hs.transmission
  obtain ⟨dev, hc, hreg, -⟩ := ht.running
  obtain ⟨a0, a1, d0, d1, h2⟩ := (DevicesOk.of_run hr).two_of_registered ⟨dev, hc, hreg⟩
  have hp : p = x.pre.other (some a) := by
    have hout := ht.out
    cases ok with
    | false => cases hout
    | true => exact congrArg Prod.fst (Option.some.inj hout)
  have hallows := h2.allows
  obtain rfl | rfl := h2.only a ⟨dev, hc, hreg⟩
  · cases h2.cell0.symm.trans hc
    refine ⟨a1, hp.trans h2.other0, Heap.live_of_cell h2.cell1, ?_⟩
    rw [hreg] at hallows
    exact h2.registered1.trans hallows.registered1
  · cases h2.cell1.symm.trans hc
    refine ⟨a0, hp.trans h2.other1, Heap.live_of_cell h2.cell0, ?_⟩
    rw [hreg] at hallows
    exact h2.registered0.trans hallows.registered0

/-- The first device is brought up, and transmits, before the second one is registered. -/
theorem early_run : ∃ tr m x, HostRun rfcCsum tr m ∧ x ∈ tr ∧ x.pre.place = .register1 ∧
    x.label = .osStartXmit 0 true
      (some (some 1, rewriteHeader rfcCsum (shortpkt localToRemote))) := by
  have hinit : HostRun rfcCsum _ _ :=
    Run.nil.snoc (@HostStep.initDevices _ _ true true _ _ _ _ rfl rfl)
  have hregistered : HostRun rfcCsum _ _ := hinit.snoc (@HostStep.register0 _ _ true _ rfl rfl)
  have hup : HostRun rfcCsum _ _ := hregistered.snoc (@HostStep.osOpen _ _ 0 ⟨_, rfl, rfl⟩)
  have hframe : HostRun rfcCsum _ _ :=
    hup.snoc (@HostStep.frame _ _ 0 localToRemote ⟨_, rfl, rfl⟩)
  have hsent : HostRun rfcCsum _ _ :=
    hframe.snoc (@HostStep.osStartXmit _ _ 0 0 _ true _ _ ⟨rfl, rfl⟩ rfl ⟨_, rfl, rfl, rfl⟩ rfl)
  exact ⟨_, _, _, hsent, List.mem_append_right _ (List.mem_singleton_self _), rfl, rfl⟩

theorem delivered_registered_iff_early : ∃ tr m x, HostRun rfcCsum tr m ∧ x ∈ tr ∧
    x.label = .osStartXmit 0 true
      (some (some 1, rewriteHeader rfcCsum (shortpkt localToRemote))) ∧
    ¬ x.pre.Registered 1 := by
  obtain ⟨tr, m, x, h, hx, hpl, hlabel⟩ := early_run
  obtain ⟨b, hb, -, hiff⟩ := delivered_registered_iff h x hx _ _ _ _ hlabel
  cases hb
  refine ⟨tr, m, x, h, hx, hlabel, fun hreg => ?_⟩
  cases hpl.symm.trans (hiff.1 hreg)

/-- How many devices a step makes. -/
def HostLabel.devicesMade : HostLabel → Nat
  | .initDevices ok0 ok1 _ => ok0.toNat + ok1.toNat
  | _ => 0

/-- How many devices the steps make. -/
def devicesMade (tr : List (Step Host HostLabel)) : Nat :=
  (tr.map fun x => x.label.devicesMade).sum

/-- The account of the devices after the steps `tr`: those that were made are all there; while the
module is not loaded none of them is registered; and the second call of `exit_mod` takes a
registration back that is not there exactly when one of the two has failed. -/
structure DeviceAccount (tr : List (Step Host HostLabel)) (m : Host) : Prop where
  live : ∀ a, m.devs.Live a ↔ a < devicesMade tr
  out : m.place = .out → ∀ a, ¬ m.Registered a
  exit : ∀ x ∈ tr, x.label = .unregisterNetdev .os1 → ∃ a, x.pre.os1 = some a ∧
    (x.pre.Registered a ↔ x.pre.place = .unregister1 true)

/-- An assignment makes no block. -/
theorem next_of_store {f : NetDev → NetDev} (h : devs.store p f = .ok devs') :
    devs'.next = devs.next := by
  unfold Heap.store at h
  split at h
  · cases h
  · split at h
    · cases h
      rfl
    · cases h

theorem HostStep.next_devs (hs : HostStep ipFastCsum m label m') :
    m'.devs.next = m.devs.next + label.devicesMade := by
  cases hs with
  | initDevices _ hret => exact (initDevices_cases hret).1
  | register0 _ hret | register1 _ hret => exact next_of_store hret
  | unregister0 _ hret | unregister1 _ hret =>
    unfold exitDevice at hret
    split at hret
    · cases hret
      rfl
    · exact next_of_store hret
  | osStartXmit hs hdev hrun hret =>
    obtain ⟨sk, a, ht⟩ := (HostStep.osStartXmit hs hdev hrun hret).transmission
    exact congrArg Heap.next ht.devs
  | osOpen | osStop | osCreateHeader | frame | clone | kfree => rfl

/-- **Devices are never freed.** After any number of loadings and unloadings, with any outcome and
any traffic, the devices that `alloc_etherdev` made are all there, though none is registered while
the module is not loaded; and `exit_mod` asks for the end of both registrations, whether they
succeeded or not. -/
theorem devices_account (h : HostRun ipFastCsum tr m) : DeviceAccount tr m := by
  have hok := DevicesOk.of_run h
  refine ⟨fun a => ?_, fun hpl a => hok.not_registered hpl, fun x hx hlabel => ?_⟩
  · have hnext : m.devs.next = devicesMade tr := by
      clear hok
      induction h with
      | nil => rfl
      | snoc _ hs ih =>
        rw [hs.next_devs, ih]
        simp [devicesMade]
    rw [← hnext]
    exact ⟨Heap.Live.lt, hok.live a⟩
  · obtain ⟨⟨tr', hr⟩, hs⟩ := h.mem x hx
    obtain ⟨pre, label, post⟩ := x
    obtain rfl : label = _ := hlabel
    change HostStep ipFastCsum pre _ post at hs
    cases hs with
    | @unregister1 both devs hpl hret =>
      obtain ⟨a0, a1, d0, d1, h2, hallows⟩ := (DevicesOk.of_run hr).two hpl (by simp)
      refine ⟨a1, h2.os1, ?_⟩
      rw [h2.registered1, hallows.2, hpl, ModPlace.unregister1.injEq]

/-- The module is loaded, but the registration of the second device fails, and unloaded. -/
theorem devices_account_halfLoaded : ∃ tr m, HostRun rfcCsum tr m ∧ tr.map (·.label) =
    [.initDevices true true 0, .registerNetdev .os0 true, .registerNetdev .os1 false,
      .unregisterNetdev .os0, .unregisterNetdev .os1] ∧ DeviceAccount tr m := by
  have hinit : HostRun rfcCsum _ _ :=
    Run.nil.snoc (@HostStep.initDevices _ _ true true _ _ _ _ rfl rfl)
  have hloaded : HostRun rfcCsum _ _ :=
    (hinit.snoc (@HostStep.register0 _ _ true _ rfl rfl)).snoc
      (@HostStep.register1 _ _ false _ rfl rfl)
  have hout : HostRun rfcCsum _ _ :=
    (hloaded.snoc (.unregister0 rfl rfl)).snoc (.unregister1 rfl rfl)
  exact ⟨_, _, hout, rfl, devices_account hout⟩

end Eece4029
