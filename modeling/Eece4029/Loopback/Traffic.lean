import Eece4029.Loopback.Devices

/-!
# The frames of a host

What becomes of the socket buffers in any run of a host. A frame that is long enough is rewritten
where it is, and clones share their bytes: the kernel makes one for every tap on the device, and may
transmit a buffer again. So the network that a frame arrives in depends on how often its bytes were
transmitted before (`frame_arrives`). The header of `os_create_header` names the device that the
frame arrives at (`frame_addressed`). And every buffer that the driver takes is freed, except where
it gets no new one: then the call returns `0` as if the frame had been sent, and nothing leads to
the buffer any more (`buffers_account`).
-/

namespace Eece4029

open Transition OnesComplement

variable {ipFastCsum : List UInt8 → Nat → UInt16} {m m' : Host} {label : HostLabel}
  {tr mid : List (Step Host HostLabel)} {x : Step Host HostLabel} {n s a k : Nat} {sk : SkBuff}
  {p dev : Ptr} {ok : Bool} {out : Option (Ptr × List UInt8)} {frame g data : List UInt8}

/-! ## One step -/

/-- The step transmits the bytes with the number `n`. -/
def transmits (n : Nat) (x : Step Host HostLabel) : Bool :=
  match x.label with
  | .osStartXmit s _ _ => (x.pre.skbs.cell s).map (·.data) == some n
  | _ => false

/-- The step loses the buffer `s`: the driver has taken it and gets no new one. -/
def HostLabel.loses : HostLabel → Option Nat
  | .osStartXmit s false _ => some s
  | _ => none

namespace Transmission

variable {s₁ : Nat} {sk₁ : SkBuff}

theorem cell_skbs (ht : Transmission ipFastCsum m s₁ sk₁ a ok out m') (s : Nat) :
    m'.skbs.cell s =
      if s = s₁ then if ok then none else some { sk₁ with taken := true }
      else if ok = true ∧ s = m.skbs.next then some ⟨m.other (some a), m.skbs.next, false⟩
      else m.skbs.cell s := by
  rw [ht.skbs]
  cases ok with
  | false => simp [Function.update_apply, ht.has.1]
  | true =>
    obtain rfl | hne := eq_or_ne s s₁
    · simp
    · simp [Function.update_apply, hne]

theorem next_skbs (ht : Transmission ipFastCsum m s₁ sk₁ a ok out m') :
    m'.skbs.next = m.skbs.next + ok.toNat := by
  rw [ht.skbs]
  cases ok <;> rfl

theorem bytes_of_lt (ht : Transmission ipFastCsum m s₁ sk₁ a ok out m') (hn : n < m.skbs.next) :
    m'.bytes n = m.rewrite ipFastCsum sk₁.data n := by
  rw [ht.bytes]
  cases ok with
  | false => rfl
  | true => exact Function.update_of_ne (Nat.ne_of_lt hn) _ _

end Transmission

/-- A buffer after a step was one before it, or it is a new one with bytes of its own. -/
theorem HostStep.buffer_inv (hs : HostStep ipFastCsum m label m')
    (hc : m'.skbs.cell s = some sk) :
    (∃ s₀ sk₀, m.skbs.cell s₀ = some sk₀ ∧ sk.data = sk₀.data ∧ sk.dev = sk₀.dev) ∨
      (s = m.skbs.next ∧ sk.data = m.skbs.next) := by
  cases label with
  | osStartXmit s₁ ok out =>
    obtain ⟨sk₁, a, ht⟩ := hs.transmission
    rw [ht.cell_skbs] at hc
    split at hc
    · split at hc
      · cases hc
      · cases hc
        exact .inl ⟨s₁, sk₁, ht.has.1, rfl, rfl⟩
    · split at hc
      · next hnew =>
        cases hc
        exact .inr ⟨hnew.2, rfl⟩
      · exact .inl ⟨s, sk, hc, rfl, rfl⟩
  | initDevices | registerNetdev | unregisterNetdev | osOpen | osStop =>
    cases hs <;> exact .inl ⟨s, sk, hc, rfl, rfl⟩
  | osCreateHeader | frame =>
    cases hs
    simp only [Host.newSkb, Heap.cell_malloc, Function.update_apply] at hc
    split at hc
    · next heq =>
      cases hc
      exact .inr ⟨heq, rfl⟩
    · exact .inl ⟨s, sk, hc, rfl, rfl⟩
  | clone s₁ =>
    cases hs with
    | clone hhas =>
      simp only [Heap.cell_malloc, Function.update_apply] at hc
      split at hc
      · cases hc
        exact .inl ⟨s₁, sk, hhas.1, rfl, rfl⟩
      · exact .inl ⟨s, sk, hc, rfl, rfl⟩
  | kfree s₁ =>
    cases hs
    simp only [Heap.cell_drop, Function.update_apply] at hc
    split at hc
    · cases hc
    · exact .inl ⟨s, sk, hc, rfl, rfl⟩

/-- Numbers of buffers are not used again. -/
theorem HostStep.next_skbs_le (hs : HostStep ipFastCsum m label m') :
    m.skbs.next ≤ m'.skbs.next := by
  cases label with
  | osStartXmit =>
    obtain ⟨sk, a, ht⟩ := hs.transmission
    rw [ht.next_skbs]
    exact Nat.le_add_right _ _
  | initDevices | registerNetdev | unregisterNetdev =>
    cases hs <;> exact Nat.le_refl _
  | osOpen | osStop | kfree =>
    cases hs
    exact Nat.le_refl _
  | osCreateHeader | frame | clone =>
    cases hs
    exact Nat.le_succ _

/-- The bytes of a buffer change only where they are transmitted. -/
theorem HostStep.bytes_inv (hs : HostStep ipFastCsum m label m') (hn : n < m.skbs.next) :
    m'.bytes n =
      if transmits n ⟨m, label, m'⟩ then m.rewrite ipFastCsum n n else m.bytes n := by
  cases label with
  | osStartXmit s ok out =>
    obtain ⟨sk, a, ht⟩ := hs.transmission
    rw [ht.bytes_of_lt hn]
    simp only [transmits, ht.has.1, Option.map_some, beq_iff_eq, Option.some.injEq]
    split
    · next heq => rw [heq]
    · next hne =>
      unfold Host.rewrite
      split
      · rfl
      · exact Function.update_of_ne (Ne.symm hne) _ _
  | initDevices | registerNetdev | unregisterNetdev =>
    cases hs <;> rfl
  | osOpen | osStop | clone | kfree =>
    cases hs
    rfl
  | osCreateHeader | frame =>
    cases hs
    exact Function.update_of_ne (Nat.ne_of_lt hn) _ _

/-! ## The bytes of a buffer over a run -/

/-- The buffers have bytes that were made. -/
def BuffersOk (m : Host) : Prop :=
  ∀ s sk, m.skbs.cell s = some sk → sk.data < m.skbs.next

theorem BuffersOk.step (h : BuffersOk m) (hs : HostStep ipFastCsum m label m') : BuffersOk m' := by
  intro s sk hc
  rcases hs.buffer_inv hc with ⟨s₀, sk₀, hc₀, hdata, -⟩ | ⟨rfl, hdata⟩
  · rw [hdata]
    exact Nat.lt_of_lt_of_le (h s₀ sk₀ hc₀) hs.next_skbs_le
  · rw [hdata]
    exact (Heap.live_of_cell hc).lt

theorem BuffersOk.of_run (h : HostRun ipFastCsum tr m) : BuffersOk m :=
  Run.inv (fun s sk hc => by cases hc) (fun _ _ _ hok hs => hok.step hs) h

/-- The step makes a buffer for the device `dev`, with the number `n` and the bytes `frame`. -/
structure Makes (x : Step Host HostLabel) (n : Nat) (dev : Ptr) (frame : List UInt8) : Prop where
  number : n = x.pre.skbs.next
  buffer : x.post.skbs.cell n = some ⟨dev, n, false⟩
  bytes : x.post.bytes n = frame

/-- How often the steps transmit the bytes with the number `n`. -/
def sends (n : Nat) (tr : List (Step Host HostLabel)) : Nat := tr.countP (transmits n)

/-- After `k` transmissions the bytes with the number `n` are what these made of the frame, and the
buffers that have them are for the device `dev`. -/
structure Carries (ipFastCsum : List UInt8 → Nat → UInt16) (n : Nat) (dev : Ptr)
    (frame : List UInt8) (k : Nat) (m : Host) : Prop where
  old : n < m.skbs.next
  bytes : m.bytes n = if frame.length < 60 then frame else (rewriteHeader ipFastCsum)^[k] frame
  dev : ∀ s sk, m.skbs.cell s = some sk → sk.data = n → sk.dev = dev

theorem length_iterate (k : Nat) (data : List UInt8) :
    ((rewriteHeader ipFastCsum)^[k] data).length = data.length := by
  induction k with
  | zero => rfl
  | succ k ih => rw [Function.iterate_succ_apply', length_rewriteHeader, ih]

/-- A new buffer carries its frame. -/
theorem Makes.carries (hx : Makes x n dev frame) (h : BuffersOk x.pre)
    (hs : HostStep ipFastCsum x.pre x.label x.post) : Carries ipFastCsum n dev frame 0 x.post := by
  refine ⟨(Heap.live_of_cell hx.buffer).lt, ?_, fun s sk hc hdata => ?_⟩
  · rw [hx.bytes]
    exact (ite_self _).symm
  · rcases hs.buffer_inv hc with ⟨s₀, sk₀, hc₀, hdata₀, -⟩ | ⟨rfl, -⟩
    · have hlt := h s₀ sk₀ hc₀
      rw [← hdata₀, hdata, hx.number] at hlt
      exact absurd hlt (Nat.lt_irrefl _)
    · rw [← hx.number] at hc
      cases hx.buffer.symm.trans hc
      rfl

theorem Carries.step (h : Carries ipFastCsum n dev frame k m)
    (hs : HostStep ipFastCsum m label m') :
    Carries ipFastCsum n dev frame (k + (transmits n ⟨m, label, m'⟩).toNat) m' := by
  refine ⟨Nat.lt_of_lt_of_le h.old hs.next_skbs_le, ?_, fun s sk hc hdata => ?_⟩
  · rw [hs.bytes_inv h.old]
    cases transmits n ⟨m, label, m'⟩ with
    | false => exact h.bytes
    | true =>
      have hbytes := h.bytes
      rw [if_pos rfl, Host.rewrite]
      split at hbytes
      · next hshort =>
        rw [if_pos (by rwa [hbytes]), if_pos hshort, hbytes]
      · next hlong =>
        have hlen : 60 ≤ (m.bytes n).length := by
          rw [hbytes, length_iterate]
          exact Nat.not_lt.1 hlong
        rw [if_neg (Nat.not_lt.2 hlen), if_neg hlong, Function.update_self, Host.rewritten,
          shortpkt_of_le hlen, hbytes, Bool.toNat_true, Function.iterate_succ_apply']
  · rcases hs.buffer_inv hc with ⟨s₀, sk₀, hc₀, hdata₀, hdev⟩ | ⟨rfl, hdata₀⟩
    · rw [hdev]
      exact h.dev s₀ sk₀ hc₀ (hdata₀.symm.trans hdata)
    · have hlt := h.old
      rw [← hdata, hdata₀] at hlt
      exact absurd hlt (Nat.lt_irrefl _)

theorem Carries.run (h : Carries ipFastCsum n dev frame 0 m)
    (hr : Run (HostStep ipFastCsum) m mid m') :
    Carries ipFastCsum n dev frame (sends n mid) m' := by
  induction hr with
  | nil => exact h
  | @snoc tr m₁ m₂ label _ hs ih =>
    have hstep := ih.step hs
    rw [sends, List.countP_append, List.countP_singleton]
    cases hsent : transmits n ⟨m₁, label, m₂⟩ with
    | false =>
      rw [hsent] at hstep
      exact hstep
    | true =>
      rw [hsent] at hstep
      exact hstep

/-! ## What arrives -/

/-- What the driver makes of a frame with an IP header. -/
theorem crossed_rewriteHeader (hcsum : Rfc1071 ipFastCsum) (h : HasHeader frame) :
    Crossed frame (rewriteHeader ipFastCsum (shortpkt frame)) := by
  refine ⟨?_, ?_, ?_, rewriteHeader_valid hcsum h.shortpkt⟩
  · rw [length_rewriteHeader, length_shortpkt]
  · intro i h24 h25 h28 h32
    rw [rewriteHeader_eq, getElem?_setCheck h24 h25, getElem?_toggle, if_neg (by omega)]
  · intro i hi
    rw [rewriteHeader_eq, getElem?_setCheck (by omega) (by omega), getElem?_toggle, if_pos hi]

/-- An even number of times the driver changes nothing. -/
theorem iterate_even (hok : CheckOk ipFastCsum frame) (hk : k % 2 = 0) :
    (rewriteHeader ipFastCsum)^[k] frame = frame := by
  have htwice : (rewriteHeader ipFastCsum)^[2] frame = frame := rewriteHeader_rewriteHeader hok
  rw [show k = 2 * (k / 2) by omega, Function.iterate_mul]
  exact Function.iterate_fixed htwice (k / 2)

/-- What a transmission delivers of bytes that were transmitted `k` times. -/
theorem Carries.delivers (hc : Carries ipFastCsum n dev frame k m)
    (ht : Transmission ipFastCsum m s sk a ok (some (p, g)) m') (hn : sk.data = n) :
    p = m.other (some a) ∧ g =
      if frame.length < 60 then rewriteHeader ipFastCsum (shortpkt frame)
      else (rewriteHeader ipFastCsum)^[k + 1] frame := by
  have hout := ht.out
  cases ok with
  | false => cases hout
  | true =>
    cases hout
    refine ⟨rfl, ?_⟩
    have hbytes := hc.bytes
    rw [Host.rewritten, hn]
    split at hbytes
    · next hshort => rw [if_pos hshort, hbytes]
    · next hlong =>
      have hlen : 60 ≤ (m.bytes n).length := by
        rw [hbytes, length_iterate]
        exact Nat.not_lt.1 hlong
      rw [if_neg hlong, shortpkt_of_le hlen, hbytes, Function.iterate_succ_apply']

/-- A run that makes a buffer and then transmits its bytes. -/
structure SendsMade (ipFastCsum : List UInt8 → Nat → UInt16) (x : Step Host HostLabel) (n : Nat)
    (dev : Ptr) (frame : List UInt8) (mid : List (Step Host HostLabel)) (m : Host) (p : Ptr)
    (g : List UInt8) : Prop where
  run : ∃ tr, HostRun ipFastCsum (tr ++ x :: mid) m
  makes : Makes x n dev frame
  sends : ∃ s sk ok m', HostStep ipFastCsum m (.osStartXmit s ok (some (p, g))) m' ∧
    m.skbs.cell s = some sk ∧ sk.data = n

theorem SendsMade.transmission (h : SendsMade ipFastCsum x n dev frame mid m p g) :
    Carries ipFastCsum n dev frame (Eece4029.sends n mid) m ∧
      ∃ s sk a ok m', Transmission ipFastCsum m s sk a ok (some (p, g)) m' ∧ sk.data = n := by
  obtain ⟨tr, hr⟩ := h.run
  obtain ⟨hpre, hx, hmid⟩ := hr.split
  have hcarries := (h.makes.carries (BuffersOk.of_run hpre) hx).run hmid
  obtain ⟨s, sk, ok, m', hs, hc, hn⟩ := h.sends
  obtain ⟨sk', a, ht⟩ := hs.transmission
  cases hc.symm.trans ht.has.1
  exact ⟨hcarries, s, sk, a, ok, m', ht, hn⟩

/-- Few bytes cross, and more do after an even number of transmissions. -/
theorem SendsMade.crossed (hcsum : Rfc1071 ipFastCsum) (hframe : HasHeader frame)
    (hok : CheckOk ipFastCsum frame) (h : SendsMade ipFastCsum x n dev frame mid m p g)
    (hsends : frame.length < 60 ∨ Eece4029.sends n mid % 2 = 0) : Crossed frame g := by
  obtain ⟨hcarries, s, sk, a, ok, m', ht, hn⟩ := h.transmission
  obtain ⟨-, hg⟩ := hcarries.delivers ht hn
  have hcrossed := crossed_rewriteHeader hcsum hframe
  obtain hshort | hlong := Nat.lt_or_ge frame.length 60
  · rw [if_pos hshort] at hg
    rw [hg]
    exact hcrossed
  · have heven := hsends.resolve_left (Nat.not_lt.2 hlong)
    rw [if_neg (Nat.not_lt.2 hlong), Function.iterate_succ_apply', iterate_even hok heven] at hg
    rw [shortpkt_of_le hlong] at hcrossed
    rw [hg]
    exact hcrossed

/-- **Which network a frame arrives in.** In every run, whatever clones of a buffer were made and
transmitted, and whatever failed: the bytes of a frame with an IP header and its checksum arrive
padded and in the other network, if they are fewer than `ETH_ZLEN` or were transmitted an even
number of times before; and otherwise they arrive as they were made, in the network that they came
from. -/
theorem frame_arrives (hcsum : Rfc1071 ipFastCsum) (hframe : HasHeader frame)
    (hok : CheckOk ipFastCsum frame) (h : SendsMade ipFastCsum x n dev frame mid m p g) :
    if frame.length < 60 ∨ sends n mid % 2 = 0 then Crossed frame g else g = frame := by
  split
  · next hsends => exact h.crossed hcsum hframe hok hsends
  · next hsends =>
    obtain ⟨hlong, hodd⟩ := not_or.1 hsends
    obtain ⟨hcarries, s, sk, a, ok, m', ht, hn⟩ := h.transmission
    obtain ⟨-, hg⟩ := hcarries.delivers ht hn
    rw [if_neg hlong] at hg
    rw [hg]
    exact iterate_even hok (by omega)

/-- A host with the two devices, before there is any traffic. -/
def upHost (devs : Heap NetDev) : Host :=
  ⟨.loaded true, devs, some 0, some 1, .empty, fun _ => []⟩

/-- The module is loaded, and both devices are up. -/
theorem up_run : ∃ tr devs,
    HostRun rfcCsum tr (upHost devs) ∧
      devs.cell 0 = some { NetDev.made .os0 with registered := true, queue := true } ∧
      devs.cell 1 = some { NetDev.made .os1 with registered := true, queue := true } := by
  have hinit : HostRun rfcCsum _ _ :=
    Run.nil.snoc (@HostStep.initDevices _ _ true true _ _ _ _ rfl rfl)
  have hloaded : HostRun rfcCsum _ _ :=
    (hinit.snoc (@HostStep.register0 _ _ true _ rfl rfl)).snoc
      (@HostStep.register1 _ _ true _ rfl rfl)
  have hup : HostRun rfcCsum _ _ :=
    (hloaded.snoc (@HostStep.osOpen _ _ 0 ⟨_, rfl, rfl⟩)).snoc
      (@HostStep.osOpen _ _ 1 ⟨_, rfl, rfl⟩)
  exact ⟨_, _, hup, rfl, rfl⟩

/-- A frame of sixty bytes and its clone are transmitted. -/
theorem cloned_run : ∃ x mid m g,
    SendsMade rfcCsum x 0 (some 0) (shortpkt localToRemote) mid m (some 1) g ∧
      sends 0 mid = 1 := by
  obtain ⟨tr, devs, hup, hc, -⟩ := up_run
  have hsent := hup.append
    (((Run.nil.snoc (@HostStep.frame _ _ 0 (shortpkt localToRemote) ⟨_, hc, rfl⟩)).snoc
      (@HostStep.clone _ _ 0 _ ⟨rfl, rfl⟩)).snoc
      (@HostStep.osStartXmit _ _ 0 0 _ true _ _ ⟨rfl, rfl⟩ rfl ⟨_, hc, rfl, rfl⟩ rfl))
  exact ⟨_, _, _, _, ⟨⟨_, hsent⟩, ⟨rfl, rfl, rfl⟩,
    ⟨1, _, true, _, @HostStep.osStartXmit _ _ 1 0 _ true _ _ ⟨rfl, rfl⟩ rfl ⟨_, hc, rfl, rfl⟩ rfl,
      rfl, rfl⟩⟩, rfl⟩

theorem frame_arrives_cloned : ∃ x mid m,
    SendsMade rfcCsum x 0 (some 0) (shortpkt localToRemote) mid m (some 1)
      (shortpkt localToRemote) := by
  obtain ⟨x, mid, m, g, h, hsends⟩ := cloned_run
  have hheader : HasHeader localToRemote := by decide
  have hok : CheckOk rfcCsum (shortpkt localToRemote) := by
    unfold CheckOk
    decide
  have hg := frame_arrives (fun _ _ _ _ => rfl) hheader.shortpkt hok h
  rw [if_neg (by rw [hsends]; decide)] at hg
  exact ⟨x, mid, m, hg ▸ h⟩

/-! ## Where a frame is addressed to -/

/-- An assignment that keeps the address of a device keeps those of all devices. -/
theorem addr_of_store {devs devs' : Heap NetDev} {f : NetDev → NetDev} {d : NetDev}
    (h : devs.store p f = .ok devs') (hf : ∀ d, (f d).devAddr = d.devAddr)
    (hc : devs.cell a = some d) : ∃ d', devs'.cell a = some d' ∧ d'.devAddr = d.devAddr := by
  unfold Heap.store at h
  split at h
  · cases h
  · next b =>
    split at h
    · cases h
      rw [Heap.cell_upd, Function.update_apply]
      split
      · next heq =>
        subst heq
        exact ⟨f d, by rw [hc, Option.map_some], hf d⟩
      · exact ⟨d, hc, rfl⟩
    · cases h

/-- A device keeps its address. -/
theorem HostStep.addr {d : NetDev} (hs : HostStep ipFastCsum m label m')
    (hc : m.devs.cell a = some d) :
    ∃ d', m'.devs.cell a = some d' ∧ d'.devAddr = d.devAddr := by
  cases hs with
  | initDevices _ hret =>
    obtain ⟨-, hold, -⟩ := initDevices_cases hret
    exact ⟨d, (hold a (Heap.live_of_cell hc).lt).trans hc, rfl⟩
  | register0 _ hret | register1 _ hret => exact addr_of_store hret (fun _ => rfl) hc
  | unregister0 _ hret | unregister1 _ hret =>
    unfold exitDevice at hret
    split at hret
    · cases hret
      exact ⟨d, hc, rfl⟩
    · exact addr_of_store hret NetDev.devAddr_unregister hc
  | osStartXmit hs hdev hrun hret =>
    obtain ⟨sk, b, ht⟩ := (HostStep.osStartXmit hs hdev hrun hret).transmission
    exact ⟨d, ht.devs ▸ hc, rfl⟩
  | @osOpen b hreg | @osStop b hreg =>
    obtain ⟨dev, hc', -⟩ := hreg
    exact addr_of_store (Heap.store_some hc') (fun _ => rfl) hc
  | osCreateHeader | frame | clone | kfree => exact ⟨d, hc, rfl⟩

theorem addr_of_run {d : NetDev} (hr : Run (HostStep ipFastCsum) m mid m')
    (hc : m.devs.cell a = some d) :
    ∃ d', m'.devs.cell a = some d' ∧ d'.devAddr = d.devAddr := by
  induction hr with
  | nil => exact ⟨d, hc, rfl⟩
  | snoc _ hs ih =>
    obtain ⟨d₁, hc₁, haddr₁⟩ := ih
    obtain ⟨d₂, hc₂, haddr₂⟩ := hs.addr hc₁
    exact ⟨d₂, hc₂, haddr₂.trans haddr₁⟩

/-- The header of the frame is not touched. -/
theorem take_rewriteHeader (data : List UInt8) :
    (rewriteHeader ipFastCsum data).take 14 = data.take 14 := by
  refine List.ext_getElem? fun i => ?_
  rw [List.getElem?_take, List.getElem?_take]
  split
  · rw [rewriteHeader_eq, getElem?_setCheck (by omega) (by omega), getElem?_toggle,
      if_neg (by omega)]
  · rfl

theorem take_iterate (k : Nat) (data : List UInt8) :
    ((rewriteHeader ipFastCsum)^[k] data).take 14 = data.take 14 := by
  induction k with
  | zero => rfl
  | succ k ih => rw [Function.iterate_succ_apply', take_rewriteHeader, ih]

/-- Nor is it by what arrives. -/
theorem take_delivered (k : Nat) (hlen : 14 ≤ frame.length) :
    (if frame.length < 60 then rewriteHeader ipFastCsum (shortpkt frame)
      else (rewriteHeader ipFastCsum)^[k] frame).take 14 = frame.take 14 := by
  split
  · rw [take_rewriteHeader, shortpkt, List.take_append_of_le_length hlen]
  · exact take_iterate k frame

/-- The header on a device of the module: to the address of the other one, from its own. -/
theorem osCreateHeader_made {which : NetDevice} {d : NetDev} (type : UInt16)
    (packet : List UInt8) (h : d.devAddr = (NetDev.made which).devAddr) :
    (osCreateHeader d type packet).2 = (NetDev.made which.dest).devAddr ++
      (NetDev.made which).devAddr ++ [hi type, lo type] ++ packet := by
  rw [osCreateHeader, h]
  cases which <;> rfl

theorem take_osCreateHeader {which : NetDevice} {d : NetDev} {type : UInt16}
    {packet : List UInt8} (h : d.devAddr = (NetDev.made which).devAddr) (k : Nat) :
    (if (osCreateHeader d type packet).2.length < 60 then
        rewriteHeader ipFastCsum (shortpkt (osCreateHeader d type packet).2)
      else (rewriteHeader ipFastCsum)^[k] (osCreateHeader d type packet).2).take 14 =
      (NetDev.made which.dest).devAddr ++ (NetDev.made which).devAddr ++ [hi type, lo type] := by
  have hlen : ((NetDev.made which.dest).devAddr ++ (NetDev.made which).devAddr ++
      [hi type, lo type]).length = 14 := by
    cases which <;> rfl
  rw [osCreateHeader_made type packet h, take_delivered, List.take_append_of_le_length,
    List.take_of_length_le]
  · exact Nat.le_of_eq hlen
  · exact Nat.le_of_eq hlen.symm
  · rw [List.length_append, hlen]
    exact Nat.le_add_right _ _

/-- **A frame arrives at the device that it is addressed to.** In every run, where a buffer is made
with a header of `os_create_header`, and its bytes are transmitted, of however many clones and after
whatever else happened to the devices: the device that `netif_rx` gets the frame for is the other
one, whose address is in the header as the destination, with the address of the sender as the
source. -/
theorem frame_addressed {type : UInt16} {packet : List UInt8}
    (h : SendsMade ipFastCsum x n dev frame mid m p g)
    (hx : x.label = .osCreateHeader a type packet) :
    ∃ b da db, p = some b ∧ m.devs.cell a = some da ∧ m.devs.cell b = some db ∧
      db.devAddr ≠ da.devAddr ∧
      g.take 14 = db.devAddr ++ da.devAddr ++ [hi type, lo type] := by
  obtain ⟨hcarries, s, sk, a', ok, m', ht, hn⟩ := h.transmission
  obtain ⟨hp, hg⟩ := hcarries.delivers ht hn
  obtain ⟨tr, hr⟩ := h.run
  obtain ⟨hpre, hs, hmid⟩ := hr.split
  have hmakes := h.makes
  have hok := DevicesOk.of_run hr
  obtain ⟨pre, label, post⟩ := x
  obtain rfl : label = _ := hx
  change HostStep ipFastCsum pre _ post at hs
  cases hs with
  | @osCreateHeader _ d _ _ hc hreg =>
    -- the buffer is for the device `a`, which keeps its address
    have hbuffer := hmakes.buffer
    rw [hmakes.number] at hbuffer
    cases hbuffer.symm.trans (Function.update_self _ _ _)
    have hframe := hmakes.bytes
    rw [hmakes.number] at hframe
    obtain rfl := hframe.symm.trans (Function.update_self _ _ _)
    obtain rfl : a' = a :=
      Option.some.inj (ht.dev.symm.trans (hcarries.dev s sk ht.has.1 hn))
    obtain ⟨d', hc', haddr⟩ := addr_of_run hmid (show _ = some d from hc)
    obtain ⟨dev, hcell, hdev, -⟩ := ht.running
    obtain ⟨a0, a1, d0, d1, h2⟩ := hok.two_of_registered ⟨dev, hcell, hdev⟩
    obtain rfl | rfl := h2.only a' ⟨dev, hcell, hdev⟩
    · cases h2.cell0.symm.trans hc'
      refine ⟨a1, _, d1, hp.trans h2.other0, h2.cell0, h2.cell1, ?_, ?_⟩
      · rw [h2.addr0, h2.addr1]
        decide
      · rw [hg, take_osCreateHeader (haddr.symm.trans h2.addr0), h2.addr0, h2.addr1]
        rfl
    · cases h2.cell1.symm.trans hc'
      refine ⟨a0, _, d0, hp.trans h2.other1, h2.cell1, h2.cell0, ?_, ?_⟩
      · rw [h2.addr0, h2.addr1]
        decide
      · rw [hg, take_osCreateHeader (haddr.symm.trans h2.addr1), h2.addr0, h2.addr1]
        rfl

/-- A packet is sent with a header of its own. -/
theorem headed_run : ∃ x frame m g,
    SendsMade rfcCsum x 0 (some 0) frame [] m (some 1) g ∧
      x.label = .osCreateHeader 0 0x0800 (localToRemote.drop 14) := by
  obtain ⟨tr, devs, hup, hc, -⟩ := up_run
  have hframe := hup.append
    (Run.nil.snoc (@HostStep.osCreateHeader _ _ 0 _ 0x0800 (localToRemote.drop 14) hc rfl))
  exact ⟨_, _, _, _, ⟨⟨_, hframe⟩, ⟨rfl, rfl, rfl⟩,
    ⟨0, _, true, _, @HostStep.osStartXmit _ _ 0 0 _ true _ _ ⟨rfl, rfl⟩ rfl ⟨_, hc, rfl, rfl⟩ rfl,
      rfl, rfl⟩⟩, rfl⟩

theorem frame_addressed_headed : ∃ x frame m g b da db,
    SendsMade rfcCsum x 0 (some 0) frame [] m (some 1) g ∧ some 1 = some b ∧
      m.devs.cell 0 = some da ∧ m.devs.cell b = some db ∧
      g.take 14 = db.devAddr ++ da.devAddr ++ [8, 0] := by
  obtain ⟨x, frame, m, g, h, hx⟩ := headed_run
  obtain ⟨b, da, db, hb, ha, hcell, -, hg⟩ := frame_addressed h hx
  exact ⟨x, frame, m, g, b, da, db, h, hb, ha, hcell, hg⟩

/-! ## The buffers that are lost -/

/-- The driver has taken the buffer, and it is not freed. -/
def Taken (h : Heap SkBuff) (s : Nat) : Prop := ∃ sk, h.cell s = some sk ∧ sk.taken = true

namespace Taken

variable {h : Heap SkBuff} {b : Nat}

theorem malloc (hsk : sk.taken = false) : Taken (h.malloc sk).2 s ↔ Taken h s := by
  simp only [Taken, Heap.cell_malloc, Function.update_apply]
  split
  · next heq =>
    have hfresh := h.fresh s (Nat.le_of_eq heq.symm)
    simp [hfresh, hsk]
  · rfl

theorem drop : Taken (h.drop b) s ↔ s ≠ b ∧ Taken h s := by
  simp only [Taken, Heap.cell_drop, Function.update_apply]
  split
  · next heq => simp [heq]
  · next hne => simp [hne]

theorem take (hc : h.cell b = some sk) :
    Taken (h.upd b fun sk => { sk with taken := true }) s ↔ s = b ∨ Taken h s := by
  simp only [Taken, Heap.cell_upd, Function.update_apply]
  split
  · next heq => simp [heq, hc]
  · next hne => simp [hne]

end Taken

theorem Host.Has.not_taken (h : m.Has s sk) : ¬ Taken m.skbs s := by
  rintro ⟨sk', hc, htaken⟩
  cases h.1.symm.trans hc
  rw [h.2] at htaken
  cases htaken

/-- A step that loses a buffer takes it from the network stack. -/
theorem HostStep.not_taken (hs : HostStep ipFastCsum m label m') (hl : label.loses = some s) :
    ¬ Taken m.skbs s := by
  cases label with
  | osStartXmit s₁ ok out =>
    obtain ⟨sk, a, ht⟩ := hs.transmission
    cases ok with
    | false =>
      cases hl
      exact ht.has.not_taken
    | true => cases hl
  | _ => cases hl

/-- What a step loses is all that the driver keeps. -/
theorem HostStep.taken_iff (hs : HostStep ipFastCsum m label m') :
    Taken m'.skbs s ↔ Taken m.skbs s ∨ label.loses = some s := by
  cases label with
  | osStartXmit s₁ ok out =>
    obtain ⟨sk, a, ht⟩ := hs.transmission
    rw [ht.skbs]
    cases ok with
    | false =>
      simp only [Bool.false_eq_true, if_false, Taken.take ht.has.1, HostLabel.loses,
        Option.some.injEq]
      rw [or_comm, eq_comm]
    | true =>
      simp only [if_true, Taken.drop, Taken.malloc, Taken.take ht.has.1, HostLabel.loses,
        reduceCtorEq, or_false]
      refine ⟨fun ⟨hne, htaken⟩ => htaken.resolve_left hne, fun htaken => ⟨?_, .inr htaken⟩⟩
      rintro rfl
      exact ht.has.not_taken htaken
  | osCreateHeader | frame =>
    cases hs
    exact (Taken.malloc rfl).trans (by simp [HostLabel.loses])
  | clone =>
    cases hs with
    | clone hhas => exact (Taken.malloc hhas.2).trans (by simp [HostLabel.loses])
  | kfree s₁ =>
    cases hs with
    | kfree hhas =>
      simp only [Taken.drop, HostLabel.loses, reduceCtorEq, or_false, and_iff_right_iff_imp]
      rintro htaken rfl
      exact hhas.not_taken htaken
  | initDevices | registerNetdev | unregisterNetdev | osOpen | osStop =>
    cases hs <;> simp [HostLabel.loses]

/-- The buffers that the steps lose. -/
def lostBuffers (tr : List (Step Host HostLabel)) : List Nat :=
  tr.filterMap fun x => x.label.loses

/-- **The buffers that the driver loses.** In every run the buffers that the driver has taken and
that are never freed are those of the transmissions where `dev_alloc_skb` failed, one for each of
them. -/
theorem buffers_account (h : HostRun ipFastCsum tr m) :
    (lostBuffers tr).Nodup ∧ ∀ s, s ∈ lostBuffers tr ↔ Taken m.skbs s := by
  induction h with
  | nil =>
    refine ⟨List.nodup_nil, fun s => iff_of_false List.not_mem_nil ?_⟩
    rintro ⟨sk, hc, -⟩
    cases hc
  | @snoc tr m m' label hr hs ih =>
    obtain ⟨hnodup, hiff⟩ := ih
    have happend : lostBuffers (tr ++ [⟨m, label, m'⟩]) =
        lostBuffers tr ++ label.loses.toList := by
      rw [lostBuffers, List.filterMap_append, List.filterMap_cons, List.filterMap_nil]
      cases label.loses <;> rfl
    rw [happend]
    refine ⟨List.nodup_append.2 ⟨hnodup, ?_, ?_⟩, fun s => ?_⟩
    · cases label.loses with
      | none => exact List.nodup_nil
      | some s => exact List.pairwise_singleton _ s
    · rintro s hs' _ hl rfl
      exact hs.not_taken (Option.mem_toList.1 hl) ((hiff s).1 hs')
    · rw [List.mem_append, hiff, Option.mem_toList, hs.taken_iff]

theorem buffers_account_lost : ∃ tr m, HostRun rfcCsum tr m ∧
    (tr.map (·.label)).getLast? = some (.osStartXmit 0 false none) ∧ Taken m.skbs 0 := by
  obtain ⟨tr, devs, hup, hc, -⟩ := up_run
  have hframe : HostRun rfcCsum _ _ :=
    hup.snoc (@HostStep.frame _ _ 0 localToRemote ⟨_, hc, rfl⟩)
  have hsent : HostRun rfcCsum _ _ :=
    hframe.snoc (@HostStep.osStartXmit _ _ 0 0 _ false _ _ ⟨rfl, rfl⟩ rfl ⟨_, hc, rfl, rfl⟩ rfl)
  refine ⟨_, _, hsent, by simp, ((buffers_account hsent).2 0).1 ?_⟩
  exact List.mem_filterMap.2 ⟨_, List.mem_append_right _ (List.mem_singleton_self _), rfl⟩

end Eece4029
