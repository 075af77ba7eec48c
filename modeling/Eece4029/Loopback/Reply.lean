import Eece4029.Loopback.Traffic

/-!
# Requests and replies

The purpose of the two devices: a host that sends a packet from its address on one device to an
address that nobody has in that network gets an answer from there. The packet arrives at the other
device with both addresses in the other network, where the destination is the host's own address,
and the answer to it takes the same way back. `reply_arrives` says that it arrives at the device of
the request, from the address that the request was sent to, whatever happened in between.
-/

namespace Eece4029

open Transition

variable {ipFastCsum : List UInt8 → Nat → UInt16} {m m' : Host} {label : HostLabel}
  {tr mid mid' later : List (Step Host HostLabel)} {x x' : Step Host HostLabel}
  {n n' a b : Nat} {p p' dev : Ptr} {frame frame' g g' addr : List UInt8}

/-! ## Addresses -/

/-- `ih->saddr`. -/
def saddr (frame : List UInt8) : List UInt8 := (frame.drop (14 + 12)).take 4

/-- `ih->daddr`. -/
def daddr (frame : List UInt8) : List UInt8 := (frame.drop (14 + 16)).take 4

/-- The address with the same host number in the other network. -/
def otherNet (addr : List UInt8) : List UInt8 := addr.modify 2 (· ^^^ 1)

theorem getElem?_otherNet (addr : List UInt8) (i : Nat) :
    (otherNet addr)[i]? = if i = 2 then addr[i]?.map (· ^^^ 1) else addr[i]? := by
  rw [otherNet, List.getElem?_modify]
  obtain rfl | hne := eq_or_ne i 2
  · simp
  · simp [hne, hne.symm]

theorem otherNet_otherNet (addr : List UInt8) : otherNet (otherNet addr) = addr := by
  refine List.ext_getElem? fun i => ?_
  rw [getElem?_otherNet, getElem?_otherNet]
  split
  · have hxor : ∀ b : UInt8, b ^^^ 1 ^^^ 1 = b := fun b => by
      rw [UInt8.xor_assoc, UInt8.xor_self, UInt8.xor_zero]
    simp only [Option.map_map, Function.comp_def, hxor, Option.map_id']
  · rfl

/-- Four bytes of a frame, of which the third one is toggled on the way. -/
theorem field_rewriteHeader {i : Nat} (hi : i = 26 ∨ i = 30) (data : List UInt8) :
    ((rewriteHeader ipFastCsum data).drop i).take 4 = otherNet ((data.drop i).take 4) := by
  refine List.ext_getElem? fun j => ?_
  rw [getElem?_otherNet, List.getElem?_take, List.getElem?_take, List.getElem?_drop,
    List.getElem?_drop]
  obtain hj | hj := Nat.lt_or_ge j 4
  · rw [if_pos hj, if_pos hj, rewriteHeader_eq, getElem?_setCheck (by omega) (by omega),
      getElem?_toggle]
    exact if_congr (by omega) rfl rfl
  · rw [if_neg (Nat.not_lt.2 hj), if_neg (Nat.not_lt.2 hj)]
    exact (ite_self _).symm

/-- Twice on the way it is as before. -/
theorem field_iterate {i : Nat} (hi : i = 26 ∨ i = 30) (k : Nat) (data : List UInt8) :
    (((rewriteHeader ipFastCsum)^[2 * k] data).drop i).take 4 = (data.drop i).take 4 := by
  induction k with
  | zero => rfl
  | succ k ih =>
    rw [Nat.mul_succ, Function.iterate_succ_apply', Function.iterate_succ_apply',
      field_rewriteHeader hi, field_rewriteHeader hi, otherNet_otherNet, ih]

namespace SendsMade

/-- What arrives has the addresses in the other network, with any checksum. -/
theorem field {i : Nat} (hi : i = 26 ∨ i = 30)
    (h : SendsMade ipFastCsum x n dev frame mid m p g) (hframe : 34 ≤ frame.length)
    (hsends : frame.length < 60 ∨ Eece4029.sends n mid % 2 = 0) :
    (g.drop i).take 4 = otherNet ((frame.drop i).take 4) := by
  obtain ⟨hcarries, s, sk, a, ok, m', ht, hn⟩ := h.transmission
  obtain ⟨-, hg⟩ := hcarries.delivers ht hn
  obtain hshort | hlong := Nat.lt_or_ge frame.length 60
  · rw [if_pos hshort] at hg
    rw [hg, field_rewriteHeader hi, shortpkt, List.drop_append_of_le_length (by omega),
      List.take_append_of_le_length (by rw [List.length_drop]; omega)]
  · have heven := hsends.resolve_left (Nat.not_lt.2 hlong)
    rw [if_neg (Nat.not_lt.2 hlong), Function.iterate_succ_apply'] at hg
    have htwice : Eece4029.sends n mid = 2 * (Eece4029.sends n mid / 2) := by omega
    rw [hg, field_rewriteHeader hi, htwice, field_iterate hi]

theorem saddr (h : SendsMade ipFastCsum x n dev frame mid m p g) (hframe : 34 ≤ frame.length)
    (hsends : frame.length < 60 ∨ Eece4029.sends n mid % 2 = 0) :
    Eece4029.saddr g = otherNet (Eece4029.saddr frame) :=
  h.field (.inl rfl) hframe hsends

theorem daddr (h : SendsMade ipFastCsum x n dev frame mid m p g) (hframe : 34 ≤ frame.length)
    (hsends : frame.length < 60 ∨ Eece4029.sends n mid % 2 = 0) :
    Eece4029.daddr g = otherNet (Eece4029.daddr frame) :=
  h.field (.inr rfl) hframe hsends

end SendsMade

/-! ## The way back -/

/-- As long as one of its devices is registered, the module is the same. -/
structure SameModule (m m' : Host) : Prop where
  next : m.devs.next ≤ m'.devs.next
  module : (m'.os0 = m.os0 ∧ m'.os1 = m.os1) ∨ m'.place = .out ∨
    ∀ c, m'.os0 = some c ∨ m'.os1 = some c → m.devs.next ≤ c

theorem SameModule.step {m₁ m₂ : Host} (h : SameModule m m₁)
    (hs : HostStep ipFastCsum m₁ label m₂) : SameModule m m₂ := by
  refine ⟨?_, ?_⟩
  · rw [hs.next_devs]
    exact Nat.le_trans h.next (Nat.le_add_right _ _)
  cases hs with
  | initDevices hpl hret =>
    obtain ⟨-, -, hnew⟩ := initDevices_cases hret
    obtain ⟨rfl, rfl, rfl, -⟩ | ⟨rfl, -⟩ := hnew
    · refine .inr (.inr ?_)
      rintro c (hc | hc)
      · cases hc
        exact h.next
      · cases hc
        exact Nat.le_succ_of_le h.next
    · exact .inr (.inl rfl)
  | register0 hpl | register1 hpl | unregister0 hpl =>
    exact h.module.imp_right fun hmod => .inr (hmod.resolve_left (by simp [hpl]))
  | unregister1 => exact .inr (.inl rfl)
  | osStartXmit hs hdev hrun hret =>
    obtain ⟨sk, a, ht⟩ := (HostStep.osStartXmit hs hdev hrun hret).transmission
    rw [ht.os0, ht.os1, ht.place]
    exact h.module
  | osOpen | osStop | osCreateHeader | frame | clone | kfree => exact h.module

theorem SameModule.of_run (hr : Run (HostStep ipFastCsum) m later m') : SameModule m m' :=
  Run.inv ⟨Nat.le_refl _, .inl ⟨rfl, rfl⟩⟩ (fun _ _ _ h hs => h.step hs) hr

/-- What is transmitted on the device that a frame has arrived at arrives where the frame was
transmitted. -/
theorem SameModule.other (h : SameModule m m') (hok : DevicesOk m) (hok' : DevicesOk m')
    (ha : m.Registered a) (hb : m.other (some a) = some b) (hb' : m'.Registered b) :
    m'.other (some b) = some a := by
  obtain ⟨a0, a1, d0, d1, h2⟩ := hok.two_of_registered ha
  obtain ⟨b0, b1, e0, e1, h2'⟩ := hok'.two_of_registered hb'
  have hback : m.other (some b) = some a ∧ b < m.devs.next := by
    obtain rfl | rfl := h2.only a ha
    · cases h2.other0.symm.trans hb
      exact ⟨h2.other1, (Heap.live_of_cell h2.cell1).lt⟩
    · cases h2.other1.symm.trans hb
      exact ⟨h2.other0, (Heap.live_of_cell h2.cell0).lt⟩
  rcases h.module with ⟨h0, h1⟩ | hout | hnew
  · rw [Host.other, h0, h1]
    exact hback.1
  · have hallows := h2'.allows
    rw [hout] at hallows
    exact hallows.elim
  · have hle : m.devs.next ≤ b := by
      obtain rfl | rfl := h2'.only b hb'
      · exact hnew b (.inl h2'.os0)
      · exact hnew b (.inr h2'.os1)
    exact absurd hback.2 (Nat.not_lt.2 hle)

/-- **A reply arrives where the request was sent.** In every run: a request is transmitted on the
device `a`, and the host makes a reply for the device that it arrives at, to the address that it
seems to come from and from the one that it is for, and transmits that at any later time. Then the
reply arrives at the device `a`, from the address that the request was sent to, and to the one that
it was sent from; both are to be long enough for the addresses, and to be few bytes, or not an odd
number of times transmitted before. -/
theorem reply_arrives (h : SendsMade ipFastCsum x n (some a) frame mid m p g)
    (hlater : Run (HostStep ipFastCsum) m later m')
    (h' : SendsMade ipFastCsum x' n' p frame' mid' m' p' g')
    (hframe : 34 ≤ frame.length) (hsends : frame.length < 60 ∨ sends n mid % 2 = 0)
    (hframe' : 34 ≤ frame'.length) (hsends' : frame'.length < 60 ∨ sends n' mid' % 2 = 0)
    (hreply : saddr frame' = daddr g ∧ daddr frame' = saddr g) :
    p' = some a ∧ saddr g' = daddr frame ∧ daddr g' = saddr frame := by
  obtain ⟨tr, hr⟩ := h.run
  obtain ⟨tr', hr'⟩ := h'.run
  obtain ⟨hcarries, s, sk, a₁, ok, m₁, ht, hn⟩ := h.transmission
  obtain ⟨hcarries', s', sk', b, ok', m₁', ht', hn'⟩ := h'.transmission
  have ha : a₁ = a := Option.some.inj (ht.dev.symm.trans (hcarries.dev s sk ht.has.1 hn))
  have hb : some b = p := ht'.dev.symm.trans (hcarries'.dev s' sk' ht'.has.1 hn')
  subst ha hb
  have hother : m.other (some a₁) = some b := (hcarries.delivers ht hn).1.symm
  obtain ⟨dev, hc, hreg, -⟩ := ht.running
  obtain ⟨dev', hc', hreg', -⟩ := ht'.running
  refine ⟨?_, ?_, ?_⟩
  · rw [(hcarries'.delivers ht' hn').1]
    exact (SameModule.of_run hlater).other (.of_run hr) (.of_run hr') ⟨dev, hc, hreg⟩ hother
      ⟨dev', hc', hreg'⟩
  · rw [h'.saddr hframe' hsends', hreply.1, h.daddr hframe hsends, otherNet_otherNet]
  · rw [h'.daddr hframe' hsends', hreply.2, h.saddr hframe hsends, otherNet_otherNet]

/-- The answer of 10.0.1.2 to 10.0.1.1. -/
def localReply : List UInt8 :=
  List.replicate 14 0 ++ [0x45, 0, 0, 20, 0, 0, 0, 0, 64, 1, 100, 231, 10, 0, 1, 2, 10, 0, 1, 1]

/-- A request from 10.0.0.1 to 10.0.0.2, and the answer to it. -/
theorem exchange_run : ∃ x x' m m' later g g',
    SendsMade rfcCsum x 0 (some 0) localToRemote [] m (some 1) g ∧
      Run (HostStep rfcCsum) m later m' ∧
      SendsMade rfcCsum x' 2 (some 1) localReply [] m' (some 0) g' ∧
      saddr localReply = daddr g ∧ daddr localReply = saddr g := by
  obtain ⟨tr, devs, hup, hc0, hc1⟩ := up_run
  have hrequest := hup.snoc
    (@HostStep.frame _ (upHost devs) 0 localToRemote ⟨_, hc0, rfl⟩)
  have hsent : HostStep rfcCsum ((upHost devs).newSkb (some 0) localToRemote)
      (.osStartXmit 0 true (some (some 1, rewriteHeader rfcCsum (shortpkt localToRemote)))) _ :=
    .osStartXmit ⟨rfl, rfl⟩ rfl ⟨_, hc0, rfl, rfl⟩ rfl
  have hreply : ∀ {m : Host}, m.devs = devs →
      HostStep rfcCsum m (.frame 1 localReply) (m.newSkb (some 1) localReply) :=
    fun hdevs => .frame ⟨_, hdevs ▸ hc1, rfl⟩
  have hlater := (Run.nil.snoc hsent).snoc (hreply rfl)
  have hreplied := (hrequest.snoc hsent).snoc (hreply rfl)
  exact ⟨_, _, _, _, _, _, _, ⟨⟨tr, hrequest⟩, ⟨rfl, rfl, rfl⟩, ⟨0, _, true, _, hsent, rfl, rfl⟩⟩,
    hlater, ⟨⟨_, hreplied⟩, ⟨rfl, rfl, rfl⟩, ⟨2, _, true, _,
      @HostStep.osStartXmit _ _ 2 1 _ true _ _ ⟨rfl, rfl⟩ rfl ⟨_, hc1, rfl, rfl⟩ rfl, rfl, rfl⟩⟩,
    by decide, by decide⟩

theorem reply_arrives_exchange : ∃ x' m' p' g',
    SendsMade rfcCsum x' 2 (some 1) localReply [] m' p' g' ∧
      p' = some 0 ∧ saddr g' = [10, 0, 0, 2] ∧ daddr g' = [10, 0, 0, 1] := by
  obtain ⟨x, x', m, m', later, g, g', h, hlater, h', hreply⟩ := exchange_run
  exact ⟨x', m', _, g', h', reply_arrives h hlater h' (by decide) (.inl (by decide)) (by decide)
    (.inl (by decide)) hreply⟩

end Eece4029
