import Eece4029.Lib.OnesComplement
import Mathlib.Tactic.Common

/-!
# The loopback driver

`hw4_loopback/loopback.c` joins two network devices: what is transmitted on one of them is received
on the other one, with the third octet of both IP addresses toggled and the checksum of the header
rebuilt. A short frame is padded with zeros in a buffer of its own, a longer one is changed in
place. `loopback_correct` says what arrives for every frame with an IP header in it, and that the
way back through the other device undoes the change.

A frame is the list of its bytes. `ip_fast_csum` of the kernel is a parameter: it is given the bytes
from the header on and the header length in 32-bit words, and `Rfc1071` is what it computes.
`ETH_ZLEN` is `60`, and the IP header starts at byte `14`, after the `struct ethhdr`; in it `check`
is at offset `10`, `saddr` at `12` and `daddr` at `16`. `eth_type_trans`, the time stamp and the
other fields of the two socket buffers are left out.
-/

namespace Eece4029

open OnesComplement

/-! ## The driver -/

/-- The two network devices. -/
inductive NetDevice
  | os0
  | os1
deriving DecidableEq, Repr

/-- `dest`: the opposite of the device that transmits. -/
def NetDevice.dest (dev : NetDevice) : NetDevice := if dev = .os0 then .os1 else .os0

/-- `shortpkt`: the frame in a buffer of `ETH_ZLEN` zeros. -/
def shortpkt (frame : List UInt8) : List UInt8 :=
  frame ++ List.replicate (60 - frame.length) 0

/-- `ih->ihl`, the low half of the first byte of the header. -/
def ihl (data : List UInt8) : Nat := (data[14]?.getD 0).toNat % 16

/-- Toggle the third octets of `ih->saddr` and `ih->daddr`. -/
def toggle (data : List UInt8) : List UInt8 :=
  (data.modify (14 + 12 + 2) (· ^^^ 1)).modify (14 + 16 + 2) (· ^^^ 1)

/-- Assign `ih->check`, the high byte first. -/
def setCheck (check : UInt16) (data : List UInt8) : List UInt8 :=
  (data.set (14 + 10) (hi check)).set (14 + 10 + 1) (lo check)

variable (ipFastCsum : List UInt8 → Nat → UInt16)

/-- Toggle the addresses and rebuild the checksum. -/
def rewriteHeader (data : List UInt8) : List UInt8 :=
  let data := setCheck 0 (toggle data)
  setCheck (ipFastCsum (data.drop 14) (ihl data)) data

/-- `os_start_xmit`: the device that receives and the frame it gets, `none` if `dev_alloc_skb`
fails. -/
def osStartXmit (allocOk : Bool) (skb : List UInt8) (dev : NetDevice) :
    Option (NetDevice × List UInt8) :=
  let data := if skb.length < 60 then shortpkt skb else skb
  let data := rewriteHeader ipFastCsum data
  if allocOk then some (dev.dest, data) else none

/-! ## Frames with an IP header -/

/-- The frame has an IP header of at least five words. -/
structure HasHeader (frame : List UInt8) : Prop where
  ihl : 5 ≤ ihl frame
  inside : 14 + 4 * Eece4029.ihl frame ≤ frame.length

instance (frame : List UInt8) : Decidable (HasHeader frame) :=
  decidable_of_iff (5 ≤ ihl frame ∧ 14 + 4 * ihl frame ≤ frame.length)
    ⟨fun h => ⟨h.1, h.2⟩, fun h => ⟨h.ihl, h.inside⟩⟩

/-- The bytes of the header. -/
def header (data : List UInt8) : List UInt8 := (data.drop 14).take (4 * ihl data)

/-- `ip_fast_csum` is the checksum of RFC 1071 over the words of the header. -/
def Rfc1071 : Prop := ∀ bytes n, 5 ≤ n → 4 * n ≤ bytes.length →
  ipFastCsum bytes n = checksum (bytes.take (4 * n))

/-- The checksum in the frame is the one that `ip_fast_csum` computes for its header. -/
def CheckOk (frame : List UInt8) : Prop :=
  setCheck (ipFastCsum ((setCheck 0 frame).drop 14) (ihl frame)) frame = frame

/-- What arrives for a frame: the frame padded to `ETH_ZLEN`, with the third octets of the two
addresses toggled and a checksum that makes the header sum to `0xFFFF`. -/
structure Crossed (frame out : List UInt8) : Prop where
  length : out.length = max frame.length 60
  same : ∀ i, i ≠ 24 → i ≠ 25 → i ≠ 28 → i ≠ 32 → out[i]? = (shortpkt frame)[i]?
  toggled : ∀ i, i = 28 ∨ i = 32 → out[i]? = (shortpkt frame)[i]?.map (· ^^^ 1)
  valid : sum (words (header out)) = 0xFFFF

variable {ipFastCsum} {frame data : List UInt8} {c c' : UInt16}

/-! ## The fields of the header -/

@[simp] theorem length_setCheck : (setCheck c data).length = data.length := by simp [setCheck]

@[simp] theorem length_toggle : (toggle data).length = data.length := by simp [toggle]

theorem getElem?_setCheck {i : Nat} (h : i ≠ 24) (h' : i ≠ 25) :
    (setCheck c data)[i]? = data[i]? := by
  rw [setCheck, List.getElem?_set_ne h'.symm, List.getElem?_set_ne h.symm]

theorem getElem?_toggle (i : Nat) : (toggle data)[i]? =
    if i = 28 ∨ i = 32 then data[i]?.map (· ^^^ 1) else data[i]? := by
  simp only [toggle, List.getElem?_modify]
  by_cases h1 : i = 28
  · subst h1
    simp
  · by_cases h2 : i = 32
    · subst h2
      simp
    · simp [h1, h2, Ne.symm h1, Ne.symm h2]

/-- Two assignments of the checksum are the last one. -/
theorem setCheck_setCheck : setCheck c (setCheck c' data) = setCheck c data := by
  rw [setCheck, setCheck, List.set_comm (lo c') (hi c) (by decide), List.set_set, List.set_set,
    setCheck]

/-- Assigning the checksum that is there changes nothing. -/
theorem setCheck_self (h : data[24]? = some (hi c)) (h' : data[25]? = some (lo c)) :
    setCheck c data = data := by
  refine List.ext_getElem? ?_
  intro i
  have hlen := (List.getElem?_eq_some_iff.1 h').1
  by_cases h1 : i = 25
  · subst h1
    rw [h', setCheck, List.getElem?_set_self (by simpa using hlen)]
  · by_cases h2 : i = 24
    · subst h2
      rw [h, setCheck, List.getElem?_set_ne (by decide), List.getElem?_set_self (by omega)]
    · exact getElem?_setCheck h2 h1

/-- Toggling twice changes nothing. -/
theorem toggle_toggle : toggle (toggle data) = data := by
  refine List.ext_getElem? ?_
  intro i
  rw [getElem?_toggle, getElem?_toggle]
  split
  · have hxor : ∀ b : UInt8, b ^^^ 1 ^^^ 1 = b := fun b => by
      rw [UInt8.xor_assoc, UInt8.xor_self, UInt8.xor_zero]
    simp only [Option.map_map, Function.comp_def, hxor, Option.map_id']
  · rfl

/-- The addresses and the checksum are different bytes. -/
theorem toggle_setCheck : toggle (setCheck c data) = setCheck c (toggle data) := by
  refine List.ext_getElem? ?_
  intro i
  by_cases h : i = 24 ∨ i = 25
  · have hne : ¬ (i = 28 ∨ i = 32) := by omega
    rw [getElem?_toggle, if_neg hne]
    simp only [setCheck, List.getElem?_set, length_toggle, List.length_set, getElem?_toggle,
      if_neg hne]
  · obtain ⟨h1, h2⟩ := not_or.1 h
    rw [getElem?_toggle, getElem?_setCheck h1 h2, getElem?_setCheck h1 h2, getElem?_toggle]

@[simp] theorem ihl_setCheck : ihl (setCheck c data) = ihl data := by
  rw [ihl, getElem?_setCheck (by decide) (by decide), ihl]

@[simp] theorem ihl_toggle : ihl (toggle data) = ihl data := by
  rw [ihl, getElem?_toggle, if_neg (by decide), ihl]

/-- The header with a checksum assigned: the words before it, the checksum and the words after
it. -/
theorem header_setCheck (h : HasHeader data) : header (setCheck c data) =
    (header data).take 10 ++ hi c :: lo c :: (header data).drop 12 := by
  have hlen : 12 ≤ (header data).length := by
    have h1 := h.ihl
    have h2 := h.inside
    simp only [header, List.length_take, List.length_drop]
    omega
  have hset : header (setCheck c data) = ((header data).set 10 (hi c)).set 11 (lo c) := by
    rw [header, ihl_setCheck, setCheck, List.drop_set, List.drop_set, if_neg (by decide),
      if_neg (by decide), List.take_set, List.take_set]
    rfl
  rw [hset, List.set_eq_take_append_cons_drop, if_pos (by rw [List.length_set]; omega),
    List.take_set, List.drop_set_of_lt (by decide), List.set_eq_take_append_cons_drop,
    if_pos (by simp only [List.length_take]; omega), List.take_take, List.append_assoc]
  simp

/-! ## The padded frame -/

/-- A frame that is long enough is not padded. -/
theorem shortpkt_of_le (h : 60 ≤ frame.length) : shortpkt frame = frame := by
  simp [shortpkt, Nat.sub_eq_zero_of_le h]

theorem length_shortpkt : (shortpkt frame).length = max frame.length 60 := by
  simp only [shortpkt, List.length_append, List.length_replicate]
  omega

theorem le_length_shortpkt : 60 ≤ (shortpkt frame).length := by
  rw [length_shortpkt]
  exact Nat.le_max_right ..

/-- On either path the frame that is rewritten is the padded one. -/
theorem osStartXmit_eq (skb : List UInt8) (dev : NetDevice) :
    osStartXmit ipFastCsum true skb dev =
      some (dev.dest, rewriteHeader ipFastCsum (shortpkt skb)) := by
  have hdata : (if skb.length < 60 then shortpkt skb else skb) = shortpkt skb := by
    split
    · rfl
    · next h => rw [shortpkt_of_le (Nat.not_lt.1 h)]
  simp only [osStartXmit, hdata, if_true]

/-- The header of the padded frame is that of the frame. -/
theorem HasHeader.getElem?_shortpkt (h : HasHeader frame) {i : Nat}
    (hi : i < 14 + 4 * Eece4029.ihl frame) : (shortpkt frame)[i]? = frame[i]? :=
  List.getElem?_append_left (Nat.lt_of_lt_of_le hi h.inside)

theorem HasHeader.ihl_shortpkt (h : HasHeader frame) : Eece4029.ihl (shortpkt frame) =
    Eece4029.ihl frame := by
  have h5 := h.ihl
  rw [Eece4029.ihl, h.getElem?_shortpkt (by omega), Eece4029.ihl]

theorem HasHeader.shortpkt (h : HasHeader frame) : HasHeader (shortpkt frame) := by
  have h5 := h.ihl
  have hin := h.inside
  refine ⟨h.ihl_shortpkt ▸ h.ihl, ?_⟩
  rw [h.ihl_shortpkt, length_shortpkt]
  omega

/-- `ip_fast_csum` reads the same header in the padded frame. -/
theorem HasHeader.csum_shortpkt (h : HasHeader frame) (hcsum : Rfc1071 ipFastCsum) :
    ipFastCsum ((setCheck 0 (Eece4029.shortpkt frame)).drop 14)
        (Eece4029.ihl (Eece4029.shortpkt frame)) =
      ipFastCsum ((setCheck 0 frame).drop 14) (Eece4029.ihl frame) := by
  have h5 := h.ihl
  have hin := h.inside
  have hlen : 4 * Eece4029.ihl frame ≤ ((setCheck 0 frame).drop 14).length := by
    rw [List.length_drop, length_setCheck]
    omega
  have happ : setCheck 0 (Eece4029.shortpkt frame) =
      setCheck 0 frame ++ List.replicate (60 - frame.length) 0 := by
    rw [setCheck, Eece4029.shortpkt, List.set_append_left _ _ (by omega),
      List.set_append_left _ _ (by rw [List.length_set]; omega), setCheck]
  have hdrop : (setCheck 0 (Eece4029.shortpkt frame)).drop 14 =
      (setCheck 0 frame).drop 14 ++ List.replicate (60 - frame.length) 0 := by
    rw [happ, List.drop_append_of_le_length (by rw [length_setCheck]; omega)]
  rw [h.ihl_shortpkt, hdrop, hcsum _ _ h5 (by rw [List.length_append]; omega), hcsum _ _ h5 hlen,
    List.take_append_of_le_length hlen]

/-! ## One hop and back -/

/-- The bytes that arrive, on a frame that is long enough. -/
theorem rewriteHeader_eq (data : List UInt8) : rewriteHeader ipFastCsum data =
    setCheck (ipFastCsum ((setCheck 0 (toggle data)).drop 14) (ihl data)) (toggle data) := by
  rw [rewriteHeader, setCheck_setCheck, ihl_setCheck, ihl_toggle]

@[simp] theorem length_rewriteHeader (data : List UInt8) :
    (rewriteHeader ipFastCsum data).length = data.length := by
  rw [rewriteHeader_eq, length_setCheck, length_toggle]

/-- The header that arrives sums to `0xFFFF`. -/
theorem rewriteHeader_valid (hcsum : Rfc1071 ipFastCsum) (h : HasHeader data) :
    sum (words (header (rewriteHeader ipFastCsum data))) = 0xFFFF := by
  have h5 := h.ihl
  have hin := h.inside
  have ht : HasHeader (toggle data) := ⟨by simpa using h.ihl, by simpa using h.inside⟩
  have hzero : header (setCheck 0 (toggle data)) =
      (header (toggle data)).take 10 ++ 0 :: 0 :: (header (toggle data)).drop 12 :=
    header_setCheck ht
  have hc : ipFastCsum ((setCheck 0 (toggle data)).drop 14) (ihl data) =
      checksum ((header (toggle data)).take 10 ++ 0 :: 0 :: (header (toggle data)).drop 12) := by
    rw [hcsum _ _ h5 (by simp only [List.length_drop, length_setCheck, length_toggle]; omega),
      ← hzero, header, ihl_setCheck, ihl_toggle]
  rw [rewriteHeader_eq, header_setCheck ht]
  refine sum_with_checksum ?_ hc
  have hlen : 10 ≤ (header (toggle data)).length := by
    simp only [header, List.length_take, List.length_drop, ihl_toggle, length_toggle]
    omega
  rw [List.length_take, Nat.min_eq_left hlen]

/-- A frame with its own checksum that is rewritten twice is the frame. -/
theorem rewriteHeader_rewriteHeader
    (hc : setCheck (ipFastCsum ((setCheck 0 data).drop 14) (ihl data)) data = data) :
    rewriteHeader ipFastCsum (rewriteHeader ipFastCsum data) = data := by
  rw [rewriteHeader_eq, rewriteHeader_eq data, toggle_setCheck, toggle_toggle, setCheck_setCheck,
    ihl_setCheck, ihl_toggle, setCheck_setCheck, hc]

/-- **What the loopback does to a frame with an IP header.** The other device gets the padded frame
with the two third octets toggled and a checksum that is valid, on either path; and when the
checksum in the frame was that of its header, the way back yields the padded frame. -/
theorem loopback_correct (hcsum : Rfc1071 ipFastCsum) (h : HasHeader frame) (dev : NetDevice) :
    dev.dest ≠ dev ∧ ∃ out, osStartXmit ipFastCsum true frame dev = some (dev.dest, out) ∧
      osStartXmit ipFastCsum true (shortpkt frame) dev = some (dev.dest, out) ∧
      Crossed frame out ∧
      (CheckOk ipFastCsum frame →
        osStartXmit ipFastCsum true out dev.dest = some (dev, shortpkt frame)) := by
  refine ⟨by cases dev <;> decide, _, osStartXmit_eq frame dev, ?_, ⟨?_, ?_, ?_, ?_⟩, ?_⟩
  · rw [osStartXmit_eq, shortpkt_of_le le_length_shortpkt]
  · rw [length_rewriteHeader, length_shortpkt]
  · intro i h24 h25 h28 h32
    rw [rewriteHeader_eq, getElem?_setCheck h24 h25, getElem?_toggle, if_neg (by omega)]
  · intro i hi
    rw [rewriteHeader_eq, getElem?_setCheck (by omega) (by omega), getElem?_toggle, if_pos hi]
  · exact rewriteHeader_valid hcsum h.shortpkt
  · intro hok
    have h5 := h.ihl
    have hback : setCheck (ipFastCsum ((setCheck 0 (shortpkt frame)).drop 14)
        (ihl (shortpkt frame))) (shortpkt frame) = shortpkt frame := by
      have hin := h.inside
      refine setCheck_self ?_ ?_
      · rw [h.csum_shortpkt hcsum, h.getElem?_shortpkt (by omega)]
        nth_rewrite 1 [← hok]
        rw [setCheck, List.getElem?_set_ne (by decide), List.getElem?_set_self (by omega)]
      · rw [h.csum_shortpkt hcsum, h.getElem?_shortpkt (by omega)]
        nth_rewrite 1 [← hok]
        rw [setCheck, List.getElem?_set_self (by rw [List.length_set]; omega)]
    have hlong : 60 ≤ (rewriteHeader ipFastCsum (shortpkt frame)).length := by
      rw [length_rewriteHeader]
      exact le_length_shortpkt
    rw [osStartXmit_eq, shortpkt_of_le hlong, rewriteHeader_rewriteHeader hback]
    cases dev <;> rfl

/-- The checksum of RFC 1071 over the header. -/
def rfcCsum (bytes : List UInt8) (n : Nat) : UInt16 := checksum (bytes.take (4 * n))

/-- A packet from 10.0.0.1 to 10.0.0.2 without data, with its checksum. -/
def localToRemote : List UInt8 :=
  List.replicate 14 0 ++ [0x45, 0, 0, 20, 0, 0, 0, 0, 64, 1, 102, 231, 10, 0, 0, 1, 10, 0, 0, 2]

theorem loopback_correct_localToRemote : ∃ out,
    osStartXmit rfcCsum true localToRemote .os0 = some (.os1, out) ∧ Crossed localToRemote out ∧
      osStartXmit rfcCsum true out .os1 = some (.os0, shortpkt localToRemote) := by
  have hcsum : Rfc1071 rfcCsum := fun _ _ _ _ => rfl
  have hheader : HasHeader localToRemote := by decide
  obtain ⟨-, out, hxmit, -, hcrossed, hback⟩ := loopback_correct hcsum hheader .os0
  have hok : CheckOk rfcCsum localToRemote := by
    unfold CheckOk
    decide
  exact ⟨out, hxmit, hcrossed, hback hok⟩

end Eece4029
