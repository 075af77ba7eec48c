import Eece4029.Lib.Memory
import Eece4029.Loopback.Xmit

/-!
# Accesses to the frame

`os_start_xmit` pads a short frame to `ETH_ZLEN` bytes, so that an IP header without options fits
into it, and then takes the length of the header from the header: `ip_fast_csum` reads four bytes
for each of the words that `ihl` counts, of which there may be fifteen. Here is the function on the
memory of the frame, with every access that it makes there. `xmit_inside_iff` says for which frames
they stay inside, and `osStartXmitAt_eq` that it then is the function on the bytes of the frame.
-/

namespace Eece4029

open OnesComplement Memory Access

/-! ## The driver on memory -/

/-- A frame in memory, before whatever lies behind it. -/
def placed (data : List UInt8) (behind : Mem) : Mem := fun p => (data[p]?).getD (behind p)

/-- The frame that is rewritten: the one in the socket buffer, or its copy in `shortpkt`. -/
def frameData (skb : List UInt8) : List UInt8 := if skb.length < 60 then shortpkt skb else skb

variable (ipFastCsum : List UInt8 → Nat → UInt16)

/-- Toggle the addresses and rebuild the checksum. -/
def rewriteHeaderAt : Access Unit := do
  modifyAt (14 + 12 + 2) (· ^^^ 1)
  modifyAt (14 + 16 + 2) (· ^^^ 1)
  -- the addresses in the message of `printk`
  let _saddr ← readRange (14 + 12) 4
  let _daddr ← readRange (14 + 16) 4
  writeAt (14 + 10) 0
  writeAt (14 + 10 + 1) 0
  let first ← readAt 14
  let ihl := first.toNat % 16
  let header ← readRange 14 (4 * ihl)
  let check := ipFastCsum header ihl
  writeAt (14 + 10) (hi check)
  writeAt (14 + 10 + 1) (lo check)

/-- `os_start_xmit` from the frame of `len` bytes on: the bytes that the other device gets, `none`
if `dev_alloc_skb` fails. -/
def osStartXmitAt (allocOk : Bool) (len : Nat) : Access (Option (List UInt8)) := do
  rewriteHeaderAt ipFastCsum
  if allocOk then
    let data ← readRange 0 len
    return some data
  else
    return none

/-- Every access of `os_start_xmit` lies in the bytes of the frame or its padded copy. -/
def XmitInside (allocOk : Bool) (skb : List UInt8) (behind : Mem) : Prop :=
  Inside (max skb.length 60) (osStartXmitAt ipFastCsum allocOk (frameData skb).length)
    (placed (frameData skb) behind)

variable {ipFastCsum} {allocOk : Bool} {skb data : List UInt8} {behind mem : Mem} {n : Nat}

/-! ## Staying inside -/

theorem frameData_eq (skb : List UInt8) : frameData skb = shortpkt skb := by
  unfold frameData
  split
  · rfl
  · next h => rw [shortpkt_of_le (Nat.not_lt.1 h)]

/-- The bytes of a frame stand at the start of its memory. -/
theorem holds_placed : Holds (placed data behind) 0 data := by
  intro i b hb
  rw [Nat.zero_add, placed, hb]
  rfl

/-- The header length in memory is the one in the bytes. -/
theorem ihl_of_holds (h : Holds mem 0 data) (hlt : 14 < data.length) :
    (mem 14).toNat % 16 = ihl data := by
  rw [ihl, h.get hlt, List.getElem?_eq_getElem hlt, Option.getD_some]

/-- In a buffer of at least `ETH_ZLEN` bytes only the reads of the checksum may get outside. -/
theorem inside_rewriteHeaderAt (hn : 60 ≤ n) : Inside n (rewriteHeaderAt ipFastCsum) mem ↔
    14 + 4 * ((mem 14).toNat % 16) ≤ n := by
  -- none of the writes before it touches the first byte of the header
  simp only [rewriteHeaderAt, inside_bind, inside_modifyAt, inside_readRange, inside_writeAt,
    inside_readAt, value_readAt, mem_readAt, mem_readRange, mem_writeAt, mem_modifyAt,
    Nat.reduceAdd, Nat.reduceEqDiff, if_false]
  omega

/-- **When the driver stays inside the frame.** For every frame, of any length and any content, and
whatever lies behind it, every access is to one of its bytes, or of its padded copy, exactly when
the header length in it does not reach past them. -/
theorem xmit_inside_iff : XmitInside ipFastCsum allocOk skb behind ↔
    14 + 4 * ihl (shortpkt skb) ≤ max skb.length 60 := by
  have hlen : (frameData skb).length = max skb.length 60 := by
    rw [frameData_eq, length_shortpkt]
  have hcopy : ∀ mem, Inside (max skb.length 60) (readRange 0 (frameData skb).length) mem := by
    intro mem
    rw [inside_readRange, hlen, Nat.zero_add]
    exact .inr (Nat.le_refl _)
  have hihl : (placed (frameData skb) behind 14).toNat % 16 = ihl (shortpkt skb) := by
    rw [ihl_of_holds holds_placed (by omega), frameData_eq]
  rw [XmitInside, osStartXmitAt, inside_bind, inside_rewriteHeaderAt (Nat.le_max_right ..), hihl,
    and_iff_left]
  split
  · exact inside_bind.2 ⟨hcopy _, inside_pure⟩
  · exact inside_pure

/-! ## The bytes that arrive -/

/-- `ip_fast_csum` looks only at as many words as it is told. -/
def ReadsHeader (ipFastCsum : List UInt8 → Nat → UInt16) : Prop :=
  ∀ bytes n, ipFastCsum (bytes.take (4 * n)) n = ipFastCsum bytes n

/-- Where the header lies in the buffer, what is written is what the driver does to the bytes. -/
theorem holds_rewriteHeaderAt (hcsum : ReadsHeader ipFastCsum) (h : Holds mem 0 data)
    (hlen : 60 ≤ data.length) (hin : 14 + 4 * ihl data ≤ data.length) :
    Holds (rewriteHeaderAt ipFastCsum mem).mem 0 (rewriteHeader ipFastCsum data) := by
  have hlen' : (setCheck 0 (toggle data)).length = data.length := by
    rw [length_setCheck, length_toggle]
  have hihl : ihl (setCheck 0 (toggle data)) = ihl data := by rw [ihl_setCheck, ihl_toggle]
  generalize hmem : (writeAt (14 + 10 + 1) 0 (writeAt (14 + 10) 0 (modifyAt (14 + 16 + 2) (· ^^^ 1)
    (modifyAt (14 + 12 + 2) (· ^^^ 1) mem).mem).mem).mem).mem = mem₀
  have hzero : Holds mem₀ 0 (setCheck 0 (toggle data)) :=
    hmem ▸ h.modifyAt.modifyAt.writeAt.writeAt
  have hfirst : (mem₀ 14).toNat % 16 = ihl data :=
    (ihl_of_holds hzero (by omega)).trans hihl
  have hheader : ipFastCsum (readRange 14 (4 * ((mem₀ 14).toNat % 16)) mem₀).value
      ((mem₀ 14).toNat % 16) =
      ipFastCsum ((setCheck 0 (toggle data)).drop 14) (ihl (setCheck 0 (toggle data))) := by
    rw [hfirst, hzero.readRange (by omega), hcsum, hihl]
  simp only [rewriteHeaderAt, mem_bind, mem_readRange, mem_readAt, value_readAt, hmem, hheader]
  exact hzero.writeAt.writeAt

/-- When it stays inside the frame, the driver does what it does to the bytes of the frame. -/
theorem osStartXmitAt_eq (hcsum : ReadsHeader ipFastCsum) (dev : NetDevice)
    (hin : XmitInside ipFastCsum allocOk skb behind) :
    (osStartXmitAt ipFastCsum allocOk (frameData skb).length
      (placed (frameData skb) behind)).value =
        (osStartXmit ipFastCsum allocOk skb dev).map (·.2) := by
  have hin' := xmit_inside_iff.1 hin
  have hplaced : Holds (placed (shortpkt skb) behind) 0 (shortpkt skb) := holds_placed
  have hholds := holds_rewriteHeaderAt hcsum hplaced le_length_shortpkt
    (by rwa [length_shortpkt])
  rw [frameData_eq]
  cases allocOk with
  | false => rfl
  | true =>
    have hlen : (rewriteHeader ipFastCsum (shortpkt skb)).length = (shortpkt skb).length :=
      length_rewriteHeader _
    have hle : 0 + (shortpkt skb).length ≤ (rewriteHeader ipFastCsum (shortpkt skb)).length := by
      rw [hlen, Nat.zero_add]
    have hcopy := hholds.readRange hle
    rw [osStartXmit_eq, osStartXmitAt, value_bind]
    simp only [if_true, value_bind, value_pure, hcopy, List.drop_zero, Option.map_some]
    rw [← hlen, List.take_length]

/-- A frame whose header claims fifteen words. -/
def fifteenWords : List UInt8 := List.replicate 14 0 ++ [0x4f]

/-- The checksum of a frame with such a header is computed over bytes behind its copy. -/
theorem header_outside : ¬ ∀ (ipFastCsum : List UInt8 → Nat → UInt16) (allocOk : Bool)
    (skb : List UInt8) (behind : Mem), XmitInside ipFastCsum allocOk skb behind := by
  intro h
  have hread : 60 ∈ (osStartXmitAt rfcCsum true 60
      (placed (frameData fifteenWords) fun _ => 0)).accessed := by decide
  exact absurd (h rfcCsum true fifteenWords (fun _ => 0) 60 hread) (by decide)

end Eece4029
