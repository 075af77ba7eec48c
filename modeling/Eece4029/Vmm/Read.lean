import Eece4029.Vmm.Write

/-!
# The bounds of `IOCTL_READ`

`IOCTL_READ` compares `read_size` with `buddy_size(current_idx)` once, before it copies anything.
The two variables are set by other ioctls, unchecked, and the page they were set for may have been
freed since. `read_confined` says what a read does in every reachable state: it copies the whole
range or nothing, and only bytes of the one live page that `current_idx` is in.
-/

namespace Eece4029

open Transition Node

variable {S : Nat} {pool : Int → UInt8} {tr : List (Step Device Call)} {d d' : Device}
  {b p : Region} {k : Nat} {ch : UInt8} {c : Call}

/-! ## The loop -/

/-- The loop copies as many bytes as `read_size` says, and none where that is negative. -/
theorem length_readLoop (idx readSize : Int) :
    (readLoop pool idx readSize).length = readSize.toNat := by
  rw [readLoop, List.length_map, List.length_range]

/-- The byte number `k` of the loop is the one at `idx + k`. -/
theorem getElem?_readLoop {idx readSize : Int} :
    (readLoop pool idx readSize)[k]? = some ch ↔ (k : Int) < readSize ∧ ch = pool (idx + k) := by
  rw [readLoop, List.getElem?_map]
  rcases Int.lt_or_le k readSize with hlt | hle
  · rw [List.getElem?_range (by omega), Option.map_some, Option.some_inj, eq_comm]
    exact (and_iff_right hlt).symm
  · rw [List.getElem?_eq_none (by rw [List.length_range]; omega), Option.map_none]
    exact ⟨nofun, fun h => absurd h.1 (by omega)⟩

/-! ## One read -/

/-- The range that a read asks for lies in a live page that `current_idx` is in. -/
def Device.Readable (d : Device) : Prop :=
  ∃ p ∈ d.buddyHead.pages, p.Has d.currentIdx ∧
    ∀ a, d.currentIdx ≤ a → a < d.currentIdx + d.readSize → p.Has a

/-- At an index in a page the range is readable when it ends before the page does. -/
theorem Device.readable_iff (ht : BuddyTree b d.buddyHead) (hp : p ∈ d.buddyHead.pages)
    (hi : p.Has d.currentIdx) : d.Readable ↔ d.readSize ≤ d.room p := by
  refine ⟨?_, ?_⟩
  · rintro ⟨q, hq, hqi, hall⟩
    rw [ht.page_of_has hq hp hqi hi] at hall
    by_contra hlong
    -- the first address past the page is in the range
    have hend := hall (p.start + p.len)
    simp only [Device.room, Region.Has] at hlong hend hi
    omega
  · intro hle
    refine ⟨p, hp, hi, fun a ha ha' => ?_⟩
    simp only [Device.room, Region.Has] at hle hi ⊢
    omega

/-- At an index in a page a read copies its whole range when that ends before the page does, and it
is refused otherwise. -/
theorem Device.read_of_has (ht : BuddyTree b d.buddyHead) (hp : p ∈ d.buddyHead.pages)
    (hi : p.Has d.currentIdx) : d.read = if d.room p < d.readSize then (-1, [])
      else ((d.readSize.toNat : Int), readLoop d.buddyPool d.currentIdx d.readSize) := by
  unfold Device.read
  rw [ht.size_of_has hp hi]
  simp only [length_readLoop]
  rfl

/-- At an index in no page a read is refused, unless `read_size` is negative. -/
theorem Device.read_of_not_has (ht : BuddyTree b d.buddyHead)
    (hno : ∀ p ∈ d.buddyHead.pages, ¬ p.Has d.currentIdx) :
    d.read = if 0 ≤ d.readSize then (-1, []) else (0, []) := by
  unfold Device.read
  rw [ht.size_of_not_has hno]
  rcases Int.lt_or_le d.readSize 0 with hneg | h0
  · have hnil : readLoop d.buddyPool d.currentIdx d.readSize = [] :=
      List.eq_nil_of_length_eq_zero (by rw [length_readLoop]; omega)
    rw [if_neg (by omega), if_neg (by omega), hnil]
    rfl
  · rw [if_pos (by omega), if_pos h0]

/-- What `IOCTL_READ` does in the state `d`: which bytes it copies, what it returns, and what it
leaves. -/
structure ReadSpec (d : Device) : Prop where
  onePage : ∀ p ∈ d.buddyHead.pages, ∀ q ∈ d.buddyHead.pages,
    p.Has d.currentIdx → q.Has d.currentIdx → p = q
  confined : ∀ (k : Nat) ch, d.read.2[k]? = some ch →
    d.InCurrentPage (d.currentIdx + k) ∧ ch = d.buddyPool (d.currentIdx + k)
  copied : 0 ≤ d.readSize → d.Readable →
    d.read.1 = d.readSize ∧ (d.read.2.length : Int) = d.readSize
  refused : 0 ≤ d.readSize → ¬ d.Readable → d.read = (-1, [])
  negative : d.readSize < 0 → d.read.2 = []
  unchanged : ∀ c d', c.ioctl = .read → DeviceStep d c d' →
    c.rt = d.read.1 ∧ c.out = d.read.2 ∧ d'.buddyHead = d.buddyHead ∧ d'.buddyPool = d.buddyPool

/-- The step of a read returns the result of `Device.read` and leaves the tree and the pool. -/
theorem DeviceStep.read (hc : c.ioctl = .read) (h : DeviceStep d c d') :
    c.rt = d.read.1 ∧ c.out = d.read.2 ∧ d'.buddyHead = d.buddyHead ∧
      d'.buddyPool = d.buddyPool := by
  obtain ⟨ioctl, rt, out⟩ := c
  subst hc
  obtain ⟨hout, hrt, rfl⟩ := h
  exact ⟨hrt, hout, rfl, rfl⟩

/-- A read at an index in a page. -/
theorem Device.readSpec_of_has (ht : BuddyTree b d.buddyHead) (hp : p ∈ d.buddyHead.pages)
    (hi : p.Has d.currentIdx) : ReadSpec d := by
  have hread := Device.read_of_has ht hp hi
  have hreadable := Device.readable_iff ht hp hi
  have hroom : 0 < d.room p := Int.sub_pos_of_lt hi.2
  refine ⟨fun p hp q hq hpi hqi => ht.page_of_has hp hq hpi hqi, ?_, ?_, ?_, ?_,
    fun c d' hc hs => hs.read hc⟩
  · intro k ch hk
    rw [hread] at hk
    split at hk
    · cases hk
    · next hle =>
      obtain ⟨hk, hch⟩ := getElem?_readLoop.1 hk
      refine ⟨(Device.inCurrentPage_iff ht hp hi).2 ?_, hch⟩
      simp only [Device.room, Region.Has] at hle hi ⊢
      omega
  · intro h0 hr
    rw [hread, if_neg (Int.not_lt.2 (hreadable.1 hr)), length_readLoop]
    exact ⟨Int.toNat_of_nonneg h0, Int.toNat_of_nonneg h0⟩
  · intro _ hr
    rw [hread, if_pos (Int.not_le.1 fun hle => hr (hreadable.2 hle))]
  · intro hneg
    rw [hread, if_neg (by omega)]
    exact List.eq_nil_of_length_eq_zero (by rw [length_readLoop]; omega)

/-- A read at an index in no page. -/
theorem Device.readSpec_of_not_has (ht : BuddyTree b d.buddyHead)
    (hno : ∀ p ∈ d.buddyHead.pages, ¬ p.Has d.currentIdx) : ReadSpec d := by
  have hread := Device.read_of_not_has ht hno
  have hnil : d.read.2 = [] := by
    rw [hread]
    split <;> rfl
  refine ⟨fun p hp q hq hpi _ => absurd hpi (hno p hp), ?_, ?_, ?_, fun _ => hnil,
    fun c d' hc hs => hs.read hc⟩
  · intro k ch hk
    rw [hnil] at hk
    cases hk
  · rintro - ⟨p, hp, hi, -⟩
    exact absurd hi (hno p hp)
  · intro h0 _
    rw [hread, if_pos h0]

/-- **A read is confined to the live page of `current_idx`** in every reachable state. -/
theorem read_confined (h : DeviceRun S pool tr d) : ReadSpec d := by
  by_cases hin : ∃ p ∈ d.buddyHead.pages, p.Has d.currentIdx
  · obtain ⟨p, hp, hi⟩ := hin
    exact Device.readSpec_of_has h.tree hp hi
  · exact Device.readSpec_of_not_has h.tree fun p hp hi => hin ⟨p, hp, hi⟩

/-- Two bytes are to be read, the first ones of "abc". -/
def readingDevice : Device := { storedDevice with readSize := 2 }

theorem read_confined_reading : readingDevice.read = (2, [97, 98]) ∧ ReadSpec readingDevice := by
  obtain ⟨tr, h⟩ := storedDevice_run
  have hsize : DeviceStep storedDevice ⟨.setReadSize 2, 0, []⟩ readingDevice := ⟨rfl, rfl, rfl⟩
  exact ⟨by decide, read_confined (h.snoc hsize)⟩

end Eece4029
