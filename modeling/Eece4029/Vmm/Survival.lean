import Eece4029.Vmm.Read

/-!
# Stored data survives allocator activity

`write_mem` and `read_mem` of `hw5_vmm/vmm_test.c`, called without another ioctl in between their
own. What a `write_mem` has stored in a page stays there while the page is not freed and nothing is
written: an allocation or a free of another page splits and merges nodes of the tree, but it keeps
the page with its bounds, so `buddy_size` of an index inside the page still finds it.
`data_survives` is that statement for any number of ioctls between the `write_mem` and the
`read_mem`.
-/

namespace Eece4029

open Transition Node

variable {S : Nat} {pool : Int → UInt8} {tr : List (Step Device Call)} {d d' : Device}
  {b p : Region} {s : CString} {idx a : Int} {c : Call} {e : Event} {ps ps' : List Region}

/-! ## The calls of the test program -/

/-- `IOCTL_SET_IDX`. -/
def Device.setIdx (d : Device) (idx : Int) : Int × Device := (0, { d with currentIdx := idx })

/-- `IOCTL_SET_READ_SIZE`. -/
def Device.setReadSize (d : Device) (size : Int) : Int × Device := (0, { d with readSize := size })

/-- `write_mem`: set the page, then execute the write. -/
def Device.writeMem (d : Device) (idx : Int) (buf : CString) : Int × Device :=
  let (rt, d) := d.setIdx idx
  if rt < 0 then (rt, d) else d.write buf

/-- `read_mem`: set the page and the number of bytes, then execute the read. The result, the bytes
that are copied to the buffer, and the device. -/
def Device.readMem (d : Device) (idx size : Int) : (Int × List UInt8) × Device :=
  let (rt, d) := d.setIdx idx
  if rt < 0 then ((rt, []), d)
  else
    let (rt, d) := d.setReadSize size
    if rt < 0 then ((rt, []), d) else (d.read, d)

/-- A `write_mem` is a run of the two ioctls it makes. -/
theorem Device.writeMem_run (d : Device) (idx : Int) (buf : CString) :
    ∃ tr, Run DeviceStep d tr (d.writeMem idx buf).2 ∧
      tr.map (·.label) = [⟨.setIdx idx, 0, []⟩, ⟨.write buf, (d.writeMem idx buf).1, []⟩] := by
  have h₁ : DeviceStep d ⟨.setIdx idx, 0, []⟩ (d.setIdx idx).2 := ⟨rfl, rfl, rfl⟩
  have h₂ : DeviceStep (d.setIdx idx).2 ⟨.write buf, (d.writeMem idx buf).1, []⟩
      (d.writeMem idx buf).2 := ⟨rfl, rfl, rfl⟩
  exact ⟨_, (Run.nil.snoc h₁).snoc h₂, rfl⟩

/-- A `read_mem` is a run of the three ioctls it makes. -/
theorem Device.readMem_run (d : Device) (idx size : Int) :
    ∃ tr, Run DeviceStep d tr (d.readMem idx size).2 ∧
      tr.map (·.label) = [⟨.setIdx idx, 0, []⟩, ⟨.setReadSize size, 0, []⟩,
        ⟨.read, (d.readMem idx size).1.1, (d.readMem idx size).1.2⟩] := by
  have h₁ : DeviceStep d ⟨.setIdx idx, 0, []⟩ (d.setIdx idx).2 := ⟨rfl, rfl, rfl⟩
  have h₂ : DeviceStep (d.setIdx idx).2 ⟨.setReadSize size, 0, []⟩ (d.readMem idx size).2 :=
    ⟨rfl, rfl, rfl⟩
  have h₃ : DeviceStep (d.readMem idx size).2
      ⟨.read, (d.readMem idx size).1.1, (d.readMem idx size).1.2⟩ (d.readMem idx size).2 :=
    ⟨rfl, rfl, rfl⟩
  exact ⟨_, ((Run.nil.snoc h₁).snoc h₂).snoc h₃, rfl⟩

/-! ## What keeps a page and its bytes -/

/-- The ioctl neither frees the page nor writes. -/
def Ioctl.Keeps (p : Region) : Ioctl → Prop
  | .free idx => idx ≠ p.start
  | .write _ => False
  | _ => True

/-- A call of the allocator keeps every page but the one it frees. -/
theorem PageEffect.mem (h : PageEffect e ps ps') (hp : p ∈ ps)
    (he : ∀ rt, e ≠ .free p.start rt) : p ∈ ps' := by
  cases h with
  | @made q size lo hi hsize =>
    rcases List.mem_append.1 hp with hp | hp
    · exact List.mem_append_left _ hp
    · exact List.mem_append_right _ (List.mem_cons_of_mem q hp)
  | noSpace => exact hp
  | @freed q lo hi =>
    refine (List.mem_cons.1 (List.perm_middle.mem_iff.1 hp)).resolve_left ?_
    rintro rfl
    exact he 0 rfl
  | notFound => exact hp

/-- The page is live and the pool has the bytes `pool`. -/
structure PageKept (b p : Region) (pool : Int → UInt8) (d : Device) : Prop where
  tree : BuddyTree b d.buddyHead
  live : p ∈ d.buddyHead.pages
  bytes : d.buddyPool = pool

/-- An ioctl that neither frees the page nor writes keeps the page and all bytes. -/
theorem PageKept.step (h : PageKept b p pool d) (hk : c.ioctl.Keeps p)
    (hs : DeviceStep d c d') : PageKept b p pool d' := by
  have hbytes : d'.buddyPool = d.buddyPool := by
    obtain ⟨ioctl, rt, out⟩ := c
    cases ioctl with
    | alloc size =>
      obtain ⟨-, t, -, rfl⟩ := hs
      rfl
    | write s => exact hk.elim
    | free | setIdx | setReadSize | read | unknown =>
      obtain ⟨-, -, rfl⟩ := hs
      rfl
  rcases hs.buddyHead with ⟨-, heq⟩ | ⟨e, hce, hb⟩
  · exact ⟨heq ▸ h.tree, heq ▸ h.live, hbytes.trans h.bytes⟩
  · obtain ⟨ht', heff⟩ := h.tree.step hb
    refine ⟨ht', heff.mem h.live ?_, hbytes.trans h.bytes⟩
    rintro rt rfl
    obtain ⟨ioctl, rt', out⟩ := c
    cases ioctl with
    | free i =>
      cases hce
      exact hk rfl
    | alloc | setIdx | setReadSize | write | read | unknown => cases hce

/-- A run of such ioctls keeps the page and all bytes. -/
theorem PageKept.run (h : PageKept b p pool d) (hr : Run DeviceStep d tr d')
    (hk : ∀ x ∈ tr, x.label.ioctl.Keeps p) : PageKept b p pool d' :=
  (hr.inv_where (C := fun _ c => c.ioctl.Keeps p) h (fun _ _ _ hi hc hs => hi.step hc hs) hk).1

/-! ## Writing and reading back -/

/-- A `write_mem` of a string that fits stores it and keeps the page. -/
theorem PageKept.writeMem (ht : BuddyTree b d.buddyHead) (hp : p ∈ d.buddyHead.pages)
    (hi : p.Has idx) (hfit : idx + s.chars.length ≤ p.start + p.len) :
    (d.writeMem idx s).1 = s.chars.length ∧
      PageKept b p (d.writeMem idx s).2.buddyPool (d.writeMem idx s).2 ∧
      ∀ (k : Nat) ch, s.chars[k]? = some ch → (d.writeMem idx s).2.buddyPool (idx + k) = ch := by
  obtain ⟨hrt, hpool⟩ := Device.write_fits (d := { d with currentIdx := idx }) ht hp hi (s := s)
    (by simp only [Device.room]; omega)
  refine ⟨hrt, ⟨ht, hp, rfl⟩, ?_⟩
  intro k ch hk
  refine (hpool (idx + k)).trans ?_
  rw [if_pos (Int.le_add_of_nonneg_right (Int.natCast_nonneg k)),
    show (idx + k - idx : Int).toNat = k by omega, hk]
  rfl

/-- A `read_mem` inside the page returns the bytes of the pool. -/
theorem PageKept.readMem (h : PageKept b p pool d) (hi : p.Has idx) {m : Nat}
    (hfit : idx + m ≤ p.start + p.len) :
    (d.readMem idx m).1 = ((m : Int), (List.range m).map fun k : Nat => pool (idx + k)) := by
  have hread : (d.readMem idx m).1 =
      Device.read { d with currentIdx := idx, readSize := m } := rfl
  have hshort : ¬ p.start + p.len - idx < (m : Int) := by omega
  rw [hread, Device.read_of_has (d := { d with currentIdx := idx, readSize := m }) h.tree h.live hi,
    Device.room, if_neg hshort, h.bytes]
  rfl

/-- **Stored data survives allocator activity.** In every reachable state a `write_mem` of a string
that fits into a live page from its index on returns the length of the string; and after any ioctls
that neither free that page nor write, a `read_mem` of any part of it returns that part. -/
theorem data_survives (h : DeviceRun S pool tr d) (hp : p ∈ d.buddyHead.pages) (hi : p.Has idx)
    (hfit : idx + s.chars.length ≤ p.start + p.len) :
    (d.writeMem idx s).1 = s.chars.length ∧
      ∀ tr' d', Run DeviceStep (d.writeMem idx s).2 tr' d' →
        (∀ x ∈ tr', x.label.ioctl.Keeps p) → ∀ k m : Nat, 1 ≤ m → k + m ≤ s.chars.length →
          (d'.readMem (idx + k) m).1 = ((m : Int), (s.chars.drop k).take m) := by
  obtain ⟨hrt, hkept, hbytes⟩ := PageKept.writeMem h.tree hp hi hfit
  refine ⟨hrt, ?_⟩
  intro tr' d' hr hkeeps k m hm hkm
  have hik : p.Has (idx + k) := by
    simp only [Region.Has] at *
    omega
  rw [(hkept.run hr hkeeps).readMem hik (m := m) (by omega)]
  refine congrArg (Prod.mk _) (List.ext_getElem? ?_)
  intro j
  rcases Nat.lt_or_ge j m with hj | hj
  · have hlt : k + j < s.chars.length := by omega
    have hbyte := hbytes (k + j) _ (List.getElem?_eq_getElem hlt)
    rw [List.getElem?_take_of_lt hj, List.getElem?_drop, List.getElem?_eq_getElem hlt, ← hbyte]
    simp [hj, add_assoc]
  · rw [List.getElem?_eq_none (by simpa using hj), List.getElem?_eq_none (by simp; omega)]

/-- "ab" in the first of two pages, while the second one is freed. -/
theorem data_survives_twoPages : (twoPagesDevice.writeMem 0 ⟨[97, 98], by decide⟩).1 = 2 ∧
    ∃ d' : Device, d'.buddyHead = .split 0 4 (.alloc 0 2) (.free 2 2) ∧
      (d'.readMem 1 1).1 = (1, [98]) := by
  obtain ⟨tr, h⟩ := twoPagesDevice_run
  have hi : Region.Has ⟨0, 2⟩ 0 := by decide
  obtain ⟨hrt, hsurvives⟩ := data_survives h (s := ⟨[97, 98], by decide⟩) (by decide) hi
    (by decide)
  have hfree : DeviceStep (twoPagesDevice.writeMem 0 ⟨[97, 98], by decide⟩).2 ⟨.free 2, 0, []⟩
      { (twoPagesDevice.writeMem 0 ⟨[97, 98], by decide⟩).2 with
        buddyHead := .split 0 4 (.alloc 0 2) (.free 2 2) } := ⟨rfl, rfl, rfl⟩
  refine ⟨hrt, _, ?_, hsurvives _ _ (Run.nil.snoc hfree) ?_ 1 1 (by decide) (by decide)⟩
  · rfl
  · simp [Ioctl.Keeps]

end Eece4029
