import Eece4029.Buddy.Runs
import Mathlib.Logic.Function.Basic

/-!
# The VMM device

`hw5_vmm/vmm.c` puts the allocator behind a character device. The driver keeps one buddy tree, one
pool and two variables that the ioctls of a read or write share, `current_idx` and `read_size`.
`buddy_pool` is a pointer into kernel memory, so `Device.buddyPool` gives a byte at every offset
from it, also before and past the pool: a store outside the pool is a store that the model shows.
The bytes of the pool are not initialised, so a run starts from arbitrary ones. `printk` is left
out, and so is a user pointer that does not point at a NUL-terminated string or at enough space for
a read.
-/

namespace Eece4029

open Transition Node

/-! ## The state and user memory -/

/-- The variables of the driver. -/
structure Device where
  buddyHead : Node
  buddyPool : Int → UInt8
  currentIdx : Int
  readSize : Int

/-- The device after `init_mod` with the module parameter `pool_size`. -/
def Device.init (poolSize : Nat) (pool : Int → UInt8) : Device :=
  ⟨Node.init poolSize, pool, 0, 0⟩

/-- The characters of a NUL-terminated string in user memory. -/
structure CString where
  chars : List UInt8
  noNul : (0 : UInt8) ∉ chars

/-- The bytes from the pointer that `IOCTL_WRITE` is given up to the terminator. -/
def CString.user (s : CString) : List UInt8 := s.chars ++ [0]

/-! ## Writing -/

/-- The loop of `IOCTL_WRITE` over the bytes from user space: its result and the stores into the
pool that it makes, in order. -/
def writeLoop (idx size : Int) : List UInt8 → Nat → Int × List (Int × UInt8)
  | [], bytes => (bytes, [])
  | ch :: user, bytes =>
    if ch = 0 then (bytes, [])
    -- the test is `bytes > size`, so the loop makes `size + 1` stores before it stops here
    else if size < bytes then (-1, [])
    else
      let (rt, stores) := writeLoop idx size user (bytes + 1)
      (rt, (idx + bytes, ch) :: stores)

/-- The pool after a list of stores. -/
def storeAll (pool : Int → UInt8) (stores : List (Int × UInt8)) : Int → UInt8 :=
  stores.foldl (fun pool x => Function.update pool x.1 x.2) pool

/-- The result and the stores of `IOCTL_WRITE`. -/
def Device.writeStores (d : Device) (s : CString) : Int × List (Int × UInt8) :=
  writeLoop d.currentIdx (buddySize d.buddyHead d.currentIdx) s.user 0

/-- `IOCTL_WRITE`. -/
def Device.write (d : Device) (s : CString) : Int × Device :=
  let (rt, stores) := d.writeStores s
  (rt, { d with buddyPool := storeAll d.buddyPool stores })

/-! ## Reading -/

/-- The bytes that the loop of `IOCTL_READ` copies to user space. -/
def readLoop (pool : Int → UInt8) (idx readSize : Int) : List UInt8 :=
  (List.range readSize.toNat).map fun bytes : Nat => pool (idx + bytes)

/-- `IOCTL_READ`: its result and the bytes it copies to user space. -/
def Device.read (d : Device) : Int × List UInt8 :=
  if buddySize d.buddyHead d.currentIdx < d.readSize then (-1, [])
  else
    let out := readLoop d.buddyPool d.currentIdx d.readSize
    (out.length, out)

/-! ## The ioctls -/

/-- `ioctl_num` with its parameter; `unknown` is every other number. -/
inductive Ioctl
  | alloc (size : Int)
  | free (idx : Int)
  | setIdx (idx : Int)
  | setReadSize (size : Int)
  | write (s : CString)
  | read
  | unknown

/-- A returned ioctl: its result and the bytes it copied to user space. -/
structure Call where
  ioctl : Ioctl
  rt : Int
  out : List UInt8

/-- The step of the device: the call returns its result and leaves the second state. -/
def DeviceStep (d : Device) (c : Call) (d' : Device) : Prop :=
  match c.ioctl with
  | .alloc size => c.out = [] ∧ ∃ t, AllocReturns d.buddyHead size c.rt t ∧
      d' = { d with buddyHead := t }
  | .free idx => c.out = [] ∧ c.rt = (buddyFree d.buddyHead idx).1 ∧
      d' = { d with buddyHead := (buddyFree d.buddyHead idx).2 }
  | .setIdx idx => c.out = [] ∧ c.rt = 0 ∧ d' = { d with currentIdx := idx }
  | .setReadSize size => c.out = [] ∧ c.rt = 0 ∧ d' = { d with readSize := size }
  | .write s => c.out = [] ∧ c.rt = (d.write s).1 ∧ d' = (d.write s).2
  | .read => c.out = d.read.2 ∧ c.rt = d.read.1 ∧ d' = d
  | .unknown => c.out = [] ∧ c.rt = 0 ∧ d' = d

/-- `tr` is a run of ioctls from the loaded module to the state `d`. -/
abbrev DeviceRun (poolSize : Nat) (pool : Int → UInt8) (tr : List (Step Device Call))
    (d : Device) : Prop :=
  Run DeviceStep (Device.init poolSize pool) tr d

/-! ## The allocator inside the device -/

variable {S : Nat} {pool : Int → UInt8} {tr : List (Step Device Call)} {d d' : Device} {c : Call}

/-- The call of the allocator that an ioctl makes. -/
def Call.event (c : Call) : Option Event :=
  match c.ioctl with
  | .alloc size => some (.alloc size c.rt)
  | .free idx => some (.free idx c.rt)
  | _ => none

/-- An ioctl is a step of the allocator, or it leaves the tree alone. -/
theorem DeviceStep.buddyHead (h : DeviceStep d c d') :
    (c.event = none ∧ d'.buddyHead = d.buddyHead) ∨
      ∃ e, c.event = some e ∧ BuddyStep d.buddyHead e d'.buddyHead := by
  obtain ⟨ioctl, rt, out⟩ := c
  cases ioctl with
  | alloc size =>
    obtain ⟨-, t, ht, rfl⟩ := h
    exact .inr ⟨_, rfl, ht⟩
  | free idx =>
    obtain ⟨-, hrt, rfl⟩ := h
    exact .inr ⟨_, rfl, Prod.ext hrt.symm rfl⟩
  | setIdx | setReadSize | write | read | unknown =>
    obtain ⟨-, -, rfl⟩ := h
    exact .inl ⟨rfl, rfl⟩

/-- **The tree of the device is the tree of a run of the allocator**, and its leaves are the live
pages of that run. -/
theorem DeviceRun.buddyRun (h : DeviceRun S pool tr d) :
    ∃ btr, BuddyRun S btr d.buddyHead ∧
      btr.map (·.label) = tr.filterMap (·.label.event) ∧
      ∀ p, p ∈ d.buddyHead.pages ↔ p ∈ livePages btr := by
  obtain ⟨btr, hb, hlabel⟩ := h.simulates Device.buddyHead (·.label.event)
    fun s l s' _ hstep => DeviceStep.buddyHead hstep
  exact ⟨btr, hb, hlabel, fun p => (buddy_run_safe hb).leaves.mem_iff⟩

/-- The tree of the device satisfies the invariant of the allocator. -/
theorem DeviceRun.tree (h : DeviceRun S pool tr d) : BuddyTree ⟨0, S⟩ d.buddyHead := by
  obtain ⟨btr, hb, -⟩ := h.buddyRun
  exact .of_run hb

end Eece4029
