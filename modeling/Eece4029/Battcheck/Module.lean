import Eece4029.Battcheck.Battery
import Eece4029.Lib.CircularList
import Eece4029.Lib.Records
import Eece4029.Lib.Run
import Mathlib.Data.Fintype.Basic

/-!
# Loading, reading and unloading battcheck

`init_battcheck` makes the list of the batteries: `find_batteries` walks the devices on the system
bus, and for each one with a battery it makes a `struct acpi_battery` and puts it at the end. Then
it makes the entry `/proc/battcheck` and starts the thread `check_thread`. From there on the thread
goes around the list, and anybody may call `read_proc`, which prints a line with the percent of
every battery, until `exit_battcheck` stops the thread, takes the entry back and frees the list.
Nothing is locked.

Here is all of this at the level of the pointers: the blocks of `struct acpi_battery` in a heap,
linked by the kernel's `struct list_head`, and one step for everything that happens between two
places where another thread may notice it. The body of the loop of `check_thread` is one step, since
`percent` is the only field that others read, and it is assigned once. What the kernel does is in
the labels: whether `kzalloc`, `create_proc_read_entry` and `kthread_run` succeed and what the
firmware answers. `kthread_stop` returns when the thread is gone, and `remove_proc_entry` when no
call of `read_proc` is left.
-/

namespace Eece4029

open Transition Records

/-- The blocks of `struct acpi_battery`. -/
abbrev BatteryHeap := Heap (ListNode AcpiBattery)

/-- `acpi_battery_list`, the first block. It is a variable and never freed. -/
def acpiBatteryList : Nat := 0

/-- A child of the system bus, and what ACPI answers when `find_batteries` comes to it: whether
`acpi_bus_get_device` finds a device, what `acpi_bus_get_status` finds out about the device
(nothing, or whether it has a battery), the name if `acpi_get_name` makes one, and what `_BIF`
answers. -/
structure AcpiChild where
  device : Bool
  status : Option Bool
  name : Option String
  info : Evaluation

/-- What `%s` prints for the name. -/
def AcpiChild.text (c : AcpiChild) : String := c.name.getD "(null)"

/-- Where `check_thread` is: before its `kzalloc`, at the test of the outer loop, and in the inner
loop with its variables `battery` and `delay`. -/
inductive CheckPc
  | start
  | test
  | each (battery : Ptr) (delay : Nat)
deriving DecidableEq

/-- `ts`: not assigned, the error of `kthread_run`, a thread that runs, and one that a trap has
killed or that has returned. -/
inductive Task
  | none
  | error
  | running (pc : CheckPc)
  | trapped
  | ended
deriving DecidableEq

/-- A call of `read_proc` in its loop: `battery` and the string in `buf`. -/
structure Reader where
  battery : Ptr
  buf : List Char
deriving DecidableEq

/-- Where `init_battcheck` and `exit_battcheck` are: before `init_battcheck`; in `find_batteries`,
with the children that are left and whether `device` was assigned; after it; after
`create_proc_read_entry`; after `init_battcheck` returned `0` or a negative value; in
`kthread_stop`, after it, and in the loop with its variables `battery` and `tmp`; after
`exit_battcheck`. -/
inductive BattcheckPc
  | init
  | find (rest : List AcpiChild) (device : Bool)
  | found
  | proc
  | loaded
  | failed (status : Int)
  | stopping
  | stopped
  | freeing (battery tmp : Ptr)
  | exited

/-- The module with the calls of `read_proc` under way. `names` are the buffers of the names that
`acpi_get_name` has made. -/
structure BattcheckModule (ρ : Type) where
  pc : BattcheckPc
  heap : BatteryHeap
  names : Nat
  proc : Bool
  task : Task
  shouldStop : Bool
  reader : ρ → Option Reader
  crashed : Option Stop

/-- The steps: of `init_battcheck`, of `exit_battcheck`, of `check_thread`, which reports, and of
the call `r` of `read_proc`, which returns a text. The `Bool` is whether a call of the kernel
succeeds. -/
inductive BattcheckLabel (ρ : Type)
  | findBatteries
  | findChild (ok : Bool)
  | createProc (ok : Bool)
  | kthreadRun (ok : Bool)
  | kthreadStop
  | kthreadStopped
  | removeProc
  | freeBattery
  | threadStart (ok : Bool)
  | threadTest
  | threadCheck (eval : Evaluation) (reports : List Report)
  | threadTimeout (delay : Nat)
  | read (r : ρ) (offset : Int) (ok : Bool)
  | readBattery (r : ρ)
  | readEnd (r : ρ) (text : List Char)
deriving DecidableEq

namespace BattcheckModule

variable {ρ : Type}

/-- The module before `init_battcheck`: its variables are zero. -/
def init : BattcheckModule ρ where
  pc := .init
  heap := (Heap.empty.malloc ⟨.zeroed "", none, none⟩).2
  names := 0
  proc := false
  task := .none
  shouldStop := false
  reader := fun _ => none
  crashed := none

/-! ## init_battcheck -/

/-- `ENOMEM`. -/
def ENOMEM : Int := 12

/-- `INIT_LIST_HEAD` in `init_battcheck`, and `find_batteries` up to its loop. There is no bus when
`\_SB_` has no handle. -/
def findBatteries (bus : Option (List AcpiChild)) (s : BattcheckModule ρ) :
    Except Stop (BattcheckModule ρ) := do
  let heap ← initListHead s.heap acpiBatteryList
  match bus with
  | none => return { s with heap := heap, pc := .failed (-1) }
  | some children => return { s with heap := heap, pc := .find children false }

/-- A battery is made and put into the list. -/
def addBattery (s : BattcheckModule ρ) (c : AcpiChild) : Except Stop (BattcheckModule ρ) := do
  let (battery, heap) := s.heap.malloc ⟨.found c.text c.info, none, none⟩
  let heap ← initListHead heap battery
  let heap ← listAddTail heap battery acpiBatteryList
  return { s with heap := heap, names := s.names + if c.name.isSome then 1 else 0 }

/-- The body of the loop of `find_batteries`. -/
def findChild (s : BattcheckModule ρ) (c : AcpiChild) (rest : List AcpiChild) (device ok : Bool) :
    Except Stop (BattcheckModule ρ) :=
  if device || c.device then
    match c.status with
    | none => .ok { s with pc := .failed (-ENODEV) }
    | some false => .ok { s with pc := .find rest true }
    | some true =>
      if ok then do
        let s ← s.addBattery c
        return { s with pc := .find rest true }
      else .ok { s with pc := .failed (-ENOMEM) }
  else .error .unassigned

/-! ## check_thread -/

/-- The loop variable of a `list_for_each_entry` at its start. -/
def firstBattery (heap : BatteryHeap) : Except Stop Ptr := do
  let c ← heap.load (some acpiBatteryList)
  return c.next

/-- A scratch block for the loop variable, which then points to a battery. -/
def kzalloc (heap : BatteryHeap) (ok : Bool) : BatteryHeap :=
  if ok then (heap.malloc ⟨.zeroed "", none, none⟩).2 else heap

/-- `check_thread` up to its loop. A thread that is stopped before it runs does not call it. -/
def threadStart (s : BattcheckModule ρ) (ok : Bool) : BattcheckModule ρ :=
  if s.shouldStop then
    { s with task := .ended }
  else
    { s with heap := kzalloc s.heap ok, task := .running .test }

/-- The test of the outer loop and the start of the inner one. -/
def threadTest (s : BattcheckModule ρ) : Except Stop (BattcheckModule ρ) :=
  if s.shouldStop then
    .ok { s with task := .ended }
  else do
    let battery ← firstBattery s.heap
    return { s with task := .running (.each battery 1) }

/-- The body of the inner loop, with its reports. -/
def threadCheck (s : BattcheckModule ρ) (battery : Ptr) (delay : Nat) (eval : Evaluation) :
    Except Stop (List Report × BattcheckModule ρ) := do
  let c ← s.heap.load battery
  let check := checkBattery eval c.data
  let heap ← s.heap.store battery fun c => { c with data := check.battery }
  let c ← heap.load battery
  let pc := CheckPc.each c.next (if check.delay then 2 else delay)
  return (check.reports,
    { s with heap := heap, task := if check.trapped then .trapped else .running pc })

/-! ## read_proc -/

/-- What is printed about a battery. -/
def entry (b : AcpiBattery) : List Char :=
  b.name.toList ++ ": ".toList ++ decimal b.percent.toInt ++ "% | ".toList

variable [DecidableEq ρ]

/-- `read_proc` up to its loop. With an offset it returns at once. -/
def read (s : BattcheckModule ρ) (r : ρ) (offset : Int) (ok : Bool) :
    Except Stop (BattcheckModule ρ) :=
  if offset = 0 then do
    let heap := kzalloc s.heap ok
    let battery ← firstBattery heap
    return { s with
      heap := heap
      reader := Function.update s.reader r (some ⟨battery, " | ".toList⟩) }
  else .ok s

/-- The body of its loop. -/
def readBattery (s : BattcheckModule ρ) (r : ρ) (i : Reader) :
    Except Stop (BattcheckModule ρ) := do
  let c ← s.heap.load i.battery
  return { s with
    reader := Function.update s.reader r (some ⟨c.next, i.buf ++ entry c.data⟩) }

/-! ## exit_battcheck -/

/-- `kthread_stop` up to where it waits. There is no thread behind an error, and of one that has
died before the kernel keeps nothing. -/
def kthreadStop (s : BattcheckModule ρ) : Except Stop (BattcheckModule ρ) :=
  match s.task with
  | .none | .error => .error .null
  | .running _ => .ok { s with pc := .stopping, shouldStop := true }
  | .trapped | .ended => .error .freed

/-- `remove_proc_entry`, and the start of the `list_for_each_entry_safe`. -/
def removeProc (s : BattcheckModule ρ) : Except Stop (BattcheckModule ρ) := do
  let battery ← firstBattery s.heap
  let c ← s.heap.load battery
  return { s with pc := .freeing battery c.next, proc := false }

/-- The body of its loop. -/
def freeBattery (s : BattcheckModule ρ) (battery : Nat) (tmp : Ptr) :
    Except Stop (BattcheckModule ρ) := do
  let heap ← listDel s.heap battery
  let heap ← heap.free (some battery)
  let c ← heap.load tmp
  return { s with heap := heap, pc := .freeing tmp c.next }

/-! ## Runs -/

/-- What the step does, `none` where it cannot be taken. -/
def exec (bus : Option (List AcpiChild)) (s : BattcheckModule ρ) :
    BattcheckLabel ρ → Option (Except Stop (BattcheckModule ρ))
  | .findBatteries =>
    match s.pc with
    | .init => some (s.findBatteries bus)
    | _ => none
  | .findChild ok =>
    match s.pc with
    | .find [] _ => some (.ok { s with pc := .found })
    | .find (c :: rest) device => some (s.findChild c rest device ok)
    | _ => none
  | .createProc ok =>
    match s.pc with
    | .found => some (.ok { s with pc := .proc, proc := ok })
    | _ => none
  | .kthreadRun ok =>
    match s.pc with
    | .proc => some (.ok { s with
        pc := .loaded
        task := if ok then .running .start else .error })
    | _ => none
  | .kthreadStop =>
    match s.pc with
    | .loaded => some s.kthreadStop
    | _ => none
  | .kthreadStopped =>
    match s.pc, s.task with
    | .stopping, .ended | .stopping, .trapped => some (.ok { s with pc := .stopped })
    | _, _ => none
  | .removeProc =>
    match s.pc with
    | .stopped => some s.removeProc
    | _ => none
  | .freeBattery =>
    match s.pc with
    | .freeing (some battery) tmp =>
      if battery = acpiBatteryList then
        some (.ok { s with pc := .exited })
      else
        some (s.freeBattery battery tmp)
    | _ => none
  | .threadStart ok =>
    match s.task with
    | .running .start => some (.ok (s.threadStart ok))
    | _ => none
  | .threadTest =>
    match s.task with
    | .running .test => some s.threadTest
    | _ => none
  | .threadCheck eval reports =>
    match s.task with
    | .running (.each battery delay) =>
      if battery = some acpiBatteryList then
        none
      else
        match s.threadCheck battery delay eval with
        | .ok (reports', s') => if reports' = reports then some (.ok s') else none
        | .error e => some (.error e)
    | _ => none
  | .threadTimeout delay =>
    match s.task with
    | .running (.each battery delay') =>
      if battery = some acpiBatteryList ∧ delay' = delay then
        some (.ok { s with task := .running .test })
      else none
    | _ => none
  | .read r offset ok =>
    if s.proc ∧ s.reader r = none then some (s.read r offset ok) else none
  | .readBattery r =>
    match s.reader r with
    | some i => if i.battery = some acpiBatteryList then none else some (s.readBattery r i)
    | none => none
  | .readEnd r text =>
    match s.reader r with
    | some i =>
      if i.battery = some acpiBatteryList ∧ text = i.buf ++ "\n".toList then
        some (.ok { s with reader := Function.update s.reader r none })
      else none
    | none => none

/-- No call of `read_proc` is under way. -/
def Idle (s : BattcheckModule ρ) : Prop := ∀ r, s.reader r = none

/-- The step can be taken. -/
def Enabled (bus : Option (List AcpiChild)) (s : BattcheckModule ρ) (l : BattcheckLabel ρ) : Prop :=
  s.crashed = none ∧ (l = .removeProc → s.Idle) ∧ (s.exec bus l).isSome

/-- The module after the step. -/
def next (bus : Option (List AcpiChild)) (s : BattcheckModule ρ) (l : BattcheckLabel ρ) :
    BattcheckModule ρ :=
  match s.exec bus l with
  | some (.ok s') => s'
  | some (.error e) => { s with crashed := some e }
  | none => s

instance [Fintype ρ] (s : BattcheckModule ρ) : Decidable s.Idle :=
  inferInstanceAs (Decidable (∀ _, _))

instance [Fintype ρ] (bus : Option (List AcpiChild)) (s : BattcheckModule ρ)
    (l : BattcheckLabel ρ) : Decidable (s.Enabled bus l) := inferInstanceAs (Decidable (_ ∧ _ ∧ _))

end BattcheckModule

/-- A step. After a crash there are no more. -/
def BattcheckStep {ρ : Type} [DecidableEq ρ] (bus : Option (List AcpiChild))
    (s : BattcheckModule ρ) (l : BattcheckLabel ρ) (s' : BattcheckModule ρ) : Prop :=
  s.Enabled bus l ∧ s' = s.next bus l

/-- The steps of a run. -/
abbrev BattcheckTrace (ρ : Type) := List (Step (BattcheckModule ρ) (BattcheckLabel ρ))

/-- `tr` is a run of the module with the children `bus` of the system bus. -/
abbrev BattcheckRun {ρ : Type} [DecidableEq ρ] (bus : Option (List AcpiChild))
    (tr : BattcheckTrace ρ) (s : BattcheckModule ρ) : Prop :=
  Run (BattcheckStep bus) BattcheckModule.init tr s

end Eece4029
