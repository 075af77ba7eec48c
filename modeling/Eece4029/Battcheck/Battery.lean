import Mathlib.Data.BitVec
import Mathlib.Data.List.Basic

/-!
# A battery and one check of it

`hw2_battcheck/battcheck.c` keeps a `struct acpi_battery` for each battery. Its numbers come from
the firmware, through the two control methods `_BIF` and `_BST`: `extract_package` copies the
elements of the package that a method returned into the fields of a table, `-1` where an element is
no integer, and leaves the fields as they are from the first element on that the package does not
have. A method can fail, and nothing looks at what `get_battery_control_method` returns.

An `int` is a word of 32 bits; sums and products wrap around, and a division by zero or one that
overflows traps. The character arrays of `_BIF` are written and never read, so they are left out,
and so are `verbose` and the text of a report.
-/

namespace Eece4029

/-! ## Data -/

/-- `int`. -/
abbrev CInt := BitVec 32

/-- `STATE_DISCHARGING`. -/
def STATE_DISCHARGING : CInt := 1#32 <<< 0

/-- `STATE_CHARGING`. -/
def STATE_CHARGING : CInt := 1#32 <<< 1

/-- `struct acpi_battery`. -/
structure AcpiBattery where
  name : String
  -- `_BST`
  state : CInt
  presentRate : CInt
  remainingCapacity : CInt
  presentVoltage : CInt
  -- `_BIF`
  powerUnit : CInt
  designCapacity : CInt
  fullChargeCapacity : CInt
  technology : CInt
  designVoltage : CInt
  designCapacityWarning : CInt
  designCapacityLow : CInt
  capacityGranularity1 : CInt
  capacityGranularity2 : CInt
  -- used to detect changes
  lastState : CInt
  lastRemainingCapacity : CInt
  percent : CInt
deriving DecidableEq, Repr

/-- The struct as `kzalloc` and `acpi_get_name` leave it. -/
def AcpiBattery.zeroed (name : String) : AcpiBattery :=
  ⟨name, 0, 0, 0, 0, 0, 0, 0, 0, 0, 0, 0, 0, 0, 0, 0, 0⟩

/-- `struct acpi_offsets`: the field that an element goes into, a number or a character array. -/
inductive AcpiOffset
  | int (set : AcpiBattery → CInt → AcpiBattery)
  | string

/-- `bst_offsets`. -/
def bstOffsets : List AcpiOffset :=
  [.int fun b x => { b with state := x }, .int fun b x => { b with presentRate := x },
    .int fun b x => { b with remainingCapacity := x },
    .int fun b x => { b with presentVoltage := x }]

/-- `bif_offsets`. -/
def bifOffsets : List AcpiOffset :=
  [.int fun b x => { b with powerUnit := x }, .int fun b x => { b with designCapacity := x },
    .int fun b x => { b with fullChargeCapacity := x }, .int fun b x => { b with technology := x },
    .int fun b x => { b with designVoltage := x },
    .int fun b x => { b with designCapacityWarning := x },
    .int fun b x => { b with designCapacityLow := x },
    .int fun b x => { b with capacityGranularity1 := x },
    .int fun b x => { b with capacityGranularity2 := x }, .string, .string, .string, .string]

/-- An element of a package: an integer of 64 bits or something else. -/
inductive AcpiElement
  | integer (value : BitVec 64)
  | other
deriving DecidableEq, Repr

/-- An object that a control method returns. -/
inductive AcpiObject
  | package (elements : List AcpiElement)
  | other
deriving DecidableEq, Repr

/-- What the firmware answers: the method has no handle, its evaluation fails, or it returns an
object. -/
inductive Evaluation
  | noHandle
  | failure
  | object (o : AcpiObject)
deriving DecidableEq, Repr

/-! ## Control methods -/

/-- `EFAULT`. -/
def EFAULT : Int := 14

/-- `ENODEV`. -/
def ENODEV : Int := 19

/-- The value that goes into a field of type `int`. -/
def AcpiElement.toInt : AcpiElement → CInt
  | .integer value => value.setWidth 32
  | .other => -1

/-- The loop of `extract_package`. -/
def extractElements : AcpiBattery → List AcpiOffset → List AcpiElement → Int × AcpiBattery
  | b, [], _ => (0, b)
  | b, _ :: _, [] => (-EFAULT, b)
  | b, .int set :: offsets, e :: elements => extractElements (set b e.toInt) offsets elements
  | b, .string :: offsets, _ :: elements => extractElements b offsets elements

/-- `extract_package`. -/
def extractPackage (b : AcpiBattery) (package : AcpiObject) (offsets : List AcpiOffset) :
    Int × AcpiBattery :=
  match package with
  | .package elements => extractElements b offsets elements
  | .other => (-EFAULT, b)

/-- `get_battery_control_method`, where the firmware answers `eval`. -/
def getBatteryControlMethod (b : AcpiBattery) (eval : Evaluation) (offsets : List AcpiOffset) :
    Int × AcpiBattery :=
  match eval with
  | .noHandle => (-ENODEV, b)
  | .failure => (-ENODEV, b)
  | .object o => extractPackage b o offsets

/-- The battery that `find_batteries` puts into the list, where `_BIF` answers `eval`. -/
def AcpiBattery.found (name : String) (eval : Evaluation) : AcpiBattery :=
  (getBatteryControlMethod (zeroed name) eval bifOffsets).2

/-! ## The check -/

/-- What `check_thread` reports about a battery. -/
inductive Report
  | begunToDischarge
  | begunToCharge
  | fullyCharged
  | low
  | critical
deriving DecidableEq, Repr

/-- The percent remaining, `none` where the division traps. -/
def percentOf (remainingCapacity fullChargeCapacity : CInt) : Option CInt :=
  let dividend := remainingCapacity * 200 + fullChargeCapacity
  let divisor := fullChargeCapacity * 2
  if divisor = 0 ∨ (dividend = BitVec.intMin 32 ∧ divisor = -1) then none
  else some (dividend.sdiv divisor)

/-- What the body of the loop over the batteries does: it leaves the battery, reports, sets `delay`
to `2` or not, and traps or not. -/
structure Check where
  battery : AcpiBattery
  reports : List Report
  delay : Bool
  trapped : Bool
deriving DecidableEq, Repr

/-- The five conditions of `check_thread`, in order. -/
def AcpiBattery.reports (b : AcpiBattery) : List Report :=
  (if b.state &&& STATE_DISCHARGING ≠ 0 ∧ b.state ≠ b.lastState then [.begunToDischarge]
    else []) ++
  (if b.state &&& STATE_CHARGING ≠ 0 ∧ b.state ≠ b.lastState then [.begunToCharge] else []) ++
  (if b.lastState &&& STATE_CHARGING ≠ 0 ∧ ¬ b.state &&& STATE_CHARGING ≠ 0 ∧
    b.fullChargeCapacity.sle b.remainingCapacity then [.fullyCharged] else []) ++
  (if b.remainingCapacity.sle b.designCapacityWarning ∧
    b.designCapacityWarning.slt b.lastRemainingCapacity then [.low] else []) ++
  (if b.remainingCapacity.sle b.designCapacityLow then [.critical] else [])

/-- The battery with updated information, where `_BST` answers `eval`. -/
def AcpiBattery.sampled (b : AcpiBattery) (eval : Evaluation) : AcpiBattery :=
  (getBatteryControlMethod b eval bstOffsets).2

/-- The body of the loop over the batteries, where `_BST` answers `eval`. -/
def checkBattery (eval : Evaluation) (b : AcpiBattery) : Check :=
  let b := b.sampled eval
  match percentOf b.remainingCapacity b.fullChargeCapacity with
  | none => ⟨b, [], false, true⟩
  | some percent =>
    let b := { b with percent := percent }
    ⟨{ b with lastState := b.state, lastRemainingCapacity := b.remainingCapacity }, b.reports,
      b.remainingCapacity.sle b.designCapacityLow, false⟩

end Eece4029
