import Eece4029.Lib.Heap
import Eece4029.Lib.Run
import Eece4029.Loopback.Xmit

/-!
# A host with the two devices

The whole of `loopback.c` at work: `init_mod` makes the two devices and registers them one after the
other, `exit_mod` takes the registrations back, and from the registration of a device on the network
stack may bring it up and down, make socket buffers for it, whose header `os_create_header` writes,
make clones of them, which share the bytes, and transmit them. `os_start_xmit` is the one of
`Loopback.Xmit`, here with the socket buffers that it takes and makes.

The network stack is that of the kernel: it transmits a buffer that it has on the device of the
buffer, while that is registered and its queue is started, and the buffer is then the driver's. The
numbers of the devices and of the buffers are those of the blocks that are made for them, and the
bytes of a buffer have the number of the buffer that they were made for. Whether an allocation or a
registration succeeds is part of a step.
-/

namespace Eece4029

open Transition OnesComplement

/-! ## The devices -/

/-- `struct net_device`: what the driver assigns in it, whether it is registered, and whether its
queue is started. -/
structure NetDev where
  devAddr : List UInt8
  broadcast : List UInt8
  name : List Char
  hasOps : Bool
  hardHeaderLen : Nat
  noarp : Bool
  registered : Bool
  queue : Bool
deriving DecidableEq, Repr

/-- What `ether_setup` makes of a new device. -/
def NetDev.etherSetup : NetDev where
  devAddr := List.replicate 6 0
  broadcast := List.replicate 6 0xFF
  name := "eth%d".toList
  hasOps := false
  hardHeaderLen := 14
  noarp := false
  registered := false
  queue := false

/-- `alloc_etherdev`. -/
def allocEtherdev (ok : Bool) (h : Heap NetDev) : Ptr × Heap NetDev :=
  if ok then (some h.next, (h.malloc .etherSetup).2) else (none, h)

/-- A loop of `init_mod` over the bytes of an address. -/
def fillAddr (f : Nat → UInt8) (addr : List UInt8) : List UInt8 :=
  (List.range 6).foldl (fun addr i => addr.set i (f i)) addr

/-- `init_mod` up to the registration: `-ENOMEM` or `0`, and the two devices. -/
def initDevices (ok0 ok1 : Bool) (h : Heap NetDev) : Except Stop (Int × Ptr × Ptr × Heap NetDev) :=
  let (os0, h) := allocEtherdev ok0 h
  let (os1, h) := allocEtherdev ok1 h
  if os0 = none ∨ os1 = none then
    .ok (-12, os0, os1, h)
  else do
    let h ← h.store os0 fun dev => { dev with devAddr := fillAddr UInt8.ofNat dev.devAddr }
    let h ← h.store os1 fun dev => { dev with devAddr := fillAddr UInt8.ofNat dev.devAddr }
    let h ← h.store os0 fun dev => { dev with broadcast := fillAddr (fun _ => 0xFF) dev.broadcast }
    let h ← h.store os1 fun dev => { dev with broadcast := fillAddr (fun _ => 0xFF) dev.broadcast }
    let h ← h.store os1 fun dev => { dev with devAddr := dev.devAddr.set 5 6 }
    let h ← h.store os0 fun dev => { dev with name := "os0".toList }
    let h ← h.store os1 fun dev => { dev with name := "os1".toList }
    let h ← h.store os0 fun dev => { dev with hasOps := true }
    let h ← h.store os1 fun dev => { dev with hasOps := true }
    let h ← h.store os0 fun dev => { dev with hardHeaderLen := 14 }
    let h ← h.store os1 fun dev => { dev with hardHeaderLen := 14 }
    let h ← h.store os0 fun dev => { dev with noarp := true }
    let h ← h.store os1 fun dev => { dev with noarp := true }
    return (0, os0, os1, h)

/-- `register_netdev`. -/
def registerNetdev (ok : Bool) (p : Ptr) (h : Heap NetDev) : Except Stop (Heap NetDev) :=
  h.store p fun dev => { dev with registered := ok }

/-- `unregister_netdev`, which stops the queue. It refuses a device that is not registered. -/
def NetDev.unregister (dev : NetDev) : NetDev :=
  if dev.registered then { dev with registered := false, queue := false } else dev

/-- `exit_mod` for one of the devices. -/
def exitDevice (p : Ptr) (h : Heap NetDev) : Except Stop (Heap NetDev) :=
  if p = none then .ok h else h.store p NetDev.unregister

/-- `os_create_header`: what it returns, and the packet with the header that it pushes. -/
def osCreateHeader (dev : NetDev) (type : UInt16) (packet : List UInt8) : Nat × List UInt8 :=
  let source := dev.devAddr
  let dest := source.set 5 (if source[5]?.getD 0 = 5 then 6 else 5)
  (dev.hardHeaderLen, dest ++ source ++ [hi type, lo type] ++ packet)

/-! ## The host -/

/-- `struct sk_buff`: its device and its bytes, and whether the driver has taken it. -/
structure SkBuff where
  dev : Ptr
  data : Nat
  taken : Bool
deriving DecidableEq, Repr

/-- Where the module is: not loaded, in `init_mod` before each of the two registrations, loaded,
with both registrations or not, and in `exit_mod` between its two calls. -/
inductive ModPlace
  | out
  | register0
  | register1
  | loaded (both : Bool)
  | unregister1 (both : Bool)
deriving DecidableEq, Repr

/-- The devices, the variables `os0` and `os1`, and the socket buffers with their bytes. -/
structure Host where
  place : ModPlace
  devs : Heap NetDev
  os0 : Ptr
  os1 : Ptr
  skbs : Heap SkBuff
  bytes : Nat → List UInt8

namespace Host

/-- Before the module is loaded for the first time. -/
def init : Host := ⟨.out, .empty, none, none, .empty, fun _ => []⟩

/-- A new socket buffer that the network stack has. -/
def newSkb (m : Host) (dev : Ptr) (frame : List UInt8) : Host :=
  { m with
    skbs := (m.skbs.malloc ⟨dev, m.skbs.next, false⟩).2
    bytes := Function.update m.bytes m.skbs.next frame }

variable (ipFastCsum : List UInt8 → Nat → UInt16)

/-- `os_start_xmit`: the device that `netif_rx` gets a buffer for and the bytes in it, unless
`dev_alloc_skb` fails. -/
def osStartXmit (allocOk : Bool) (skb : Nat) (dev : Ptr) (m : Host) :
    Except Stop (Option (Ptr × List UInt8) × Host) := do
  let sk ← m.skbs.load (some skb)
  let data := m.bytes sk.data
  let rewritten := rewriteHeader ipFastCsum (if data.length < 60 then shortpkt data else data)
  -- a short frame is changed in its copy, a longer one where it is
  let m := if data.length < 60 then m else
    { m with bytes := Function.update m.bytes sk.data rewritten }
  if allocOk then
    let dest := if dev = m.os0 then m.os1 else m.os0
    let m := m.newSkb dest rewritten
    let skbs ← m.skbs.free (some skb)
    return (some (dest, rewritten), { m with skbs })
  else
    return (none, m)

/-- The device is registered. -/
def Registered (m : Host) (a : Nat) : Prop :=
  ∃ dev, m.devs.cell a = some dev ∧ dev.registered = true

/-- The device is registered, and its queue is started. -/
def Running (m : Host) (a : Nat) : Prop :=
  ∃ dev, m.devs.cell a = some dev ∧ dev.registered = true ∧ dev.queue = true

/-- The network stack has the buffer. -/
def Has (m : Host) (s : Nat) (sk : SkBuff) : Prop := m.skbs.cell s = some sk ∧ sk.taken = false

end Host

/-! ## Its steps -/

/-- A step: the allocations and the registrations of `init_mod`, the two calls of `exit_mod`,
`os_open` and `os_stop`, a new buffer with a header of `os_create_header` or with any bytes, a clone
of a buffer, a transmission with its outcome, and the end of a buffer that the network stack has. -/
inductive HostLabel
  | initDevices (ok0 ok1 : Bool) (ret : Int)
  | registerNetdev (dev : NetDevice) (ok : Bool)
  | unregisterNetdev (dev : NetDevice)
  | osOpen (a : Nat)
  | osStop (a : Nat)
  | osCreateHeader (a : Nat) (type : UInt16) (packet : List UInt8)
  | frame (a : Nat) (frame : List UInt8)
  | clone (s : Nat)
  | osStartXmit (s : Nat) (allocOk : Bool) (out : Option (Ptr × List UInt8))
  | kfree (s : Nat)

/-- The steps of the host. -/
inductive HostStep (ipFastCsum : List UInt8 → Nat → UInt16) (m : Host) : HostLabel → Host → Prop
  | initDevices {ok0 ok1 : Bool} {ret : Int} {os0 os1 : Ptr} {devs : Heap NetDev}
      (hpl : m.place = .out) (h : initDevices ok0 ok1 m.devs = .ok (ret, os0, os1, devs)) :
      HostStep ipFastCsum m (.initDevices ok0 ok1 ret)
        { m with place := if ret = 0 then .register0 else .out, devs, os0, os1 }
  | register0 {ok : Bool} {devs : Heap NetDev} (hpl : m.place = .register0)
      (h : registerNetdev ok m.os0 m.devs = .ok devs) :
      -- `||` does not come to the other device when this one fails
      HostStep ipFastCsum m (.registerNetdev .os0 ok)
        { m with place := if ok then .register1 else .loaded false, devs }
  | register1 {ok : Bool} {devs : Heap NetDev} (hpl : m.place = .register1)
      (h : registerNetdev ok m.os1 m.devs = .ok devs) :
      HostStep ipFastCsum m (.registerNetdev .os1 ok) { m with place := .loaded ok, devs }
  | unregister0 {both : Bool} {devs : Heap NetDev} (hpl : m.place = .loaded both)
      (h : exitDevice m.os0 m.devs = .ok devs) :
      HostStep ipFastCsum m (.unregisterNetdev .os0) { m with place := .unregister1 both, devs }
  | unregister1 {both : Bool} {devs : Heap NetDev} (hpl : m.place = .unregister1 both)
      (h : exitDevice m.os1 m.devs = .ok devs) :
      HostStep ipFastCsum m (.unregisterNetdev .os1) { m with place := .out, devs }
  | osOpen {a : Nat} (hreg : m.Registered a) :
      HostStep ipFastCsum m (.osOpen a)
        { m with devs := m.devs.upd a fun dev => { dev with queue := true } }
  | osStop {a : Nat} (hreg : m.Registered a) :
      HostStep ipFastCsum m (.osStop a)
        { m with devs := m.devs.upd a fun dev => { dev with queue := false } }
  | osCreateHeader {a : Nat} {dev : NetDev} {type : UInt16} {packet : List UInt8}
      (hc : m.devs.cell a = some dev) (hreg : dev.registered = true) :
      HostStep ipFastCsum m (.osCreateHeader a type packet)
        (m.newSkb (some a) (osCreateHeader dev type packet).2)
  | frame {a : Nat} {frame : List UInt8} (hreg : m.Registered a) :
      HostStep ipFastCsum m (.frame a frame) (m.newSkb (some a) frame)
  | clone {s : Nat} {sk : SkBuff} (hs : m.Has s sk) :
      HostStep ipFastCsum m (.clone s) { m with skbs := (m.skbs.malloc sk).2 }
  | osStartXmit {s a : Nat} {sk : SkBuff} {allocOk : Bool} {out : Option (Ptr × List UInt8)}
      {m' : Host} (hs : m.Has s sk) (hdev : sk.dev = some a) (hrun : m.Running a)
      (h : Host.osStartXmit ipFastCsum allocOk s sk.dev
        { m with skbs := m.skbs.upd s fun sk => { sk with taken := true } } = .ok (out, m')) :
      HostStep ipFastCsum m (.osStartXmit s allocOk out) m'
  | kfree {s : Nat} {sk : SkBuff} (hs : m.Has s sk) :
      HostStep ipFastCsum m (.kfree s) { m with skbs := m.skbs.drop s }

/-- `tr` is a run of the host from before the module is loaded. -/
abbrev HostRun (ipFastCsum : List UInt8 → Nat → UInt16) (tr : List (Step Host HostLabel))
    (m : Host) : Prop :=
  Run (HostStep ipFastCsum) Host.init tr m

/-! ## A transmission -/

variable {ipFastCsum : List UInt8 → Nat → UInt16} {m m' : Host} {s : Nat} {sk : SkBuff}
  {dev : Ptr} {allocOk : Bool} {out : Option (Ptr × List UInt8)}

namespace Host

/-- The device that gets what is transmitted on `dev`. -/
def other (m : Host) (dev : Ptr) : Ptr := if dev = m.os0 then m.os1 else m.os0

/-- What is made of the bytes with the number `n`. -/
def rewritten (ipFastCsum : List UInt8 → Nat → UInt16) (m : Host) (n : Nat) : List UInt8 :=
  rewriteHeader ipFastCsum (shortpkt (m.bytes n))

/-- The bytes after the frame was rewritten, in its place if it is long enough. -/
def rewrite (ipFastCsum : List UInt8 → Nat → UInt16) (m : Host) (n : Nat) : Nat → List UInt8 :=
  if (m.bytes n).length < 60 then m.bytes else
    Function.update m.bytes n (m.rewritten ipFastCsum n)

/-- `os_start_xmit` of a live buffer: with a new buffer it frees the one that it took. -/
theorem osStartXmit_eq (hc : m.skbs.cell s = some sk) :
    osStartXmit ipFastCsum allocOk s dev m = .ok
      (if allocOk then
        (some (m.other dev, m.rewritten ipFastCsum sk.data),
          { m with
            skbs := (m.skbs.malloc ⟨m.other dev, m.skbs.next, false⟩).2.drop s
            bytes := Function.update (m.rewrite ipFastCsum sk.data) m.skbs.next
              (m.rewritten ipFastCsum sk.data) })
      else (none, { m with bytes := m.rewrite ipFastCsum sk.data })) := by
  have hdata : (if (m.bytes sk.data).length < 60 then shortpkt (m.bytes sk.data)
      else m.bytes sk.data) = shortpkt (m.bytes sk.data) := by
    split
    · rfl
    · next h => rw [shortpkt_of_le (Nat.not_lt.1 h)]
  have hplace : (if (m.bytes sk.data).length < 60 then m else
      { m with
        bytes := Function.update m.bytes sk.data
          (rewriteHeader ipFastCsum (shortpkt (m.bytes sk.data))) }) =
      { m with bytes := m.rewrite ipFastCsum sk.data } := by
    rw [rewrite]
    split <;> rfl
  have hfree : ∀ dest, (m.skbs.malloc ⟨dest, m.skbs.next, false⟩).2.free (some s) =
      .ok ((m.skbs.malloc ⟨dest, m.skbs.next, false⟩).2.drop s) := by
    intro dest
    refine Heap.free_some (c := sk) ?_
    rw [Heap.cell_malloc, Function.update_of_ne (Nat.ne_of_lt (Heap.live_of_cell hc).lt), hc]
  rw [osStartXmit, Heap.load_some hc]
  simp only [bind, Except.bind, hdata, hplace]
  cases allocOk with
  | false => rfl
  | true =>
    simp only [if_true, newSkb, hfree]
    rfl

end Host

/-- What a transmission of the buffer `s` on the device `a` does. -/
structure Transmission (ipFastCsum : List UInt8 → Nat → UInt16) (m : Host) (s : Nat) (sk : SkBuff)
    (a : Nat) (allocOk : Bool) (out : Option (Ptr × List UInt8)) (m' : Host) : Prop where
  has : m.Has s sk
  dev : sk.dev = some a
  running : m.Running a
  out : out =
    if allocOk then some (m.other (some a), m.rewritten ipFastCsum sk.data) else none
  bytes : m'.bytes =
    if allocOk then
      Function.update (m.rewrite ipFastCsum sk.data) m.skbs.next (m.rewritten ipFastCsum sk.data)
    else m.rewrite ipFastCsum sk.data
  skbs : m'.skbs =
    if allocOk then
      ((m.skbs.upd s fun sk => { sk with taken := true }).malloc
        ⟨m.other (some a), m.skbs.next, false⟩).2.drop s
    else m.skbs.upd s fun sk => { sk with taken := true }
  place : m'.place = m.place
  devs : m'.devs = m.devs
  os0 : m'.os0 = m.os0
  os1 : m'.os1 = m.os1

theorem HostStep.transmission (h : HostStep ipFastCsum m (.osStartXmit s allocOk out) m') :
    ∃ sk a, Transmission ipFastCsum m s sk a allocOk out m' := by
  cases h with
  | @osStartXmit _ a sk _ _ _ hs hdev hrun h =>
    have htaken := Heap.cell_upd_self (f := fun sk : SkBuff => { sk with taken := true }) hs.1
    have hret := (Host.osStartXmit_eq htaken).symm.trans h
    rw [hdev] at hret
    cases allocOk with
    | false =>
      cases hret
      exact ⟨sk, a, hs, hdev, hrun, rfl, rfl, rfl, rfl, rfl, rfl, rfl⟩
    | true =>
      cases hret
      exact ⟨sk, a, hs, hdev, hrun, rfl, rfl, rfl, rfl, rfl, rfl, rfl⟩

end Eece4029
