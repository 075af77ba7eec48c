import Eece4029.Lib.File
import Eece4029.Lib.Run
import Mathlib.Algebra.Ring.Nat

/-!
# The encrypting file system

`hw7_fuse/src/bbfs.c` passes every request on to an underlying file system and adds one to each byte
on the way in, and takes one off on the way out, if the daemon runs under the uid given at the
mount. Here are `bb_read`, `bb_write`, `bb_truncate` and `bb_ftruncate` on one file. The system
calls below them are the operations of `File`, with their results chosen by the environment: a call
may fail with an `errno`, and `pread` and `pwrite` may stop short.

The bytes are computed in `int` from a plain `char`, which may be signed, and stored into one, which
keeps the low eight bits. The sizes that a caller passes are below `2 ^ 31`, so the loop counters
and `retstat` do not overflow. Paths, the log and the copy of the buffer are left out.
-/

namespace Eece4029

open Transition

/-! ## Bytes -/

/-- The value of a `char` in an expression. -/
def charVal (signed : Bool) (b : UInt8) : Int :=
  if signed ∧ 128 ≤ b.toNat then b.toNat - 256 else b.toNat

/-- Storing an `int` into a `char` keeps its low eight bits. -/
def toChar (i : Int) : UInt8 := UInt8.ofNat (i % 256).toNat

/-- `data[i] = (data[i] + 1) % 256`, where `%` rounds towards zero. -/
def encrypt (signed : Bool) (b : UInt8) : UInt8 := toChar ((charVal signed b + 1).tmod 256)

/-- `buf[i] = (buf[i] == 0) ? 255 : ((buf[i]-1) % 256)`. -/
def decrypt (signed : Bool) (b : UInt8) : UInt8 :=
  toChar (if charVal signed b = 0 then 255 else (charVal signed b - 1).tmod 256)

/-! ## Requests -/

/-- The daemon: whether `char` is signed, `BB_DATA->uid`, and what `getuid()` returns. -/
structure Daemon where
  charSigned : Bool
  uid : UInt32
  getuid : UInt32

/-- The result of a system call: the number it returns, or `errno`. -/
inductive SysResult
  | ok (n : Nat)
  | fail (errno : Nat)
deriving DecidableEq, Repr

/-- `bb_error`. -/
def bbError (errno : Nat) : Int := -errno

/-- `bb_read`: its result and the bytes in the buffer that it returns. -/
def bbRead (d : Daemon) (f : File) (size offset : Nat) (pread : SysResult) : Int × List UInt8 :=
  match pread with
  | .fail errno => (bbError errno, [])
  | .ok n =>
    let buf := (f.read offset size).take n
    (n, if d.uid = d.getuid then buf.map (decrypt d.charSigned) else buf)

/-- `bb_write`: its result and the file. -/
def bbWrite (d : Daemon) (f : File) (buf : List UInt8) (offset : Nat) (pwrite : SysResult) :
    Int × File :=
  let data := if d.uid = d.getuid then buf.map (encrypt d.charSigned) else buf
  match pwrite with
  | .ok n => (n, f.write (data.take n) offset)
  | .fail errno => (bbError errno, f)

/-- `bb_truncate`: its result and the file. The value of `bb_error` is dropped. -/
def bbTruncate (f : File) (newsize : Nat) (truncate : SysResult) : Int × File :=
  match truncate with
  | .ok _ => (0, f.truncate newsize)
  | .fail _ => (-1, f)

/-- `bb_ftruncate`: its result and the file. -/
def bbFtruncate (f : File) (offset : Nat) (ftruncate : SysResult) : Int × File :=
  match ftruncate with
  | .ok _ => (0, f.truncate offset)
  | .fail errno => (bbError errno, f)

/-- What POSIX says about the result of `pread`: at most as many bytes as were asked for and as the
file has. -/
structure Pread (f : File) (size offset : Nat) (r : SysResult) : Prop where
  small : size < 2 ^ 31
  count : ∀ n, r = .ok n → n ≤ size ∧ n ≤ f.size - offset

/-- A request that changes the file, with the result of its system call. -/
inductive FileOp
  | write (buf : List UInt8) (offset : Nat) (pwrite : SysResult)
  | truncate (newsize : Nat) (truncate : SysResult)
  | ftruncate (offset : Nat) (ftruncate : SysResult)

/-- What POSIX says about the result of a system call: `pwrite` stores at most the bytes it is
given. -/
def FileOp.Posix : FileOp → Prop
  | .write buf _ pwrite => buf.length < 2 ^ 31 ∧ ∀ n, pwrite = .ok n → n ≤ buf.length
  | .truncate _ _ => True
  | .ftruncate _ _ => True

/-! ## A file and where its bytes come from -/

/-- Where the byte at a position comes from: it was in the file at the start, it is in the file only
because the file got longer, or a write supplied it. -/
inductive Origin
  | initial
  | zero
  | written (ch : UInt8)
deriving DecidableEq, Repr

/-- The file under the mount. The second field is an observation: positions past the end of the file
have the origin `zero`, and so has a position from then on, until a write covers it. -/
structure Tracked where
  file : File
  origin : Nat → Origin

namespace Tracked

/-- A file that nothing has happened to. -/
def init (f : File) : Tracked := ⟨f, fun p => if p < f.size then .initial else .zero⟩

/-- The origins after `n` bytes of `buf` were written. -/
def cover (origin : Nat → Origin) (buf : List UInt8) (offset n : Nat) (p : Nat) : Origin :=
  if offset ≤ p then ((buf.take n)[p - offset]?.map Origin.written).getD (origin p) else origin p

/-- The origins after the file was cut off or extended to `n` bytes. -/
def cut (origin : Nat → Origin) (n p : Nat) : Origin := if p < n then origin p else .zero

/-- The state after a request. -/
def next (d : Daemon) (s : Tracked) : FileOp → Tracked
  | .write buf offset pwrite =>
    ⟨(bbWrite d s.file buf offset pwrite).2,
      match pwrite with
      | .ok n => cover s.origin buf offset n
      | .fail _ => s.origin⟩
  | .truncate newsize truncate =>
    ⟨(bbTruncate s.file newsize truncate).2,
      match truncate with
      | .ok _ => cut s.origin newsize
      | .fail _ => s.origin⟩
  | .ftruncate offset ftruncate =>
    ⟨(bbFtruncate s.file offset ftruncate).2,
      match ftruncate with
      | .ok _ => cut s.origin offset
      | .fail _ => s.origin⟩

end Tracked

/-- The step of a mounted file. -/
def FileStep (d : Daemon) (s : Tracked) (op : FileOp) (s' : Tracked) : Prop :=
  op.Posix ∧ s' = s.next d op

/-- `tr` is a run of requests from the file `f` to the state `s`. -/
abbrev FileRun (d : Daemon) (f : File) (tr : List (Step Tracked FileOp)) (s : Tracked) : Prop :=
  Run (FileStep d) (Tracked.init f) tr s

end Eece4029
