import Eece4029.Fuse.Directory
import Eece4029.Fuse.Oper
import Eece4029.Lib.Calls

/-!
# All handlers of the mount

`Oper` has the handlers that change or move data. Here are the other ones of `bb_oper`, which ask
for attributes and rights, list directories and let files go, and `FuseOp.serve` is the whole table
(`bb_init` and `bb_destroy` only write to the log). For a request whose behaviour is defined
`handler_reports` says what each of them returns when one of its system calls fails, and that a
negative number is returned for no other reason; `calls_below_rootdir`, which paths the calls are
given. What `bb_readdir` returns is said in `Directory`, and only its calls are looked at here.

As in `Oper`, what is logged is left out, and so are the structures that a call fills in and the
entries that `filler` is given.
-/

namespace Eece4029

open Errno

/-- The paths that the kernel looks up for a system call. The target of a new symbolic link is not
one. -/
def SysCall.paths : SysCall → List String
  | .«open» path _ _ | .creat path _ | .mkfifo path _ | .mknod path _ _ | .mkdir path _
  | .unlink path | .rmdir path | .symlink _ path | .chmod path _ | .chown path _ _
  | .truncate path _ | .utime path _ | .lsetxattr path _ _ _ | .lgetxattr path _ _
  | .llistxattr path _ | .lremovexattr path _ => [path]
  | .rename path newpath | .link path newpath => [path, newpath]
  | .close _ | .ftruncate _ _ | .pread _ _ _ | .pwrite _ _ _ | .fsync _ | .fdatasync _ => []

namespace BbOper

/-! ## The handlers -/

/-- The system calls of all handlers. A call that returns a pointer returns `NULL` when it fails,
and its `-1` here stands for that. -/
inductive FuseCall
  | sys (c : SysCall)
  | lstat (path : String)
  | readlink (path : String) (size : Nat)
  | statvfs (path : String)
  | opendir (path : String)
  | readdir (dp : Int)
  | closedir (dp : Int)
  | access (path : String) (mask : Int)
  | fstat (fd : Int)
deriving DecidableEq

/-- The pointer that a call returns. -/
def pointer (r : Int) : Int := if r < 0 then 0 else r

/-- `bb_error`. -/
def reportError : Prog FuseCall Int := bbError.mapCall .sys

/-- Return what a call returns, or the value of `bb_error` if that is negative. -/
def checkedCall (c : FuseCall) : Prog FuseCall Int := do
  let retstat ← call c
  if retstat < 0 then reportError else return retstat

variable (bb : BbState)

/-- `bb_fullpath`. -/
def fullpath (path : String) : Prog FuseCall String := (bbFullpath bb path).mapCall .sys

def bbGetattr (path : String) : Prog FuseCall Int := do
  log
  let fpath ← fullpath bb path
  let retstat ← call (.lstat fpath)
  let retstat ← if retstat ≠ 0 then reportError else pure retstat
  -- the attributes
  log
  return retstat

/-- `bb_readlink`: what it returns, and the position in `link` of the zero that it stores. The size
that it passes on is a `size_t`. -/
def bbReadlink (path : String) (size : Nat) : Prog FuseCall (Int × Option Int) := do
  log
  let fpath ← fullpath bb path
  let retstat ← call (.readlink fpath ((size + (2 ^ 64 - 1)) % 2 ^ 64))
  if retstat < 0 then
    let retstat ← reportError
    return (retstat, none)
  else
    return (0, some retstat)

def bbStatfs (path : String) : Prog FuseCall Int := do
  log
  let fpath ← fullpath bb path
  let retstat ← checkedCall (.statvfs fpath)
  log
  return retstat

def bbFlush : Prog FuseCall Int := do
  log
  return 0

/-- What `close` returns is returned. -/
def bbRelease (fh : Int) : Prog FuseCall Int := do
  log
  call (.sys (.close fh))

/-- `bb_opendir`: what it returns and `fi->fh`. -/
def bbOpendir (path : String) : Prog FuseCall (Int × Int) := do
  log
  let fpath ← fullpath bb path
  let dp ← call (.opendir fpath)
  let retstat ← if pointer dp = 0 then reportError else pure 0
  log
  return (retstat, pointer dp)

/-- The loop of `bb_readdir`. The buffer behind `filler` has room for some more names, and is full
for the next one then. -/
def fillLoop (dp : Int) : Nat → Prog FuseCall Int
  | 0 => do
    log
    -- the buffer is full
    log
    return -ENOMEM
  | room + 1 => do
    log
    let de ← call (.readdir dp)
    if pointer de ≠ 0 then
      fillLoop dp room
    else
      log
      return 0

/-- `bb_readdir`, with a buffer that has room for `room` names. -/
def bbReaddir (room : Nat) (fh : Int) : Prog FuseCall Int := do
  log
  let de ← call (.readdir fh)
  if pointer de = 0 then reportError else fillLoop fh room

/-- What `closedir` returns is dropped. -/
def bbReleasedir (fh : Int) : Prog FuseCall Int := do
  log
  let _ ← call (.closedir fh)
  return 0

def bbFsyncdir : Prog FuseCall Int := do
  log
  return 0

def bbAccess (path : String) (mask : Int) : Prog FuseCall Int := do
  log
  let fpath ← fullpath bb path
  checkedCall (.access fpath mask)

def bbFgetattr (fh : Int) : Prog FuseCall Int := do
  log
  let retstat ← checkedCall (.fstat fh)
  log
  return retstat

/-- A request to the daemon. -/
inductive FuseOp
  | oper (op : Operation)
  | getattr (path : String)
  | readlink (path : String) (size : Nat)
  | statfs (path : String)
  | flush (fh : Int)
  | release (fh : Int)
  | opendir (path : String)
  | readdir (room : Nat) (fh : Int)
  | releasedir (fh : Int)
  | fsyncdir (fh : Int)
  | access (path : String) (mask : Int)
  | fgetattr (fh : Int)

/-- The value of a handler that leaves `fi->fh` alone. -/
def keeping (p : Prog FuseCall Int) : Prog FuseCall (Int × Option Int) := do
  let retstat ← p
  return (retstat, none)

/-- The value of a handler that sets it. -/
def setting (p : Prog FuseCall (Int × Int)) : Prog FuseCall (Int × Option Int) := do
  let (retstat, fh) ← p
  return (retstat, some fh)

/-- `bb_oper`: what the handler of a request returns, and what it puts into `fi->fh`. -/
def FuseOp.serve : FuseOp → Prog FuseCall (Int × Option Int)
  | .oper (.«open» path flags) => setting ((bbOpen bb path flags).mapCall .sys)
  | .oper (.create path mode) => setting ((bbCreate bb path mode).mapCall .sys)
  | .oper op => keeping ((op.handler bb).mapCall .sys)
  | .getattr path => keeping (bbGetattr bb path)
  | .readlink path size => keeping (Prod.fst <$> bbReadlink bb path size)
  | .statfs path => keeping (bbStatfs bb path)
  | .flush _ => keeping bbFlush
  | .release fh => keeping (bbRelease fh)
  | .opendir path => setting (bbOpendir bb path)
  | .readdir room fh => keeping (bbReaddir room fh)
  | .releasedir fh => keeping (bbReleasedir fh)
  | .fsyncdir _ => keeping bbFsyncdir
  | .access path mask => keeping (bbAccess bb path mask)
  | .fgetattr fh => keeping (bbFgetattr fh)

/-- The request is for a listing. -/
def FuseOp.Lists : FuseOp → Prop
  | .readdir .. => True
  | _ => False

/-- The paths of a request. -/
def FuseOp.paths : FuseOp → List String
  | .oper op => op.paths
  | .getattr path | .readlink path _ | .statfs path | .opendir path | .access path _ => [path]
  | .flush _ | .release _ | .readdir _ _ | .releasedir _ | .fsyncdir _ | .fgetattr _ => []

/-- The paths fit, and the names of the attributes have a buffer. -/
structure FuseOp.Defined (op : FuseOp) : Prop where
  fits : ∀ path ∈ op.paths, bb.Fits path
  buffer : ∀ path list, op = .oper (.listxattr path list) → list.addr ≠ 0

/-- What a handler but `bb_readdir` returns when one of its calls has failed. -/
def FuseOp.reported : FuseOp → Nat → Int
  | .oper (.truncate ..), _ | .oper (.fsync ..), _ | .release _, _ => -1
  | .releasedir _, _ => 0
  | _, e => -e

/-- What a call that succeeds returns: `lstat` zero, and `opendir` no null pointer. -/
def Documented : FuseCall → Nat → Prop
  | .lstat _, n => n = 0
  | .opendir _, n => n ≠ 0
  | _, _ => True

/-! ## After a failed call -/

variable {bb} {path newpath : String} {c : FuseCall} {f : Nat → Int}

theorem answers_reportError : Answers negated reportError := answers_bbError.mapCall

theorem silent_fullpath : Silent (fullpath bb path) := silent_bbFullpath.mapCall

theorem returns_fullpath {α : Type} {f : Nat → α} {k : String → Prog FuseCall α}
    (h : ∀ fpath, Returns f (k fpath)) : Returns f (log >>= fun _ => fullpath bb path >>= k) :=
  .after silent_log fun _ => .after silent_fullpath h

theorem returns_checkedCall : Returns negated (checkedCall c) := by
  refine .call (fun n => ?_) ?_
  · rw [if_neg (by omega)]
    exact silent_pure.returns
  · exact answers_reportError

/-- A message may follow. -/
theorem returns_logged {p : Prog FuseCall Int} (h : Returns f p) :
    Returns f (p >>= fun retstat => log >>= fun _ => pure retstat) :=
  h.bind fun _ => silent_log.answers fun _ => answers_pure

theorem returns_keeping {p : Prog FuseCall Int} (h : Returns f p) :
    Returns (fun e => (f e, none)) (keeping p) :=
  h.bind fun _ => answers_pure

theorem exec_keeping {p : Prog FuseCall Int} {err err' : Nat} {a : Int × Option Int}
    {tr : List (FuseCall × Except Nat Nat)} (h : Exec (keeping p) err tr a err') :
    Exec p err tr a.1 err' := by
  obtain ⟨tr₁, tr₂, retstat, err₁, rfl, hp, hret⟩ := h.bind_inv
  obtain ⟨rfl, rfl, rfl⟩ := exec_pure.1 hret
  rwa [List.append_nil]

theorem returns_setting {p : Prog FuseCall (Int × Int)} {g : Nat → Int × Int} (h : Returns g p) :
    Returns (fun e => ((g e).1, some (g e).2)) (setting p) :=
  h.bind (g := fun r => (r.1, some r.2)) fun _ => answers_pure

theorem returns_bbGetattr : Returns negated (bbGetattr bb path) := by
  refine returns_fullpath fun _ => .call (fun n => ?_) ?_
  · split
    · exact (answers_reportError.silent.bind fun _ => silent_log.bind fun _ => silent_pure).returns
    · exact (silent_pure.bind fun _ => silent_log.bind fun _ => silent_pure).returns
  · exact answers_reportError.bind fun _ => silent_log.answers fun _ => answers_pure

theorem returns_bbReadlink {size : Nat} :
    Returns (fun e => (negated e, none)) (bbReadlink bb path size) := by
  refine returns_fullpath fun _ => .call (fun n => ?_) ?_
  · rw [if_neg (by omega)]
    exact silent_pure.returns
  · exact answers_reportError.bind fun _ => answers_pure

theorem returns_bbRelease {fh : Int} : Returns (fun _ => -1) (bbRelease fh) :=
  .after silent_log fun _ => .call (fun _ => silent_pure.returns) answers_pure

theorem returns_bbOpendir : Returns (fun e => (negated e, 0)) (bbOpendir bb path) := by
  refine returns_fullpath fun _ => .call (fun n => ?_) ?_
  · split
    · exact (answers_reportError.silent.bind fun _ => silent_log.bind fun _ => silent_pure).returns
    · exact (silent_pure.bind fun _ => silent_log.bind fun _ => silent_pure).returns
  · exact answers_reportError.bind fun _ => silent_log.answers fun _ => answers_pure

theorem returns_bbReleasedir {fh : Int} : Returns (fun _ => 0) (bbReleasedir fh) :=
  .after silent_log fun _ => .call (fun _ => silent_pure.returns) answers_pure

theorem returns_oper {op : Operation} : Returns (FuseOp.reported (.oper op)) (op.handler bb) := by
  cases op with
  | truncate | fsync => exact returns_handler_of_drops trivial
  | _ => exact returns_handler fun h => h

/-- What goes into `fi->fh` after a failed call depends on the request only. -/
theorem returns_serve {op : FuseOp} (hop : ¬ op.Lists) :
    ∃ fh, Returns (fun e => (op.reported e, fh)) (op.serve bb) := by
  cases op with
  | oper op =>
    cases op with
    | «open» | create => exact ⟨some (-1), returns_setting returns_opening.mapCall⟩
    | _ => exact ⟨_, returns_keeping returns_oper.mapCall⟩
  | getattr => exact ⟨_, returns_keeping returns_bbGetattr⟩
  | readlink => exact ⟨_, returns_keeping (returns_bbReadlink.bind fun _ => answers_pure)⟩
  | statfs =>
    refine ⟨_, returns_keeping (returns_fullpath fun _ => ?_)⟩
    exact returns_logged returns_checkedCall
  | flush | fsyncdir => exact ⟨_, returns_keeping (silent_log.bind fun _ => silent_pure).returns⟩
  | release => exact ⟨_, returns_keeping returns_bbRelease⟩
  | opendir => exact ⟨some 0, returns_setting returns_bbOpendir⟩
  | readdir => exact absurd trivial hop
  | releasedir => exact ⟨_, returns_keeping returns_bbReleasedir⟩
  | access =>
    refine ⟨_, returns_keeping (returns_fullpath fun _ => ?_)⟩
    exact returns_checkedCall
  | fgetattr =>
    exact ⟨_, returns_keeping (.after silent_log fun _ => returns_logged returns_checkedCall)⟩

/-! ## When no call fails -/

section
variable {R : SysCall → Nat → Prop} {c : SysCall}

theorem delivers_checked : Delivers R (0 ≤ ·) (checked c) := by
  refine .call fun n _ => ?_
  rw [if_neg (by omega)]
  exact .pure (Int.natCast_nonneg n)

theorem delivers_dropped : Delivers R (0 ≤ ·) (dropped c) := by
  refine .call fun n _ => ?_
  rw [if_neg (by omega)]
  exact .pure (Int.natCast_nonneg n)

theorem delivers_path {α : Type} {Q : α → Prop} {k : String → Prog SysCall α}
    (h : ∀ fpath, Delivers R Q (k fpath)) :
    Delivers R Q (log >>= fun _ => bbFullpath bb path >>= k) :=
  .after silent_log fun _ => .after silent_bbFullpath h

theorem delivers_onPath {c : String → SysCall} : Delivers R (0 ≤ ·) (onPath bb path c) :=
  delivers_path fun _ => delivers_checked

theorem delivers_onPaths {c : String → String → SysCall} :
    Delivers R (0 ≤ ·) (onPaths bb path newpath c) :=
  delivers_path fun _ => .after silent_bbFullpath fun _ => delivers_checked

theorem delivers_opening {c : String → SysCall} :
    Delivers R (fun r => 0 ≤ r.1) (opening bb path c) := by
  refine delivers_path fun _ => .call fun n _ => ?_
  rw [if_neg (by omega)]
  exact .bind (.pure (Q := (0 ≤ ·)) (Int.le_refl 0)) fun a ha => .after silent_log fun _ => .pure ha

theorem delivers_handler {op : Operation} : Delivers R (0 ≤ ·) (op.handler bb) := by
  cases op with
  | mkdir | unlink | rmdir | symlink | chown | utime | setxattr | removexattr =>
    exact delivers_onPath
  | rename | link => exact delivers_onPaths
  | «open» | create => exact delivers_opening.bind fun _ ha => .pure ha
  | read | ftruncate | write => exact .after silent_log fun _ => delivers_checked
  | truncate =>
    exact delivers_path fun _ => delivers_dropped
  | fsync =>
    refine .after silent_log fun _ => ?_
    split
    · exact delivers_dropped
    · exact delivers_dropped
  | mknod =>
    refine delivers_path fun _ => ?_
    split
    · refine .call fun n _ => ?_
      rw [if_neg (by omega)]
      exact delivers_checked
    · split
      · exact delivers_checked
      · exact delivers_checked
  | chmod =>
    refine delivers_path fun _ => ?_
    split
    · exact .after silent_log fun _ => .pure (Int.le_refl 0)
    · exact delivers_checked
  | getxattr =>
    refine delivers_path fun _ => .call fun n _ => ?_
    rw [if_neg (by omega)]
    exact .after silent_log fun _ => .pure (Int.natCast_nonneg n)
  | listxattr =>
    exact delivers_path fun _ =>
      delivers_checked.bind fun _ hr => .after silent_log fun _ =>
        .after silent_logNames fun _ => .pure hr

end

theorem delivers_checkedCall : Delivers Documented (0 ≤ ·) (checkedCall c) := by
  refine .call fun n _ => ?_
  rw [if_neg (by omega)]
  exact .pure (Int.natCast_nonneg n)

theorem delivers_keeping {p : Prog FuseCall Int} (h : Delivers Documented (0 ≤ ·) p) :
    Delivers Documented (fun r => 0 ≤ r.1) (keeping p) :=
  h.bind fun _ hr => .pure hr

theorem delivers_setting {p : Prog FuseCall (Int × Int)}
    (h : Delivers Documented (fun r => 0 ≤ r.1) p) :
    Delivers Documented (fun r => 0 ≤ r.1) (setting p) :=
  h.bind fun _ hr => .pure hr

theorem delivers_fullpath {α : Type} {Q : α → Prop} {k : String → Prog FuseCall α}
    (h : ∀ fpath, Delivers Documented Q (k fpath)) :
    Delivers Documented Q (log >>= fun _ => fullpath bb path >>= k) :=
  .after silent_log fun _ => .after silent_fullpath h

theorem delivers_bbGetattr : Delivers Documented (0 ≤ ·) (bbGetattr bb path) := by
  refine delivers_fullpath fun _ => .call fun n hn => ?_
  obtain rfl : n = 0 := hn
  exact .bind (.pure (Q := (0 ≤ ·)) (Int.le_refl 0)) fun _ hr => .after silent_log fun _ => .pure hr

theorem delivers_bbReadlink {size : Nat} :
    Delivers Documented (fun r => 0 ≤ r.1) (bbReadlink bb path size) := by
  refine delivers_fullpath fun _ => .call fun n _ => ?_
  rw [if_neg (by omega)]
  exact .pure (Int.le_refl 0)

theorem pointer_natCast (n : Nat) : pointer n = n := if_neg (by omega)

theorem delivers_bbOpendir : Delivers Documented (fun r => 0 ≤ r.1) (bbOpendir bb path) := by
  refine delivers_fullpath fun _ => .call fun n hn => ?_
  rw [pointer_natCast, if_neg (Int.ofNat_ne_zero.2 hn)]
  exact .bind (.pure (Q := (0 ≤ ·)) (Int.le_refl 0)) fun _ hr => .after silent_log fun _ => .pure hr

theorem delivers_serve {op : FuseOp} (hop : ¬ op.Lists) :
    Delivers Documented (fun r => 0 ≤ r.1) (op.serve bb) := by
  cases op with
  | oper op =>
    cases op with
    | «open» | create => exact delivers_setting delivers_opening.mapCall
    | _ => exact delivers_keeping delivers_handler.mapCall
  | getattr => exact delivers_keeping delivers_bbGetattr
  | readlink => exact delivers_keeping (delivers_bbReadlink.bind fun _ hr => .pure hr)
  | statfs =>
    refine delivers_keeping (delivers_fullpath fun _ => ?_)
    exact delivers_checkedCall.bind fun _ hr => .after silent_log fun _ => .pure hr
  | flush | fsyncdir =>
    exact delivers_keeping (.after silent_log fun _ => .pure (Int.le_refl 0))
  | release =>
    refine delivers_keeping (.after silent_log fun _ => .call fun n _ => ?_)
    exact .pure (Int.natCast_nonneg n)
  | opendir => exact delivers_setting delivers_bbOpendir
  | readdir => exact absurd trivial hop
  | releasedir =>
    exact delivers_keeping (.after silent_log fun _ => .call fun _ _ => .pure (Int.le_refl 0))
  | access =>
    refine delivers_keeping (delivers_fullpath fun _ => ?_)
    exact delivers_checkedCall
  | fgetattr =>
    refine delivers_keeping (.after silent_log fun _ => ?_)
    exact delivers_checkedCall.bind fun _ hr => .after silent_log fun _ => .pure hr

/-! ## Defined behaviour -/

theorem safe_reportError : Safe reportError := safe_bbError.mapCall

theorem safe_checkedCall : Safe (checkedCall c) := by
  refine safe_call.bind fun retstat => ?_
  split
  · exact safe_reportError
  · exact safe_pure

/-- A message may follow. -/
theorem safe_logged {p : Prog FuseCall Int} (h : Safe p) :
    Safe (p >>= fun retstat => log >>= fun _ => pure retstat) :=
  h.bind fun _ => safe_log.bind fun _ => safe_pure

theorem safe_fullpath {α : Type} {k : String → Prog FuseCall α} (h : bb.Fits path)
    (hk : ∀ fpath, Safe (k fpath)) : Safe (log >>= fun _ => fullpath bb path >>= k) :=
  safe_log.bind fun _ => (safe_bbFullpath h).mapCall.bind hk

theorem safe_keeping {p : Prog FuseCall Int} (h : Safe p) : Safe (keeping p) :=
  h.bind fun _ => safe_pure

theorem safe_setting {p : Prog FuseCall (Int × Int)} (h : Safe p) : Safe (setting p) :=
  h.bind fun _ => safe_pure

theorem safe_bbGetattr (h : bb.Fits path) : Safe (bbGetattr bb path) := by
  refine safe_fullpath h fun _ => safe_call.bind fun retstat => ?_
  split
  · exact safe_logged safe_reportError
  · exact safe_logged safe_pure

theorem safe_bbReadlink {size : Nat} (h : bb.Fits path) : Safe (bbReadlink bb path size) := by
  refine safe_fullpath h fun _ => safe_call.bind fun retstat => ?_
  split
  · exact safe_reportError.bind fun _ => safe_pure
  · exact safe_pure

theorem safe_bbOpendir (h : bb.Fits path) : Safe (bbOpendir bb path) := by
  refine safe_fullpath h fun _ => safe_call.bind fun dp => ?_
  split
  · exact safe_reportError.bind fun _ => safe_log.bind fun _ => safe_pure
  · exact safe_pure.bind fun _ => safe_log.bind fun _ => safe_pure

theorem safe_fillLoop {dp : Int} {room : Nat} : Safe (fillLoop dp room) := by
  induction room with
  | zero => exact safe_log.bind fun _ => safe_log.bind fun _ => safe_pure
  | succ room ih =>
    refine safe_log.bind fun _ => safe_call.bind fun de => ?_
    split
    · exact ih
    · exact safe_log.bind fun _ => safe_pure

theorem safe_bbReaddir {room : Nat} {fh : Int} : Safe (bbReaddir room fh) := by
  refine safe_log.bind fun _ => safe_call.bind fun de => ?_
  split
  · exact safe_reportError
  · exact safe_fillLoop

/-- A request whose behaviour is defined does not go wrong. -/
theorem safe_serve {op : FuseOp} (h : op.Defined bb) : Safe (op.serve bb) := by
  obtain ⟨hfits, hbuffer⟩ := h
  cases op with
  | oper op =>
    have hdefined : op.Defined bb :=
      ⟨hfits, fun path list hop => hbuffer path list (congrArg FuseOp.oper hop)⟩
    cases op with
    | «open» path | create path =>
      exact safe_setting (safe_opening (List.forall_mem_singleton.1 hfits)).mapCall
    | _ => exact safe_keeping (safe_handler hdefined).mapCall
  | getattr => exact safe_keeping (safe_bbGetattr (List.forall_mem_singleton.1 hfits))
  | readlink =>
    refine safe_keeping (Safe.bind ?_ fun _ => safe_pure)
    exact safe_bbReadlink (List.forall_mem_singleton.1 hfits)
  | statfs =>
    refine safe_keeping (safe_fullpath (List.forall_mem_singleton.1 hfits) fun _ => ?_)
    exact safe_logged safe_checkedCall
  | flush | fsyncdir => exact safe_keeping (safe_log.bind fun _ => safe_pure)
  | release => exact safe_keeping (safe_log.bind fun _ => safe_call)
  | opendir => exact safe_setting (safe_bbOpendir (List.forall_mem_singleton.1 hfits))
  | readdir => exact safe_keeping safe_bbReaddir
  | releasedir =>
    exact safe_keeping (safe_log.bind fun _ => safe_call.bind fun _ => safe_pure)
  | access =>
    refine safe_keeping (safe_fullpath (List.forall_mem_singleton.1 hfits) fun _ => ?_)
    exact safe_checkedCall
  | fgetattr => exact safe_keeping (safe_log.bind fun _ => safe_logged safe_checkedCall)

/-- **What a negative number from a handler means.** In every execution of every handler but
`bb_readdir`, with any arguments for which its behaviour is defined, the handler returns. If one of
its calls has failed, it returns the number of the error, negated, but for `bb_truncate`, `bb_fsync`
and `bb_release`, which return `-1`, and `bb_releasedir`, which returns zero. If none has, what it
returns is not negative. -/
theorem handler_reports {op : FuseOp} {err : Nat} {tr : List (FuseCall × Except Nat Nat)}
    {r : Option (Int × Option Int)} (hop : ¬ op.Lists) (hdefined : op.Defined bb)
    (h : Ends (op.serve bb) err tr r) :
    ∃ a, r = some a ∧ (∀ c e, (c, .error e) ∈ tr → a.1 = op.reported e) ∧
      ((∀ c r', (c, r') ∈ tr → ∃ n, r' = .ok n ∧ Documented c n) → 0 ≤ a.1) := by
  obtain ⟨a, err', rfl, hexec⟩ := (safe_serve hdefined).ends h
  refine ⟨a, rfl, fun c e hc => ?_, delivers_serve hop _ _ _ _ hexec⟩
  obtain ⟨fh, hreturns⟩ : ∃ fh, Returns (fun e => (op.reported e, fh)) (op.serve bb) :=
    returns_serve hop
  rw [hreturns _ _ _ _ hexec c e hc]

/-- A `release` whose `close` fails with `EIO`. -/
theorem release_exec : Exec ((FuseOp.release 3).serve mounted) 0
    [(.sys (.close 3), .error 5)] (-1, none) 5 :=
  .log 0 (.error .ret)

/-- An `opendir` that succeeds. -/
theorem opendir_exec : Exec ((FuseOp.opendir "/a").serve mounted) 0
    [(.opendir "/root/a", .ok 7)] (0, some 7) 0 :=
  .log 0 (.log 0 (.ok (show Exec _ 0 _ _ _ from .log 0 .ret)))

theorem handler_reports_release :
    (∃ a : Int × Option Int, some (-1, none) = some a ∧ a.1 = (FuseOp.release 3).reported 5) ∧
    ∃ a : Int × Option Int, some (0, some 7) = some a ∧ 0 ≤ a.1 := by
  refine ⟨?_, ?_⟩
  · have hdefined : (FuseOp.release 3).Defined mounted :=
      ⟨fun _ hpath => absurd hpath List.not_mem_nil, fun _ _ h => nomatch h⟩
    obtain ⟨a, ha, hfailed, -⟩ := handler_reports id hdefined release_exec.ends
    exact ⟨a, ha, hfailed _ _ (List.mem_singleton_self _)⟩
  · have hdefined : (FuseOp.opendir "/a").Defined mounted :=
      ⟨List.forall_mem_singleton.2 (by decide), fun _ _ h => nomatch h⟩
    obtain ⟨a, ha, -, hok⟩ := handler_reports id hdefined opendir_exec.ends
    refine ⟨a, ha, hok fun c r hc => ?_⟩
    cases List.mem_singleton.1 hc
    exact ⟨7, rfl, (by decide : 7 ≠ 0)⟩

/-! ## Paths -/

/-- The paths that the kernel looks up for a call. -/
def FuseCall.paths : FuseCall → List String
  | .sys c => c.paths
  | .lstat path | .readlink path _ | .statvfs path | .opendir path | .access path _ => [path]
  | .readdir _ | .closedir _ | .fstat _ => []

/-- The calls that the handler of an operation may make. -/
def Operation.Makes (bb : BbState) : Operation → SysCall → Prop
  | .mknod path mode dev, c => c = .«open» (bb.rootdir ++ path) createFlags (some mode) ∨
      (∃ fd, c = .close fd) ∨ c = .mkfifo (bb.rootdir ++ path) mode ∨
      c = .mknod (bb.rootdir ++ path) mode dev
  | .mkdir path mode, c => c = .mkdir (bb.rootdir ++ path) mode
  | .unlink path, c => c = .unlink (bb.rootdir ++ path)
  | .rmdir path, c => c = .rmdir (bb.rootdir ++ path)
  | .symlink path target, c => c = .symlink path (bb.rootdir ++ target)
  | .rename path newpath, c => c = .rename (bb.rootdir ++ path) (bb.rootdir ++ newpath)
  | .link path newpath, c => c = .link (bb.rootdir ++ path) (bb.rootdir ++ newpath)
  | .chmod path mode, c => c = .chmod (bb.rootdir ++ path) mode
  | .chown path uid gid, c => c = .chown (bb.rootdir ++ path) uid gid
  | .truncate path newsize, c => c = .truncate (bb.rootdir ++ path) newsize
  | .utime path ubuf, c => c = .utime (bb.rootdir ++ path) ubuf
  | .«open» path flags, c => c = .«open» (bb.rootdir ++ path) flags none
  | .read size offset fh, c => c = .pread fh size offset
  | .write _ offset fh, c => ∃ data, c = .pwrite fh data offset
  | .fsync _ fh, c => c = .fdatasync fh ∨ c = .fsync fh
  | .setxattr path name value flags, c => c = .lsetxattr (bb.rootdir ++ path) name value flags
  | .getxattr path name size, c => c = .lgetxattr (bb.rootdir ++ path) name size
  | .listxattr path list, c => c = .llistxattr (bb.rootdir ++ path) list.size
  | .removexattr path name, c => c = .lremovexattr (bb.rootdir ++ path) name
  | .create path mode, c => c = .creat (bb.rootdir ++ path) mode
  | .ftruncate offset fh, c => c = .ftruncate fh offset

section
variable {P : SysCall → Prop} {c : SysCall}

theorem calls_bbError : Calls P bbError := fun _ => trivial

theorem calls_checked (h : P c) : Calls P (checked c) := by
  refine (calls_call h).bind fun retstat => ?_
  split
  · exact calls_bbError
  · exact calls_pure

theorem calls_dropped (h : P c) : Calls P (dropped c) := by
  refine (calls_call h).bind fun retstat => ?_
  split
  · exact calls_bbError.bind fun _ => calls_pure
  · exact calls_pure

theorem calls_logNames {list : FuseBuffer} {retstat : Int} : Calls P (logNames list retstat) := by
  unfold logNames
  split
  · split
    · exact calls_wrong
    · exact calls_log
  · exact calls_pure

/-- What comes after the path has been made absolute. -/
theorem calls_bbFullpath {α : Type} {k : String → Prog SysCall α}
    (h : Calls P (k (bb.rootdir ++ path))) : Calls P (bbFullpath bb path >>= k) := by
  unfold bbFullpath
  split
  · exact h
  · exact calls_wrong

theorem calls_path {α : Type} {k : String → Prog SysCall α}
    (h : Calls P (k (bb.rootdir ++ path))) :
    Calls P (log >>= fun _ => bbFullpath bb path >>= k) :=
  calls_log.bind fun _ => calls_bbFullpath h

theorem calls_onPath {c : String → SysCall} (h : P (c (bb.rootdir ++ path))) :
    Calls P (onPath bb path c) :=
  calls_path (calls_checked h)

theorem calls_onPaths {c : String → String → SysCall}
    (h : P (c (bb.rootdir ++ path) (bb.rootdir ++ newpath))) :
    Calls P (onPaths bb path newpath c) :=
  calls_path (calls_bbFullpath (calls_checked h))

theorem calls_onHandle (h : P c) : Calls P (onHandle c) := calls_checked h

theorem calls_opening {c : String → SysCall} (h : P (c (bb.rootdir ++ path))) :
    Calls P (opening bb path c) := by
  refine calls_path ((calls_call h).bind fun fd => ?_)
  split
  · exact calls_bbError.bind fun _ => calls_log.bind fun _ => calls_pure
  · exact calls_pure.bind fun _ => calls_log.bind fun _ => calls_pure

end

theorem calls_handler {op : Operation} : Calls (op.Makes bb) (op.handler bb) := by
  cases op with
  | mkdir | unlink | rmdir | symlink | chown | utime | setxattr | removexattr =>
    exact calls_onPath rfl
  | rename | link => exact calls_onPaths rfl
  | «open» | create => exact .bind (calls_opening rfl) fun _ => calls_pure
  | read | ftruncate => exact calls_onHandle rfl
  | write => exact calls_log.bind fun _ => calls_checked ⟨_, rfl⟩
  | truncate => exact calls_path (calls_dropped rfl)
  | fsync =>
    refine calls_log.bind fun _ => ?_
    split
    · exact calls_dropped (.inl rfl)
    · exact calls_dropped (.inr rfl)
  | mknod =>
    refine calls_path ?_
    split
    · refine (calls_call (.inl rfl)).bind fun fd => ?_
      split
      · exact calls_bbError
      · exact calls_checked (.inr (.inl ⟨_, rfl⟩))
    · split
      · exact calls_checked (.inr (.inr (.inl rfl)))
      · exact calls_checked (.inr (.inr (.inr rfl)))
  | chmod =>
    refine calls_path ?_
    split
    · exact calls_log.bind fun _ => calls_pure
    · exact calls_checked rfl
  | getxattr =>
    refine calls_path (.bind (calls_call rfl) fun retstat => ?_)
    split
    · exact calls_bbError
    · exact calls_log.bind fun _ => calls_pure
  | listxattr =>
    exact calls_path (.bind (calls_checked rfl) fun _ => calls_log.bind fun _ =>
      calls_logNames.bind fun _ => calls_pure)

/-- The calls that the handler of a request may make. -/
def FuseOp.Makes (bb : BbState) : FuseOp → FuseCall → Prop
  | .oper op, c => ∃ c', c = .sys c' ∧ op.Makes bb c'
  | .getattr path, c => c = .lstat (bb.rootdir ++ path)
  | .readlink path size, c => c = .readlink (bb.rootdir ++ path) ((size + (2 ^ 64 - 1)) % 2 ^ 64)
  | .statfs path, c => c = .statvfs (bb.rootdir ++ path)
  | .flush _, _ | .fsyncdir _, _ => False
  | .release fh, c => c = .sys (.close fh)
  | .opendir path, c => c = .opendir (bb.rootdir ++ path)
  | .readdir _ fh, c => c = .readdir fh
  | .releasedir fh, c => c = .closedir fh
  | .access path mask, c => c = .access (bb.rootdir ++ path) mask
  | .fgetattr fh, c => c = .fstat fh

section
variable {P : FuseCall → Prop}

theorem calls_reportError : Calls P reportError := fun _ => trivial

theorem calls_checkedCall (h : P c) : Calls P (checkedCall c) := by
  refine (calls_call h).bind fun retstat => ?_
  split
  · exact calls_reportError
  · exact calls_pure

theorem calls_fullpath {α : Type} {k : String → Prog FuseCall α}
    (h : Calls P (k (bb.rootdir ++ path))) :
    Calls P (log >>= fun _ => fullpath bb path >>= k) := by
  refine calls_log.bind fun _ => ?_
  unfold fullpath bbFullpath
  split
  · exact h
  · exact calls_wrong

theorem calls_fillLoop {dp : Int} {room : Nat} (h : P (.readdir dp)) :
    Calls P (fillLoop dp room) := by
  induction room with
  | zero => exact calls_log.bind fun _ => calls_log.bind fun _ => calls_pure
  | succ room ih =>
    refine calls_log.bind fun _ => (calls_call h).bind fun de => ?_
    split
    · exact ih
    · exact calls_log.bind fun _ => calls_pure

theorem calls_keeping {p : Prog FuseCall Int} (h : Calls P p) : Calls P (keeping p) :=
  h.bind fun _ => calls_pure

theorem calls_setting {p : Prog FuseCall (Int × Int)} (h : Calls P p) : Calls P (setting p) :=
  h.bind fun _ => calls_pure

end

theorem calls_serve {op : FuseOp} : Calls (op.Makes bb) (op.serve bb) := by
  cases op with
  | oper op =>
    have hhandler : Calls (FuseOp.Makes bb (.oper op)) ((op.handler bb).mapCall .sys) :=
      (calls_handler.imp fun c hc => ⟨c, rfl, hc⟩).mapCall
    cases op with
    | «open» | create => exact calls_setting (calls_opening ⟨_, rfl, rfl⟩).mapCall
    | _ => exact calls_keeping hhandler
  | getattr =>
    refine calls_keeping (calls_fullpath (.bind (calls_call rfl) fun retstat => ?_))
    split
    · exact calls_reportError.bind fun _ => calls_log.bind fun _ => calls_pure
    · exact calls_pure.bind fun _ => calls_log.bind fun _ => calls_pure
  | readlink =>
    refine calls_keeping (.bind (calls_fullpath (.bind (calls_call rfl) fun retstat => ?_))
      fun _ => calls_pure)
    split
    · exact calls_reportError.bind fun _ => calls_pure
    · exact calls_pure
  | statfs =>
    exact calls_keeping (calls_fullpath (.bind (calls_checkedCall rfl) fun _ =>
      calls_log.bind fun _ => calls_pure))
  | flush | fsyncdir => exact calls_keeping (calls_log.bind fun _ => calls_pure)
  | release => exact calls_keeping (calls_log.bind fun _ => calls_call rfl)
  | opendir =>
    refine calls_setting (calls_fullpath (.bind (calls_call rfl) fun dp => ?_))
    split
    · exact calls_reportError.bind fun _ => calls_log.bind fun _ => calls_pure
    · exact calls_pure.bind fun _ => calls_log.bind fun _ => calls_pure
  | readdir =>
    refine calls_keeping (calls_log.bind fun _ => .bind (calls_call rfl) fun de => ?_)
    split
    · exact calls_reportError
    · exact calls_fillLoop rfl
  | releasedir =>
    exact calls_keeping (calls_log.bind fun _ => .bind (calls_call rfl) fun _ => calls_pure)
  | access => exact calls_keeping (calls_fullpath (calls_checkedCall rfl))
  | fgetattr =>
    exact calls_keeping (calls_log.bind fun _ => .bind (calls_checkedCall rfl) fun _ =>
      calls_log.bind fun _ => calls_pure)

theorem Operation.Makes.paths {op : Operation} {c : SysCall} (h : op.Makes bb c) :
    c.paths = [] ∨ c.paths = op.paths.map (bb.rootdir ++ ·) := by
  cases op with
  | mknod =>
    rcases h with rfl | ⟨fd, rfl⟩ | rfl | rfl
    · exact .inr rfl
    · exact .inl rfl
    · exact .inr rfl
    · exact .inr rfl
  | fsync =>
    rcases h with rfl | rfl
    · exact .inl rfl
    · exact .inl rfl
  | write =>
    obtain ⟨data, rfl⟩ := h
    exact .inl rfl
  | _ =>
    obtain rfl := h
    exact .inr rfl

theorem FuseOp.Makes.paths {op : FuseOp} (h : op.Makes bb c) :
    c.paths = [] ∨ c.paths = op.paths.map (bb.rootdir ++ ·) := by
  cases op with
  | oper op =>
    obtain ⟨c', rfl, hc'⟩ := h
    exact hc'.paths
  | flush | fsyncdir => exact h.elim
  | _ =>
    obtain rfl := h
    exact .inr rfl

/-- **Which paths the underlying file system is asked for.** In every execution of every handler,
with any arguments for which its behaviour is defined (the paths fit into `fpath`) and whatever
fails, a call names no path, or exactly the paths of the request, in their order, each behind the
root directory of the mount. -/
theorem calls_below_rootdir {op : FuseOp} {err : Nat} {tr : List (FuseCall × Except Nat Nat)}
    {r : Option (Int × Option Int)} (hdefined : op.Defined bb) (h : Ends (op.serve bb) err tr r) :
    ∀ x ∈ tr, x.1.paths = [] ∨ x.1.paths = op.paths.map (bb.rootdir ++ ·) := by
  obtain ⟨a, err', rfl, hexec⟩ := (safe_serve hdefined).ends h
  exact fun x hx => (calls_serve.exec hexec x hx).paths

/-- The link `/a` to `/etc`, which lies outside the mount. -/
theorem symlink_exec : Exec ((FuseOp.oper (.symlink "/etc" "/a")).serve mounted) 0
    [(.sys (.symlink "/etc" "/root/a"), .ok 0)] (0, none) 0 :=
  .log 0 (.log 0 (.ok .ret))

theorem calls_below_rootdir_symlink :
    (FuseCall.sys (.symlink "/etc" "/root/a")).paths = [] ∨
      (FuseCall.sys (.symlink "/etc" "/root/a")).paths = ["/root/a"] := by
  have hdefined : (FuseOp.oper (.symlink "/etc" "/a")).Defined mounted :=
    ⟨List.forall_mem_singleton.2 (by decide), fun _ _ h => nomatch h⟩
  exact calls_below_rootdir hdefined symlink_exec.ends _ (List.mem_singleton_self _)

/-! ## The listing of a stream

`bbReaddir` on the entries of a stream returns what the handler returns, when the calls of `readdir`
return these entries and then `NULL`.
-/

/-- The results of the calls are those of the stream. -/
def FromStream : Dir → List (FuseCall × Except Nat Nat) → Prop
  | _, [] => True
  | dp, (_, res) :: tr =>
    match dp.readdir with
    | (none, dp') => res = .ok 0 ∧ FromStream dp' tr
    | (some _, dp') => (∃ n, n ≠ 0 ∧ res = .ok n) ∧ FromStream dp' tr

section
variable {err err' room size : Nat} {tr : List (FuseCall × Except Nat Nat)} {fh r : Int} {dp : Dir}

/-- The first call is at the end of the stream, or it has returned an entry. -/
theorem FromStream.cons_inv {res : Except Nat Nat} (h : FromStream dp ((c, res) :: tr)) :
    (res = .ok 0 ∧ ∃ dp', dp.readdir = (none, dp')) ∨
      ∃ n de dp', res = .ok n ∧ n ≠ 0 ∧ dp.readdir = (some de, dp') ∧ FromStream dp' tr := by
  rw [FromStream] at h
  split at h
  · next dp' hread => exact .inl ⟨h.1, dp', hread⟩
  · next de dp' hread =>
    obtain ⟨⟨n, hn, hres⟩, hrest⟩ := h
    exact .inr ⟨n, de, dp', hres, hn, hread, hrest⟩

theorem fillLoop_exec {filled : List (String × Bool)} {de : String}
    (h : Exec (fillLoop fh room) err tr r err') (hdp : FromStream dp tr)
    (hroom : filled.length + room = size) :
    r = (Eece4029.fillLoop (fun names _ => decide (size ≤ names.length)) filled de dp).retstat := by
  induction room generalizing err tr filled de dp with
  | zero =>
    have hfilled : (filledNames filled).length = size := (List.length_map _).trans hroom
    obtain ⟨_, _, hfull⟩ := h.after silent_log
    obtain ⟨_, _, hret⟩ := hfull.after silent_log
    obtain ⟨-, rfl, -⟩ := exec_pure.1 hret
    exact (fillLoop_full (decide_eq_true (Nat.le_of_eq hfilled.symm))).symm
  | succ room ih =>
    have hspace : decide (size ≤ (filledNames filled).length) = false := by
      rw [filledNames, List.length_map]
      exact decide_eq_false (by omega)
    obtain ⟨_, _, hcall⟩ := h.after silent_log
    rcases hcall.call_inv with ⟨n, _, tr', rfl, hok⟩ | ⟨e, tr', rfl, -⟩
    · rcases hdp.cons_inv with ⟨hn, dp', hdone⟩ | ⟨m, de', dp', heq, hm, hnext, hrest⟩
      · cases hn
        obtain ⟨_, _, hret⟩ := hok.after silent_log
        obtain ⟨-, rfl, -⟩ := exec_pure.1 hret
        exact (fillLoop_done hspace hdone).symm
      · cases heq
        rw [pointer_natCast, if_pos (Int.ofNat_ne_zero.2 hm)] at hok
        rw [fillLoop_next hspace hnext]
        refine ih hok hrest ?_
        rw [List.length_append, List.length_singleton]
        omega
    · rcases hdp.cons_inv with ⟨hn, -⟩ | ⟨m, -, -, heq, -⟩
      · cases hn
      · cases heq

/-- What `bb_readdir` returns for a stream, where `errno` is read if there is no entry left. -/
theorem bbReaddir_exec (h : Exec (bbReaddir size fh) err tr r err') (hdp : FromStream dp tr) :
    ∃ errno, r =
      (Eece4029.bbReaddir (fun names _ => decide (size ≤ names.length)) errno dp).retstat := by
  obtain ⟨_, _, hcall⟩ := h.after silent_log
  rcases hcall.call_inv with ⟨n, errno, tr', rfl, hok⟩ | ⟨e, tr', rfl, -⟩
  · refine ⟨errno, ?_⟩
    rcases hdp.cons_inv with ⟨hn, dp', hdone⟩ | ⟨m, de, dp', heq, hm, hnext, hrest⟩
    · cases hn
      obtain ⟨-, rfl⟩ := answers_reportError _ _ _ _ hok
      rw [Eece4029.bbReaddir, hdone]
      rfl
    · cases heq
      rw [pointer_natCast, if_neg (Int.ofNat_ne_zero.2 hm)] at hok
      rw [Eece4029.bbReaddir, hnext]
      exact fillLoop_exec hok hrest (Nat.zero_add size)
  · rcases hdp.cons_inv with ⟨hn, -⟩ | ⟨m, -, -, heq, -⟩
    · cases hn
    · cases heq

end

end BbOper

end Eece4029
