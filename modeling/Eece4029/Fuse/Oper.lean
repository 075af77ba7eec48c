import Eece4029.Fuse.Fullpath
import Eece4029.Fuse.Users
import Eece4029.Fuse.Xattr
import Eece4029.Lib.Errno

/-!
# How failures are reported

FUSE wants an operation that has failed to return the number of the error, negated. The handlers in
`bb_oper` get it from `bb_error`, which reads `errno`, and they make most of their system calls in
the same few ways: the result of a call is returned, and the value of `bb_error` in its place if it
is negative (`checked`). `bb_truncate` and `bb_fsync` call `bb_error`, too, but drop its value and
return the `-1` of the system call (`dropped`). `errors_reported_iff` says that a failure of any
call of any of the operations is reported with its own number but for these two, if the behaviour of
the operation is defined: its paths fit into `fpath`, and `bb_listxattr` has a buffer.

Here are the handlers that change or move data, as programs with system calls, in which messages to
the log may change `errno`. What is logged is left out but for the loop of `bb_listxattr` (that
`value` and `link` are printed as strings is not looked at), and so are the bytes that a call
returns.
-/

namespace Eece4029

open Errno CString Memory

/-! ## System calls -/

/-- The system calls of the handlers, with their arguments. -/
inductive SysCall
  | «open» (path : String) (flags : Nat) (mode : Option Nat)
  | creat (path : String) (mode : Nat)
  | close (fd : Int)
  | mkfifo (path : String) (mode : Nat)
  | mknod (path : String) (mode dev : Nat)
  | mkdir (path : String) (mode : Nat)
  | unlink (path : String)
  | rmdir (path : String)
  | symlink (path link : String)
  | rename (path newpath : String)
  | link (path newpath : String)
  | chmod (path : String) (mode : Nat)
  | chown (path : String) (uid gid : UInt32)
  | truncate (path : String) (newsize : Int)
  | ftruncate (fd offset : Int)
  | utime (path : String) (ubuf : Option (Int × Int))
  | pread (fd : Int) (size : Nat) (offset : Int)
  | pwrite (fd : Int) (data : List UInt8) (offset : Int)
  | fsync (fd : Int)
  | fdatasync (fd : Int)
  | lsetxattr (path name : String) (value : List UInt8) (flags : Int)
  | lgetxattr (path name : String) (size : Nat)
  | llistxattr (path : String) (size : Nat)
  | lremovexattr (path name : String)
deriving DecidableEq

namespace BbOper

/-- A handler: its value is what it returns to FUSE. -/
abbrev Handler := Prog SysCall Int

/-- `bb_error`: `errno` is read before the message is written. -/
def bbError : Handler := do
  let ret ← errno
  log
  return -ret

/-- Return what a system call returns, or the value of `bb_error` if that is negative. -/
def checked (c : SysCall) : Handler := do
  let retstat ← call c
  if retstat < 0 then bbError else return retstat

/-- Return what a system call returns. If that is negative, `bb_error` is called. -/
def dropped (c : SysCall) : Handler := do
  let retstat ← call c
  if retstat < 0 then
    let _ ← bbError
    return retstat
  else
    return retstat

/-- `BB_DATA->rootdir` and the daemon. -/
structure BbState where
  rootdir : String
  daemon : Daemon

variable (bb : BbState)

/-- The path fits into `fpath` behind the root directory. -/
def BbState.Fits (path : String) : Prop :=
  bb.rootdir.utf8ByteSize + path.utf8ByteSize < PATH_MAX

instance (path : String) : Decidable (bb.Fits path) := inferInstanceAs (Decidable (_ < _))

/-- `bb_fullpath`. A path that does not fit is written over whatever is behind the array. -/
def bbFullpath (path : String) : Prog SysCall String :=
  if bb.Fits path then do
    log
    return bb.rootdir ++ path
  else
    wrong

/-- A handler that makes one call, on a path in the underlying file system. -/
def onPath (path : String) (c : String → SysCall) : Handler := do
  log
  let fpath ← bbFullpath bb path
  checked (c fpath)

/-- A handler that makes one call, on two such paths. -/
def onPaths (path newpath : String) (c : String → String → SysCall) : Handler := do
  log
  let fpath ← bbFullpath bb path
  let fnewpath ← bbFullpath bb newpath
  checked (c fpath fnewpath)

/-- A handler that makes one call, on the handle of an open file. -/
def onHandle (c : SysCall) : Handler := do
  log
  checked c

/-- A handler that opens a file: the descriptor goes into `fi->fh`, and what is returned is zero or
the value of `bb_error`. -/
def opening (path : String) (c : String → SysCall) : Prog SysCall (Int × Int) := do
  log
  let fpath ← bbFullpath bb path
  let fd ← call (c fpath)
  let retstat ← if fd < 0 then bbError else pure 0
  log
  return (retstat, fd)

/-! ## The handlers -/

/-- `S_ISREG` and `S_ISFIFO`. -/
def sIsreg (mode : Nat) : Prop := mode &&& 0o170000 = 0o100000

def sIsfifo (mode : Nat) : Prop := mode &&& 0o170000 = 0o010000

instance (mode : Nat) : Decidable (sIsreg mode) := inferInstanceAs (Decidable (_ = _))

instance (mode : Nat) : Decidable (sIsfifo mode) := inferInstanceAs (Decidable (_ = _))

/-- `O_CREAT | O_EXCL | O_WRONLY`. -/
def createFlags : Nat := 0o100 ||| 0o200 ||| 0o1

def bbMknod (path : String) (mode dev : Nat) : Handler := do
  log
  let fpath ← bbFullpath bb path
  if sIsreg mode then
    let retstat ← call (.«open» fpath createFlags (some mode))
    if retstat < 0 then bbError else checked (.close retstat)
  else if sIsfifo mode then
    checked (.mkfifo fpath mode)
  else
    checked (.mknod fpath mode dev)

def bbMkdir (path : String) (mode : Nat) : Handler := onPath bb path fun fpath => .mkdir fpath mode

def bbUnlink (path : String) : Handler := onPath bb path .unlink

def bbRmdir (path : String) : Handler := onPath bb path .rmdir

/-- The link is in the mounted directory, and what it points to is left as it is. -/
def bbSymlink (path link : String) : Handler := onPath bb link fun flink => .symlink path flink

def bbRename (path newpath : String) : Handler := onPaths bb path newpath .rename

def bbLink (path newpath : String) : Handler := onPaths bb path newpath .link

def bbChmod (path : String) (mode : Nat) : Handler := do
  log
  let fpath ← bbFullpath bb path
  if bb.daemon.uid ≠ bb.daemon.getuid then
    log
    return 0
  else
    checked (.chmod fpath mode)

def bbChown (path : String) (uid gid : UInt32) : Handler :=
  onPath bb path fun fpath => .chown fpath uid gid

def bbTruncate (path : String) (newsize : Int) : Handler := do
  log
  let fpath ← bbFullpath bb path
  dropped (.truncate fpath newsize)

def bbUtime (path : String) (ubuf : Option (Int × Int)) : Handler :=
  onPath bb path fun fpath => .utime fpath ubuf

/-- `bb_open`: what it returns and `fi->fh`. -/
def bbOpen (path : String) (flags : Nat) : Prog SysCall (Int × Int) :=
  opening bb path fun fpath => .«open» fpath flags none

def bbRead (size : Nat) (offset fh : Int) : Handler := onHandle (.pread fh size offset)

def bbWrite (buf : List UInt8) (offset fh : Int) : Handler := do
  log
  let data :=
    if bb.daemon.uid = bb.daemon.getuid then buf.map (encrypt bb.daemon.charSigned) else buf
  checked (.pwrite fh data offset)

def bbFsync (datasync fh : Int) : Handler := do
  log
  if datasync ≠ 0 then dropped (.fdatasync fh) else dropped (.fsync fh)

def bbSetxattr (path name : String) (value : List UInt8) (flags : Int) : Handler :=
  onPath bb path fun fpath => .lsetxattr fpath name value flags

def bbGetxattr (path name : String) (size : Nat) : Handler := do
  log
  let fpath ← bbFullpath bb path
  let retstat ← call (.lgetxattr fpath name size)
  if retstat < 0 then
    bbError
  else
    log
    return retstat

/-- A buffer that FUSE passes: it is `NULL` if the size is zero. -/
structure FuseBuffer extends Buffer where
  query : size = 0 → addr = 0

/-- The loop of `bb_listxattr`, which reads the names from `list` on and logs them. In a buffer they
are where `llistxattr` has put them; at `NULL` there is nothing to read. -/
def logNames (list : FuseBuffer) (retstat : Int) : Prog SysCall Unit :=
  if list.addr < ptrAdd list.addr retstat then
    if list.addr = 0 then wrong else log
  else
    pure ()

def bbListxattr (path : String) (list : FuseBuffer) : Handler := do
  log
  let fpath ← bbFullpath bb path
  let retstat ← checked (.llistxattr fpath list.size)
  -- the length
  log
  logNames list retstat
  return retstat

def bbRemovexattr (path name : String) : Handler :=
  onPath bb path fun fpath => .lremovexattr fpath name

/-- `bb_create`: what it returns and `fi->fh`. -/
def bbCreate (path : String) (mode : Nat) : Prog SysCall (Int × Int) :=
  opening bb path fun fpath => .creat fpath mode

def bbFtruncate (offset fh : Int) : Handler := onHandle (.ftruncate fh offset)

/-- The operations in `bb_oper` that change or move data, with their arguments. -/
inductive Operation
  | mknod (path : String) (mode dev : Nat)
  | mkdir (path : String) (mode : Nat)
  | unlink (path : String)
  | rmdir (path : String)
  | symlink (path link : String)
  | rename (path newpath : String)
  | link (path newpath : String)
  | chmod (path : String) (mode : Nat)
  | chown (path : String) (uid gid : UInt32)
  | truncate (path : String) (newsize : Int)
  | utime (path : String) (ubuf : Option (Int × Int))
  | «open» (path : String) (flags : Nat)
  | read (size : Nat) (offset fh : Int)
  | write (buf : List UInt8) (offset fh : Int)
  | fsync (datasync fh : Int)
  | setxattr (path name : String) (value : List UInt8) (flags : Int)
  | getxattr (path name : String) (size : Nat)
  | listxattr (path : String) (list : FuseBuffer)
  | removexattr (path name : String)
  | create (path : String) (mode : Nat)
  | ftruncate (offset fh : Int)

/-- `bb_oper`: the handler of an operation. -/
def Operation.handler : Operation → Handler
  | .mknod path mode dev => bbMknod bb path mode dev
  | .mkdir path mode => bbMkdir bb path mode
  | .unlink path => bbUnlink bb path
  | .rmdir path => bbRmdir bb path
  | .symlink path target => bbSymlink bb path target
  | .rename path newpath => bbRename bb path newpath
  | .link path newpath => bbLink bb path newpath
  | .chmod path mode => bbChmod bb path mode
  | .chown path uid gid => bbChown bb path uid gid
  | .truncate path newsize => bbTruncate bb path newsize
  | .utime path ubuf => bbUtime bb path ubuf
  | .«open» path flags => Prod.fst <$> bbOpen bb path flags
  | .read size offset fh => bbRead size offset fh
  | .write buf offset fh => bbWrite bb buf offset fh
  | .fsync datasync fh => bbFsync datasync fh
  | .setxattr path name value flags => bbSetxattr bb path name value flags
  | .getxattr path name size => bbGetxattr bb path name size
  | .listxattr path list => bbListxattr bb path list
  | .removexattr path name => bbRemovexattr bb path name
  | .create path mode => Prod.fst <$> bbCreate bb path mode
  | .ftruncate offset fh => bbFtruncate offset fh

/-- The paths of an operation, which are relative to the mount. -/
def Operation.paths : Operation → List String
  | .mknod path _ _ | .mkdir path _ | .unlink path | .rmdir path | .symlink _ path | .chmod path _
  | .chown path _ _ | .truncate path _ | .utime path _ | .«open» path _ | .setxattr path _ _ _
  | .getxattr path _ _ | .listxattr path _ | .removexattr path _ | .create path _ => [path]
  | .rename path newpath | .link path newpath => [path, newpath]
  | .read _ _ _ | .write _ _ _ | .fsync _ _ | .ftruncate _ _ => []

/-- The paths fit, and the names of the attributes have a buffer. -/
structure Operation.Defined (op : Operation) : Prop where
  fits : ∀ path ∈ op.paths, bb.Fits path
  buffer : ∀ path list, op = .listxattr path list → list.addr ≠ 0

/-- The operation drops the value of `bb_error`. -/
def Operation.DropsError : Operation → Prop
  | .truncate .. | .fsync .. => True
  | _ => False

/-! ## What a failed call makes a handler return -/

/-- Minus the number of the error. -/
def negated (e : Nat) : Int := -e

variable {bb} {path newpath : String} {c : SysCall}

theorem answers_bbError : Answers negated bbError :=
  answers_errno fun _ => silent_log.answers fun _ => answers_pure

theorem returns_checked : Returns negated (checked c) := by
  refine .call (fun n => ?_) ?_
  · rw [if_neg (by omega)]
    exact silent_pure.returns
  · exact answers_bbError

theorem returns_dropped : Returns (fun _ => -1) (dropped c) := by
  refine .call (fun n => ?_) ?_
  · rw [if_neg (by omega)]
    exact silent_pure.returns
  · exact answers_bbError.silent.answers fun _ => answers_pure

theorem silent_bbFullpath : Silent (bbFullpath bb path) := by
  unfold bbFullpath
  split
  · exact silent_log.bind fun _ => silent_pure
  · exact silent_wrong

/-- A handler begins with a message and makes the path absolute. -/
theorem returns_path {α : Type} {f : Nat → α} {k : String → Prog SysCall α}
    (h : ∀ fpath, Returns f (k fpath)) : Returns f (log >>= fun _ => bbFullpath bb path >>= k) :=
  .after silent_log fun _ => .after silent_bbFullpath h

theorem returns_onPath {c : String → SysCall} : Returns negated (onPath bb path c) :=
  returns_path fun _ => returns_checked

theorem returns_onPaths {c : String → String → SysCall} :
    Returns negated (onPaths bb path newpath c) :=
  returns_path fun _ => .after silent_bbFullpath fun _ => returns_checked

theorem returns_onHandle : Returns negated (onHandle c) :=
  .after silent_log fun _ => returns_checked

/-- `bb_open` and `bb_create` put the `-1` of a failed call into `fi->fh`. -/
theorem returns_opening {c : String → SysCall} :
    Returns (fun e => (negated e, -1)) (opening bb path c) := by
  refine returns_path fun _ => .call (fun n => ?_) ?_
  · rw [if_neg (by omega)]
    exact (silent_pure.bind fun _ => silent_log.bind fun _ => silent_pure).returns
  · exact answers_bbError.bind fun _ => silent_log.answers fun _ => answers_pure

theorem returns_fst_opening {c : String → SysCall} :
    Returns negated (Prod.fst <$> opening bb path c) :=
  returns_opening.bind fun _ => answers_pure

theorem returns_bbMknod {mode dev : Nat} : Returns negated (bbMknod bb path mode dev) := by
  refine returns_path fun _ => ?_
  split
  · refine .call (fun n => ?_) answers_bbError
    rw [if_neg (by omega)]
    exact returns_checked
  · split
    · exact returns_checked
    · exact returns_checked

theorem returns_bbChmod {mode : Nat} : Returns negated (bbChmod bb path mode) := by
  refine returns_path fun _ => ?_
  split
  · exact (silent_log.bind fun _ => silent_pure).returns
  · exact returns_checked

theorem returns_bbGetxattr {name : String} {size : Nat} :
    Returns negated (bbGetxattr bb path name size) := by
  refine returns_path fun _ => .call (fun n => ?_) ?_
  · rw [if_neg (by omega)]
    exact (silent_log.bind fun _ => silent_pure).returns
  · exact answers_bbError

theorem silent_logNames {list : FuseBuffer} {retstat : Int} : Silent (logNames list retstat) := by
  unfold logNames
  split
  · split
    · exact silent_wrong
    · exact silent_log
  · exact silent_pure

theorem returns_bbListxattr {list : FuseBuffer} : Returns negated (bbListxattr bb path list) :=
  returns_path fun _ =>
    returns_checked.bind fun _ => silent_log.answers fun _ =>
      silent_logNames.answers fun _ => answers_pure

/-! ## The operations -/

/-- `EPERM`, which is the error number that a return value of `-1` stands for. -/
def EPERM : Nat := 1

/-- An operation that does not drop the value of `bb_error` returns it. -/
theorem returns_handler {op : Operation} (h : ¬ op.DropsError) :
    Returns negated (op.handler bb) := by
  cases op with
  | mknod => exact returns_bbMknod
  | mkdir | unlink | rmdir | symlink | chown | utime | setxattr | removexattr =>
    exact returns_onPath
  | rename | link => exact returns_onPaths
  | chmod => exact returns_bbChmod
  | «open» | create => exact returns_fst_opening
  | read | ftruncate => exact returns_onHandle
  | write => exact .after silent_log fun _ => returns_checked
  | getxattr => exact returns_bbGetxattr
  | listxattr => exact returns_bbListxattr
  | truncate | fsync => exact absurd trivial h

/-- The two that drop it return `-1`. -/
theorem returns_handler_of_drops {op : Operation} (h : op.DropsError) :
    Returns (fun _ => -1) (op.handler bb) := by
  cases op with
  | truncate =>
    exact returns_path fun _ => returns_dropped
  | fsync =>
    refine .after silent_log fun _ => ?_
    split
    · exact returns_dropped
    · exact returns_dropped
  | _ => exact h.elim

/-! ## Defined behaviour -/

theorem safe_bbError : Safe bbError := fun _ => trivial

theorem safe_checked : Safe (checked c) := by
  refine safe_call.bind fun retstat => ?_
  split
  · exact safe_bbError
  · exact safe_pure

theorem safe_dropped : Safe (dropped c) := by
  refine safe_call.bind fun retstat => ?_
  split
  · exact safe_bbError.bind fun _ => safe_pure
  · exact safe_pure

theorem safe_bbFullpath (h : bb.Fits path) : Safe (bbFullpath bb path) := by
  rw [bbFullpath, if_pos h]
  exact safe_log.bind fun _ => safe_pure

theorem safe_logNames {list : FuseBuffer} {retstat : Int} (h : list.addr ≠ 0) :
    Safe (logNames list retstat) := by
  rw [logNames, if_neg h]
  split
  · exact safe_log
  · exact safe_pure

/-- A handler goes on from a path that fits. -/
theorem safe_path {α : Type} {k : String → Prog SysCall α} (h : bb.Fits path)
    (hk : ∀ fpath, Safe (k fpath)) : Safe (log >>= fun _ => bbFullpath bb path >>= k) :=
  safe_log.bind fun _ => (safe_bbFullpath h).bind hk

theorem safe_opening {c : String → SysCall} (h : bb.Fits path) : Safe (opening bb path c) := by
  refine safe_path h fun _ => safe_call.bind fun fd => ?_
  split
  · exact safe_bbError.bind fun _ => safe_log.bind fun _ => safe_pure
  · exact safe_pure.bind fun _ => safe_log.bind fun _ => safe_pure

/-- An operation whose behaviour is defined does not go wrong. -/
theorem safe_handler {op : Operation} (h : op.Defined bb) : Safe (op.handler bb) := by
  obtain ⟨hfits, hbuffer⟩ := h
  cases op with
  | mkdir path | unlink path | rmdir path | chown path | utime path | setxattr path
  | removexattr path | symlink _ path =>
    exact safe_path (List.forall_mem_singleton.1 hfits) fun _ => safe_checked
  | rename path newpath | link path newpath =>
    obtain ⟨hpath, hrest⟩ := List.forall_mem_cons.1 hfits
    have hnew := List.forall_mem_singleton.1 hrest
    exact safe_path hpath fun _ => (safe_bbFullpath hnew).bind fun _ => safe_checked
  | «open» path | create path =>
    exact (safe_opening (List.forall_mem_singleton.1 hfits)).bind fun _ => safe_pure
  | read | ftruncate | write => exact safe_log.bind fun _ => safe_checked
  | truncate path => exact safe_path (List.forall_mem_singleton.1 hfits) fun _ => safe_dropped
  | fsync =>
    refine safe_log.bind fun _ => ?_
    split
    · exact safe_dropped
    · exact safe_dropped
  | mknod path =>
    refine safe_path (List.forall_mem_singleton.1 hfits) fun fpath => ?_
    split
    · refine safe_call.bind fun retstat => ?_
      split
      · exact safe_bbError
      · exact safe_checked
    · split
      · exact safe_checked
      · exact safe_checked
  | chmod path =>
    refine safe_path (List.forall_mem_singleton.1 hfits) fun fpath => ?_
    split
    · exact safe_log.bind fun _ => safe_pure
    · exact safe_checked
  | getxattr path =>
    refine safe_path (List.forall_mem_singleton.1 hfits) fun fpath => safe_call.bind fun _ => ?_
    split
    · exact safe_bbError
    · exact safe_log.bind fun _ => safe_pure
  | listxattr path list =>
    refine safe_path (List.forall_mem_singleton.1 hfits) fun fpath => safe_checked.bind fun _ => ?_
    exact safe_log.bind fun _ => (safe_logNames (hbuffer path list rfl)).bind fun _ => safe_pure

variable {op : Operation} {err err' e : Nat} {tr : List (SysCall × Except Nat Nat)}

/-- A handler that returns has had a path that fits. -/
theorem exec_bbFullpath {α : Type} {k : String → Prog SysCall α} {a : α}
    (h : Exec (bbFullpath bb path >>= k) err tr a err') :
    bb.Fits path ∧ ∃ err₁, Exec (k (bb.rootdir ++ path)) err₁ tr a err' := by
  unfold bbFullpath at h
  split at h
  · next hfits =>
    cases h with
    | log err₁ h => exact ⟨hfits, err₁, h⟩
  · cases h

theorem exec_path {α : Type} {k : String → Prog SysCall α} {a : α}
    (h : Exec (log >>= fun _ => bbFullpath bb path >>= k) err tr a err') :
    bb.Fits path ∧ ∃ err₁, Exec (k (bb.rootdir ++ path)) err₁ tr a err' := by
  obtain ⟨_, _, hpath⟩ := h.after silent_log
  exact exec_bbFullpath hpath

variable {r : Int}

theorem exec_fits (h : Exec (op.handler bb) err tr r err') : ∀ path ∈ op.paths, bb.Fits path := by
  cases op with
  | read | write | fsync | ftruncate => exact fun _ hpath => absurd hpath List.not_mem_nil
  | rename path newpath | link path newpath =>
    obtain ⟨hfits, _, hnew⟩ := exec_path h
    exact List.forall_mem_cons.2 ⟨hfits, List.forall_mem_singleton.2 (exec_bbFullpath hnew).1⟩
  | «open» path | create path =>
    obtain ⟨_, _, _, _, -, hopen, -⟩ := h.bind_inv
    exact List.forall_mem_singleton.2 (exec_path hopen).1
  | _ => exact List.forall_mem_singleton.2 (exec_path h).1

/-- The loop over the names is not entered at `NULL`. -/
theorem exec_logNames {list : FuseBuffer} {retstat : Int}
    (h : Exec (logNames list retstat) err tr () err')
    (hlt : list.addr < ptrAdd list.addr retstat) : list.addr ≠ 0 := by
  rw [logNames, if_pos hlt] at h
  split at h
  · cases h
  · assumption

theorem exec_buffer {list : FuseBuffer} (h : Exec (bbListxattr bb path list) err tr r err')
    (hc : (c, .error e) ∈ tr) (he : IsErrno e) : list.addr ≠ 0 := by
  obtain ⟨-, _, hlist⟩ := exec_path h
  obtain ⟨tr₁, tr₂, retstat, _, rfl, hcall, hlog⟩ := hlist.bind_inv
  obtain ⟨_, _, hnames⟩ := hlog.after silent_log
  obtain ⟨_, _, _, _, rfl, hloop, hret⟩ := hnames.bind_inv
  obtain ⟨rfl, -, -⟩ := exec_pure.1 hret
  obtain rfl := silent_logNames _ _ _ _ hloop
  -- the only call is the one that has failed
  rw [List.append_nil, List.append_nil] at hc
  obtain rfl : retstat = -e := returns_checked _ _ _ _ hcall c e hc
  intro hnull
  exact exec_logNames hloop ((Buffer.lt_ptrAdd_bbError he).2 hnull) hnull

/-- An operation that returns after a failed call was defined. -/
theorem defined_of_exec (h : Exec (op.handler bb) err tr r err') (hc : (c, .error e) ∈ tr)
    (he : IsErrno e) : op.Defined bb := by
  refine ⟨exec_fits h, ?_⟩
  rintro path list rfl
  exact exec_buffer h hc he

/-- **When a failure is reported with its own error number.** In every execution of every operation,
with any arguments, and for every system call in it that fails, the operation returns the number of
the error, negated, exactly if its behaviour is defined and it is not `bb_truncate` or `bb_fsync`;
these do only for `EPERM`. -/
theorem errors_reported_iff {r : Option Int} (he : IsErrno e) (h : Ends (op.handler bb) err tr r)
    (hc : (c, .error e) ∈ tr) :
    r = some (-(e : Int)) ↔ op.Defined bb ∧ (op.DropsError → e = EPERM) := by
  cases r with
  | none =>
    refine iff_of_false (fun h => nomatch h) ?_
    rintro ⟨hdefined, -⟩
    exact (safe_handler hdefined).not_goesWrong h
  | some r =>
    obtain ⟨err', hexec⟩ := h
    rw [Option.some_inj, and_iff_right (defined_of_exec hexec hc he)]
    by_cases hdrops : op.DropsError
    · have hr : r = -1 := returns_handler_of_drops hdrops _ _ _ _ hexec c e hc
      rw [imp_iff_right hdrops, hr, EPERM]
      omega
    · have hr : r = -e := returns_handler hdrops _ _ _ _ hexec c e hc
      exact iff_of_true hr fun hd => absurd hd hdrops

/-- A state of the mount, with its own user as the daemon. -/
def mounted : BbState := ⟨"/root", ownerDaemon⟩

/-- A `mkdir` in a directory that does not exist: the error is `ENOENT`. -/
theorem mkdir_exec : Exec ((Operation.mkdir "/a/b" 0o755).handler mounted) 0
    [(.mkdir "/root/a/b" 0o755, .error 2)] (-2) 0 :=
  .log 0 (.log 0 (.error (.errno (.log 0 .ret))))

/-- A `truncate` of a file that does not exist. -/
theorem truncate_exec : Exec ((Operation.truncate "/a" 0).handler mounted) 0
    [(.truncate "/root/a" 0, .error 2)] (-1) 0 :=
  .log 0 (.log 0 (.error (.errno (.log 0 .ret))))

/-- A query for the length of the names that fails with `ENOTSUP`. -/
def nullList : FuseBuffer := ⟨nullBuffer, fun _ => rfl⟩

theorem query_goesWrong : GoesWrong ((Operation.listxattr "/a" nullList).handler mounted) 0
    [(.llistxattr "/root/a" 0, .error 95)] :=
  .log 0 (.log 0 (.error (.errno (.log 0 (.log 0 .wrong)))))

theorem errors_reported_iff_truncate : ¬ some (-1 : Int) = some (-(2 : Nat) : Int) ∧
    some (-2 : Int) = some (-(2 : Nat) : Int) ∧ ¬ none = some (-(95 : Nat) : Int) := by
  refine ⟨?_, ?_, ?_⟩
  · rw [errors_reported_iff (by decide) truncate_exec.ends (List.mem_singleton_self _)]
    exact fun h => absurd (h.2 trivial) (by decide)
  · rw [errors_reported_iff (by decide) mkdir_exec.ends (List.mem_singleton_self _)]
    exact ⟨⟨List.forall_mem_singleton.2 (by decide), fun _ _ h => nomatch h⟩, fun h => h.elim⟩
  · rw [errors_reported_iff (by decide) query_goesWrong.ends (List.mem_singleton_self _)]
    exact fun h => h.1.buffer _ _ rfl rfl

/-- A `truncate` of a file that does not exist is reported as a permission error. -/
theorem truncate_reports_EPERM : ¬ ∀ (bb : BbState) (op : Operation) (err err' e : Nat)
    (tr : List (SysCall × Except Nat Nat)) (r : Int) (c : SysCall),
    Exec (op.handler bb) err tr r err' → (c, .error e) ∈ tr → r = -e := by
  intro h
  exact absurd (h _ _ _ _ _ _ _ _ truncate_exec (List.mem_singleton_self _)) (by decide)

/-! ## The handlers on memory and on one file

`bbRead`, `bbWrite` and the others on the contents of a file return what the handlers return, given
what their system call did; and the handlers go wrong where the code on bytes leaves its arrays.
-/

theorem fits_iff_inside {fuel : Nat} {rootdir rpath : CStr} {mem : Mem}
    (hroot : rootdir.bytes.length = bb.rootdir.utf8ByteSize)
    (hpath : rpath.bytes.length = path.utf8ByteSize) (hfuel : rootdir.bytes.length < fuel) :
    bb.Fits path ↔ Access.Inside PATH_MAX (Eece4029.bbFullpath fuel rootdir rpath) mem := by
  rw [inside_bbFullpath hfuel, hroot, hpath, BbState.Fits]

/-- What a system call did, for the model of a file. -/
def toSysResult : Except Nat Nat → SysResult
  | .ok n => .ok n
  | .error errno => .fail errno

theorem ends_logNames {list : FuseBuffer} {retstat : Int} {r : Option Int}
    (h : Ends (logNames list retstat >>= fun _ => pure retstat) err tr r) :
    if list.addr < ptrAdd list.addr retstat ∧ list.addr = 0 then r = none
    else r = some retstat := by
  rw [logNames] at h
  split at h
  · next hlt =>
    split at h
    · next hnull =>
      rw [if_pos ⟨hlt, hnull⟩]
      exact h.wrong_inv
    · next hnull =>
      rw [if_neg fun h => hnull h.2]
      obtain ⟨_, hret⟩ := h.log_inv
      exact (ends_pure.1 hret).2
  · next hge =>
    rw [if_neg fun h => hge h.1]
    exact (ends_pure.1 h).2

/-- The loop on memory leaves what was written exactly if it is entered at `NULL`. -/
theorem staysInside_iff {list : FuseBuffer} {attrs : Attributes} {mem : Mem}
    {fail : Option {e // IsErrno e}} : StaysInside attrs mem list.toBuffer fail ↔
      ¬ (list.addr < listEnd attrs mem list.toBuffer fail ∧ list.addr = 0) := by
  by_cases hsize : list.size = 0
  · rw [staysInside_query hsize, and_iff_left (list.query hsize)]
  · refine iff_of_true (staysInside_of_size hsize) fun h => hsize (list.size_of_null h.2)

theorem ends_path {α : Type} {k : String → Prog SysCall α} {r : Option α} (hfits : bb.Fits path)
    (h : Ends (log >>= fun _ => bbFullpath bb path >>= k) err tr r) :
    ∃ err', Ends (k (bb.rootdir ++ path)) err' tr r := by
  obtain ⟨_, hpath⟩ := h.log_inv
  rw [bbFullpath, if_pos hfits] at hpath
  exact hpath.log_inv

/-- What `checked` returns goes into what follows. -/
theorem ends_checked {α : Type} {k : Int → Prog SysCall α} {r : Option α}
    (h : Ends (checked c >>= k) err tr r) : ∃ res tr' err', tr = (c, res) :: tr' ∧
      Ends (k (toSysResult res).retstat) err' tr' r := by
  rcases h.call_inv (k := fun n => (if n < 0 then bbError else pure n) >>= k) with
    ⟨n, err', tr', rfl, hnext⟩ | ⟨e, tr', rfl, hnext⟩
  · rw [if_neg (by omega)] at hnext
    exact ⟨.ok n, tr', err', rfl, hnext⟩
  · obtain ⟨err', hret⟩ := hnext.errno_inv.log_inv
    exact ⟨.error e, tr', err', rfl, hret⟩

/-- `bb_listxattr` goes wrong exactly if the loop on memory does not stay inside what the call has
written. -/
theorem bbListxattr_ends {list : FuseBuffer} {r : Option Int} (hfits : bb.Fits path)
    (h : Ends (bbListxattr bb path list) err tr r) :
    ∃ res tr', tr = (.llistxattr (bb.rootdir ++ path) list.size, res) :: tr' ∧
      ∀ attrs mem fail, (llistxattr attrs mem list.toBuffer fail).result = toSysResult res →
        (StaysInside attrs mem list.toBuffer fail ∧ r = some (toSysResult res).retstat) ∨
        (¬ StaysInside attrs mem list.toBuffer fail ∧ r = none) := by
  obtain ⟨_, hlist⟩ := ends_path hfits h
  obtain ⟨res, tr', _, rfl, hlog⟩ := ends_checked hlist
  obtain ⟨_, hnames⟩ := hlog.log_inv
  have hends := ends_logNames hnames
  refine ⟨res, tr', rfl, fun attrs mem fail hresult => ?_⟩
  rw [staysInside_iff, listEnd, hresult]
  split at hends
  · next hwrong => exact .inr ⟨not_not_intro hwrong, hends⟩
  · next hright => exact .inl ⟨hright, hends⟩

variable {buf : List UInt8} {size mode : Nat} {offset fh newsize : Int}

theorem exec_checked (h : Exec (checked c) err tr r err') :
    ∃ res, tr = [(c, res)] ∧ r = (toSysResult res).retstat := by
  rcases h.call_inv with ⟨n, err₁, tr', rfl, hnext⟩ | ⟨e, tr', rfl, hnext⟩
  · rw [if_neg (by omega)] at hnext
    obtain ⟨rfl, rfl, -⟩ := exec_pure.1 hnext
    exact ⟨.ok n, rfl, rfl⟩
  · obtain ⟨rfl, rfl⟩ := answers_bbError _ _ _ _ hnext
    exact ⟨.error e, rfl, rfl⟩

theorem exec_dropped (h : Exec (dropped c) err tr r err') :
    ∃ res, tr = [(c, res)] ∧ ((∃ n : Nat, res = .ok n ∧ r = n) ∨ ∃ e, res = .error e ∧ r = -1) := by
  rcases h.call_inv with ⟨n, err₁, tr', rfl, hnext⟩ | ⟨e, tr', rfl, hnext⟩
  · rw [if_neg (by omega)] at hnext
    obtain ⟨rfl, rfl, -⟩ := exec_pure.1 hnext
    exact ⟨.ok n, rfl, .inl ⟨n, rfl, rfl⟩⟩
  · have hfailed : Answers (fun _ => (-1 : Int)) (bbError >>= fun _ => pure (-1)) :=
      answers_bbError.silent.answers fun _ => answers_pure
    obtain ⟨rfl, rfl⟩ := hfailed _ _ _ _ hnext
    exact ⟨.error e, rfl, .inr ⟨e, rfl, rfl⟩⟩

theorem bbRead_exec (h : Exec (bbRead size offset fh) err tr r err') :
    ∃ res, tr = [(.pread fh size offset, res)] ∧
      ∀ d f off, r = (Eece4029.bbRead d f size off (toSysResult res)).1 := by
  obtain ⟨_, _, hnext⟩ := h.after silent_log
  obtain ⟨res, htr, hr⟩ := exec_checked hnext
  refine ⟨res, htr, fun d f off => hr.trans ?_⟩
  cases res <;> rfl

theorem bbWrite_exec (h : Exec (bbWrite bb buf offset fh) err tr r err') :
    ∃ data res, tr = [(.pwrite fh data offset, res)] ∧
      ∀ f off, r = (Eece4029.bbWrite bb.daemon f buf off (toSysResult res)).1 := by
  obtain ⟨_, _, hnext⟩ := h.after silent_log
  obtain ⟨res, htr, hr⟩ := exec_checked hnext
  refine ⟨_, res, htr, fun f off => hr.trans ?_⟩
  cases res <;> rfl

/-- A call that returns zero if it succeeds. -/
def ZeroOk (res : Except Nat Nat) : Prop := ∀ n, res = .ok n → n = 0

theorem bbFtruncate_exec (h : Exec (bbFtruncate offset fh) err tr r err') :
    ∃ res, tr = [(.ftruncate fh offset, res)] ∧ (ZeroOk res →
      ∀ f off, r = (Eece4029.bbFtruncate f off (toSysResult res)).1) := by
  obtain ⟨_, _, hnext⟩ := h.after silent_log
  obtain ⟨res, htr, hr⟩ := exec_checked hnext
  refine ⟨res, htr, fun hzero f off => hr.trans ?_⟩
  cases res with
  | ok n =>
    rw [hzero n rfl]
    rfl
  | error e => rfl

theorem bbTruncate_exec (h : Exec (bbTruncate bb path newsize) err tr r err') :
    ∃ fpath res, tr = [(.truncate fpath newsize, res)] ∧ (ZeroOk res →
      ∀ f off, r = (Eece4029.bbTruncate f off (toSysResult res)).1) := by
  obtain ⟨-, _, hnext⟩ := exec_path h
  obtain ⟨res, htr, hr⟩ := exec_dropped hnext
  refine ⟨_, res, htr, fun hzero f off => ?_⟩
  rcases hr with ⟨n, rfl, rfl⟩ | ⟨e, rfl, rfl⟩
  · rw [hzero n rfl]
    rfl
  · rfl

theorem bbChmod_exec (h : Exec (bbChmod bb path mode) err tr r err')
    (hd : bb.daemon.uid = bb.daemon.getuid) :
    ∃ fpath res, tr = [(.chmod fpath mode, res)] ∧ (ZeroOk res →
      ∀ stored, r = (Eece4029.bbChmod bb.daemon stored mode (toSysResult res)).1) := by
  obtain ⟨-, _, hnext⟩ := exec_path h
  rw [if_neg (not_not_intro hd)] at hnext
  obtain ⟨res, htr, hr⟩ := exec_checked hnext
  refine ⟨_, res, htr, fun hzero stored => hr.trans ?_⟩
  unfold Eece4029.bbChmod
  rw [if_neg (not_not_intro hd)]
  cases res with
  | ok n =>
    rw [hzero n rfl]
    rfl
  | error e => rfl

end BbOper

end Eece4029
