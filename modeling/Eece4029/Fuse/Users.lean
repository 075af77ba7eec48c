import Eece4029.Fuse.RoundTrip
import Mathlib.Logic.Function.Basic

/-!
# Users of the mount

The uid that is given at the mount names the user that may see the plain text: "only decrypt if this
user is the one that is allowed to", and a `chmod` by another is an "illegal op". To anybody else
the mount should be the underlying file system (`plainServe`), without a `chmod`. But what the three
handlers compare with is `getuid()`, the uid of the daemon, which is the same for all requests: a
daemon of the mount's user decrypts and encrypts for everybody. `others_shut_out_iff` says which
requests of other users it serves as it should.

The requests are `bb_read`, `bb_write` and `bb_chmod` on the files of a mount, with the results of
their system calls chosen by the environment. `chmod` keeps the twelve permission bits of a mode.
-/

namespace Eece4029

open Transition

/-! ## The files and the requests -/

/-- A file under the mount: its contents and its permission bits. -/
structure StoredFile where
  file : File
  mode : Nat

/-- The permission bits of a mode. -/
def permissions (mode : Nat) : Nat := mode % 2 ^ 12

/-- `bb_chmod`: its result and the mode of the file. -/
def bbChmod (d : Daemon) (stored mode : Nat) (chmod : SysResult) : Int × Nat :=
  if d.uid ≠ d.getuid then
    (0, stored)
  else
    match chmod with
    | .ok _ => (0, permissions mode)
    | .fail errno => (bbError errno, stored)

universe u
variable {κ : Type u}

/-- A request for one of the files, with the result of its system call. -/
inductive UserOp (κ : Type u)
  | read (id : κ) (size offset : Nat) (pread : SysResult)
  | write (id : κ) (buf : List UInt8) (offset : Nat) (pwrite : SysResult)
  | chmod (id : κ) (mode : Nat) (chmod : SysResult)

/-- What POSIX says about the result of the system call. -/
def UserOp.Posix (s : κ → StoredFile) : UserOp κ → Prop
  | .read id size offset pread => Pread (s id).file size offset pread
  | .write _ buf _ pwrite => buf.length < 2 ^ 31 ∧ ∀ n, pwrite = .ok n → n ≤ buf.length
  | .chmod _ _ _ => True

/-- A request and its answer: who makes it, the result and the bytes that a read returns. -/
structure UserRequest (κ : Type u) where
  caller : UInt32
  op : UserOp κ
  retstat : Int
  buf : List UInt8

variable [DecidableEq κ]

/-- What the daemon does with a request: its result, the bytes that it returns and the files. -/
def serve (d : Daemon) (s : κ → StoredFile) : UserOp κ → Int × List UInt8 × (κ → StoredFile)
  | .read id size offset pread =>
    let r := bbRead d (s id).file size offset pread
    (r.1, r.2, s)
  | .write id buf offset pwrite =>
    let r := bbWrite d (s id).file buf offset pwrite
    (r.1, [], Function.update s id ⟨r.2, (s id).mode⟩)
  | .chmod id mode chmod =>
    let r := bbChmod d (s id).mode mode chmod
    (r.1, [], Function.update s id ⟨(s id).file, r.2⟩)

/-- The step of a mount: the daemon serves a request. -/
def UserStep (d : Daemon) (s : κ → StoredFile) (req : UserRequest κ) (s' : κ → StoredFile) : Prop :=
  req.op.Posix s ∧ (req.retstat, req.buf, s') = serve d s req.op

/-- `tr` is a run of requests on the files `s₀`. -/
abbrev UserRun (d : Daemon) (s₀ : κ → StoredFile)
    (tr : List (Step (κ → StoredFile) (UserRequest κ))) (s : κ → StoredFile) : Prop :=
  Run (UserStep d) s₀ tr s

/-! ## The mount for other users -/

/-- The bytes that a system call has moved, of those that it was to move. -/
def moved : SysResult → List UInt8 → List UInt8
  | .ok n, bytes => bytes.take n
  | .fail _, _ => []

/-- What is to happen at a request of a user who is not the mount's: a read returns the bytes of the
file, a write stores the bytes it is given, and a `chmod` does nothing. -/
def plainServe (s : κ → StoredFile) : UserOp κ → List UInt8 × (κ → StoredFile)
  | .read id size offset pread => (moved pread ((s id).file.read offset size), s)
  | .write id buf offset pwrite =>
    ([], Function.update s id ⟨(s id).file.write (moved pwrite buf) offset, (s id).mode⟩)
  | .chmod .. => ([], s)

/-- A user other than the mount's is served the underlying files. -/
def ShutOut (d : Daemon) (s : κ → StoredFile) (req : UserRequest κ) (s' : κ → StoredFile) : Prop :=
  req.caller ≠ d.uid → (req.buf, s') = plainServe s req.op

/-- The request moves no byte, or does not change the mode. -/
def UserOp.NoEffect (s : κ → StoredFile) : UserOp κ → Prop
  | .read id size offset pread => moved pread ((s id).file.read offset size) = []
  | .write _ buf _ pwrite => moved pwrite buf = []
  | .chmod id mode r => ∀ n, r = .ok n → permissions mode = (s id).mode

variable {d : Daemon} {s s' s₀ : κ → StoredFile} {f : File} {bytes data data' : List UInt8}
  {off : Nat} {r : SysResult} {op : UserOp κ} {req : UserRequest κ}
  {tr : List (Step (κ → StoredFile) (UserRequest κ))}

/-! ## Encryption shows -/

/-- A byte plus one is another byte. -/
theorem succ_ne (b : UInt8) : b + 1 ≠ b := by
  intro h
  have hb := b.toNat_lt
  have hval := congrArg UInt8.toNat h
  rw [UInt8.toNat_add, show (1 : UInt8).toNat = 1 from rfl] at hval
  omega

/-- Decryption changes every byte. -/
theorem map_decrypt_eq_iff {signed : Bool} : bytes.map (decrypt signed) = bytes ↔ bytes = [] := by
  refine ⟨fun h => ?_, fun h => h ▸ rfl⟩
  cases bytes with
  | nil => rfl
  | cons b bytes =>
    rw [List.map_cons, List.cons.injEq, decrypt_eq] at h
    have hsucc := congrArg (· + 1) h.1
    rw [UInt8.sub_add_cancel] at hsucc
    exact absurd hsucc.symm (succ_ne b)

/-- An encrypted write leaves another file than a plain one, unless it writes nothing. -/
theorem write_encrypted_eq_iff {signed : Bool} :
    f.write (bytes.map (encrypt signed)) off = f.write bytes off ↔ bytes = [] := by
  refine ⟨fun h => ?_, fun h => h ▸ rfl⟩
  cases bytes with
  | nil => rfl
  | cons b bytes =>
    have hplain : (f.write (b :: bytes) off).byte off = b :=
      (File.write_byte_of_some (Nat.le_refl off) (by simp)).1
    have henc : (f.write ((b :: bytes).map (encrypt signed)) off).byte off = b + 1 :=
      (File.write_byte_of_some (Nat.le_refl off) (by simp [encrypt_eq])).1
    rw [h, hplain] at henc
    exact absurd henc.symm (succ_ne b)

/-- A file that nothing is written to stays as it is. -/
theorem write_nil : f.write [] off = f := by
  obtain ⟨size, byte, beyond⟩ := f
  simp [File.write]

/-! ## What the handlers do, by the bytes that are moved -/

/-- `bb_read` returns the bytes that `pread` has moved, decrypted if the daemon is the mount's
user. -/
theorem buf_bbRead {size : Nat} : (bbRead d f size off r).2 =
    if d.uid = d.getuid then (moved r (f.read off size)).map (decrypt d.charSigned)
      else moved r (f.read off size) := by
  cases r with
  | ok n => rfl
  | fail errno => exact (ite_self _).symm

/-- `bb_write` writes the bytes that `pwrite` has moved, encrypted if the daemon is the mount's
user. -/
theorem file_bbWrite : (bbWrite d f bytes off r).2 =
    f.write (if d.uid = d.getuid then (moved r bytes).map (encrypt d.charSigned)
      else moved r bytes) off := by
  cases r with
  | ok n =>
    by_cases hd : d.uid = d.getuid
    · simp only [bbWrite, moved, if_pos hd, List.map_take]
    · simp only [bbWrite, moved, if_neg hd]
  | fail errno =>
    rw [moved, List.map_nil, ite_self, write_nil]
    rfl

/-- The mode stays if the daemon is not the mount's user, or `chmod` does not change it. -/
theorem mode_bbChmod_eq_iff {stored mode : Nat} : (bbChmod d stored mode r).2 = stored ↔
    d.uid ≠ d.getuid ∨ ∀ n, r = .ok n → permissions mode = stored := by
  unfold bbChmod
  split
  · next hd => exact iff_of_true rfl (.inl hd)
  · next hd =>
    rw [or_iff_right hd]
    cases r with
    | ok n => simp
    | fail errno => simp

/-- The daemon serves a request as an underlying file system would if it is not the mount's user, or
the request has no effect, and only then. -/
theorem serve_eq_plainServe_iff : (serve d s op).2 = plainServe s op ↔
    d.uid ≠ d.getuid ∨ op.NoEffect s := by
  cases op with
  | read id size offset pread =>
    simp only [serve, plainServe, UserOp.NoEffect, buf_bbRead, Prod.mk.injEq, and_true]
    split
    · next hd => rw [map_decrypt_eq_iff, or_iff_right (not_not_intro hd)]
    · next hd => exact iff_of_true rfl (.inl hd)
  | write id buf offset pwrite =>
    simp only [serve, plainServe, UserOp.NoEffect, file_bbWrite, Prod.mk.injEq, true_and,
      (Function.update_injective s id).eq_iff, StoredFile.mk.injEq, and_true]
    split
    · next hd => rw [write_encrypted_eq_iff, or_iff_right (not_not_intro hd)]
    · next hd => exact iff_of_true rfl (.inl hd)
  | chmod id mode chmod =>
    simp only [serve, plainServe, UserOp.NoEffect, Prod.mk.injEq, true_and]
    rw [Function.update_eq_self_iff, ← mode_bbChmod_eq_iff]
    exact ⟨fun h => congrArg StoredFile.mode h, fun h => by rw [h]⟩

/-- **When other users are served the underlying files.** In every run of requests of any users, a
request is exactly if the daemon does not run under the mount's uid, or the caller is the mount's
user after all, or the request moves no byte and changes no mode. -/
theorem others_shut_out_iff (h : UserRun d s₀ tr s) : ∀ x ∈ tr,
    (ShutOut d x.pre x.label x.post ↔
      d.uid ≠ d.getuid ∨ x.label.caller = d.uid ∨ x.label.op.NoEffect x.pre) := by
  intro x hx
  obtain ⟨-, -, hs⟩ := h.mem x hx
  have hserved : (x.label.buf, x.post) = (serve d x.pre x.label.op).2 := congrArg Prod.snd hs
  rw [ShutOut, hserved, serve_eq_plainServe_iff]
  tauto

/-- A file that holds the letter `b`, which is an encrypted `a`. -/
def letterB : Unit → StoredFile := fun _ => ⟨File.empty.write [98] 0, 0⟩

/-- The user with the uid `1001` reads it from a mount of the user `1000`. -/
def readByOther : UserRequest Unit := ⟨1001, .read () 1 0 (.ok 1), 1, [97]⟩

theorem readByOther_run :
    UserRun ownerDaemon letterB [⟨letterB, readByOther, letterB⟩] letterB := by
  refine Run.nil.snoc ⟨⟨by decide, ?_⟩, rfl⟩
  rintro n hn
  cases hn
  decide

theorem others_shut_out_iff_readByOther : ¬ ShutOut ownerDaemon letterB readByOther letterB := by
  rw [others_shut_out_iff readByOther_run _ (List.mem_singleton_self _)]
  simp only [UserOp.NoEffect, readByOther]
  decide

/-- A daemon of the mount's user decrypts for everybody. -/
theorem others_see_plain_text : ¬ ∀ (d : Daemon) (s₀ s : Unit → StoredFile)
    (tr : List (Step (Unit → StoredFile) (UserRequest Unit))), UserRun d s₀ tr s →
      ∀ x ∈ tr, ShutOut d x.pre x.label x.post := by
  intro h
  have hserved := h _ _ _ _ readByOther_run _ (List.mem_singleton_self _) (by decide)
  exact absurd (congrArg Prod.fst hserved) (by decide)

end Eece4029
