import Eece4029.Fuse.Handlers
import Eece4029.Lib.Medium

/-!
# The mount as a file system of plain bytes

The file system below the mount is a `Kernel`: names, descriptors, modes and whatever else it keeps
are left open, and so is what a call does to them and which regular file it is about, but that it
never looks into the bytes that it is given to write. A `Volume` is its state with the contents of
the regular files.

`MountStep` is a request that the daemon serves from a volume of POSIX files. `PlainStep` is the
same request, served without encryption from a volume of lists of bytes. What else the handlers do,
they do there, too: `bb_chmod` does nothing if the daemon is not the mount's user, and `bb_truncate`
and `bb_fsync` return `-1` for every error. An answer is what the handler returns, the handle in
`fi->fh` and the bytes that were read; attributes, texts of links and names in a listing are not
looked at. A request whose behaviour is undefined has no answer.

`mount_iff_plain` says that the two are the same for a client: the runs of the mount are those of a
plain volume which holds the decrypted files, and whose files have the byte `bb.daemon.shown 0`
where nothing was written. This is `255` for a daemon of the mount's user and not the zero of POSIX,
and makes no difference as long as no gap is filled (`mount_is_posix`).
-/

namespace Eece4029

open Errno Transition

/-! ## The file system below -/

/-- The call with other data. -/
def SysCall.mapData (g : UInt8 → UInt8) : SysCall → SysCall
  | .pwrite fd data offset => .pwrite fd (data.map g) offset
  | c => c

/-- What `bb_read` makes of a byte. -/
def Daemon.shown (d : Daemon) (b : UInt8) : UInt8 :=
  if d.uid = d.getuid then decrypt d.charSigned b else b

namespace BbOper

def FuseCall.mapData (g : UInt8 → UInt8) : FuseCall → FuseCall
  | .sys c => .sys (c.mapData g)
  | c => c

/-- A file system but for the bytes of its regular files. `Does k sizes c r id k'`: in the state
`k`, with files of these sizes, the call `c` may have the result `r`; then the state is `k'`, and
`id` is the regular file whose bytes the call has read or changed, or which `open` or `creat` has
made or emptied. -/
structure Kernel where
  State : Type
  Does : State → (Nat → Nat) → FuseCall → Except Nat Nat → Option Nat → State → Prop
  blind : ∀ (g : UInt8 → UInt8) {k sizes c r id k'},
    Does k sizes (c.mapData g) r id k' ↔ Does k sizes c r id k'

section
variable {D : Type} (M : Medium UInt8 D)

/-- What a call does to the file that it is about. -/
def FuseCall.store : FuseCall → Except Nat Nat → D → D
  | .sys (.pwrite _ data offset), .ok n, d => M.write d (data.take n) offset.toNat
  | .sys (.truncate _ newsize), .ok _, d | .sys (.ftruncate _ newsize), .ok _, d =>
    M.truncate d newsize.toNat
  | .sys (.«open» ..), .ok _, _ | .sys (.creat ..), .ok _, _ => M.empty
  | _, _, d => d

/-- The bytes of the file that it hands out. -/
def FuseCall.load : FuseCall → Except Nat Nat → D → List UInt8
  | .sys (.pread _ size offset), .ok n, d => (M.read d offset.toNat size).take n
  | _, _, _ => []

/-- The files with another content of one of them. -/
def touch (files : Nat → D) (id : Option Nat) (f : D → D) : Nat → D :=
  match id with
  | none => files
  | some i => Function.update files i (f (files i))

/-- The bytes that a call hands out, if it is about a file. -/
def handOut (files : Nat → D) (id : Option Nat) (f : D → List UInt8) : List UInt8 :=
  match id with
  | none => []
  | some i => f (files i)

/-- The calls `tr`, one after the other, about the files `ids`: they hand out the bytes `out`. -/
inductive Served (K : Kernel) : K.State → (Nat → D) → List (FuseCall × Except Nat Nat) →
    List (Option Nat) → List UInt8 → K.State → (Nat → D) → Prop
  | nil {k : K.State} {files : Nat → D} : Served K k files [] [] [] k files
  | cons {k k' k'' : K.State} {files files' : Nat → D} {c : FuseCall} {r : Except Nat Nat}
      {tr : List (FuseCall × Except Nat Nat)} {id : Option Nat} {ids : List (Option Nat)}
      {out : List UInt8} : K.Does k (fun i => M.size (files i)) c r id k' →
      Served K k' (touch files id (c.store M r)) tr ids out k'' files' →
      Served K k files ((c, r) :: tr) (id :: ids) (handOut files id (c.load M r) ++ out) k'' files'

end

/-- The state of a file system with its regular files, kept as `D`, and `errno`. -/
structure Volume (K : Kernel) (D : Type) where
  kernel : K.State
  files : Nat → D
  errno : Nat

/-- A request and its answer: what the handler has returned and put into `fi->fh`, and the bytes
that it has put into the buffer. The regular files that its calls were about are an observation. -/
structure Request where
  op : FuseOp
  retstat : Int
  fh : Option Int
  buf : List UInt8
  files : List (Option Nat)

variable (bb : BbState) (K : Kernel)

/-- A request that the daemon serves. -/
def MountStep (s : Volume K File) (req : Request) (s' : Volume K File) : Prop :=
  ∃ tr out, Exec (req.op.serve bb) s.errno tr (req.retstat, req.fh) s'.errno ∧
    Served .posix K s.kernel s.files tr req.files out s'.kernel s'.files ∧
    req.buf = out.map bb.daemon.shown

/-- The handler without encryption. What else it does, it does here, too. -/
def FuseOp.servePlain : FuseOp → Prog FuseCall (Int × Option Int)
  | .oper (.write buf offset fh) => keeping ((onHandle (.pwrite fh buf offset)).mapCall .sys)
  | op => op.serve bb

/-- A request that is served without encryption. -/
def PlainStep (hole : UInt8) (v : Volume K (List UInt8)) (req : Request)
    (v' : Volume K (List UInt8)) : Prop :=
  ∃ tr, Exec (req.op.servePlain bb) v.errno tr (req.retstat, req.fh) v'.errno ∧
    Served (.plain hole) K v.kernel v.files tr req.files req.buf v'.kernel v'.files

/-! ## The calls of the one are those of the other -/

variable {bb} {K} {g : UInt8 → UInt8} {op : FuseOp}

theorem shown_encrypt {d : Daemon} {buf : List UInt8} :
    (if d.uid = d.getuid then buf.map (encrypt d.charSigned) else buf).map d.shown = buf := by
  have hbyte : ∀ b, d.uid = d.getuid → d.shown (encrypt d.charSigned b) = b := by
    intro b hd
    rw [Daemon.shown, if_pos hd, decrypt_eq, encrypt_eq, UInt8.add_sub_cancel]
  split
  · next hd =>
    rw [List.map_map]
    exact (List.map_congr_left fun b _ => hbyte b hd).trans (List.map_id buf)
  · next hd =>
    exact (List.map_congr_left fun b _ => if_neg hd).trans (List.map_id buf)

/-- Only `pwrite` is given data. -/
theorem Operation.Makes.mapData {op : Operation} {c : SysCall} (h : op.Makes bb c) :
    (∃ buf offset fh, op = .write buf offset fh) ∨ c.mapData g = c := by
  cases op with
  | mknod =>
    rcases h with rfl | ⟨fd, rfl⟩ | rfl | rfl
    · exact .inr rfl
    · exact .inr rfl
    · exact .inr rfl
    · exact .inr rfl
  | fsync =>
    rcases h with rfl | rfl
    · exact .inr rfl
    · exact .inr rfl
  | write buf offset fh => exact .inl ⟨buf, offset, fh, rfl⟩
  | _ =>
    obtain rfl := h
    exact .inr rfl

theorem FuseOp.Makes.mapData {c : FuseCall} (h : op.Makes bb c) :
    (∃ buf offset fh, op = .oper (.write buf offset fh)) ∨ c.mapData g = c := by
  cases op with
  | oper op =>
    obtain ⟨c', rfl, hc'⟩ := h
    rcases hc'.mapData (g := g) with ⟨buf, offset, fh, rfl⟩ | heq
    · exact .inl ⟨buf, offset, fh, rfl⟩
    · exact .inr (congrArg FuseCall.sys heq)
  | flush | fsyncdir => exact h.elim
  | _ =>
    obtain rfl := h
    exact .inr rfl

theorem mapData_checked {c : SysCall} :
    ((checked c).mapCall FuseCall.sys).mapCall (FuseCall.mapData g) =
      (checked (c.mapData g)).mapCall FuseCall.sys := by
  refine congrArg _ (funext fun r => ?_)
  change ((if r < 0 then bbError else pure r).mapCall FuseCall.sys).mapCall _ =
    (if r < 0 then bbError else pure r).mapCall _
  split
  · rfl
  · rfl

/-- **Without encryption a handler makes the same calls, with the plain data.** -/
theorem servePlain_eq :
    op.servePlain bb = (op.serve bb).mapCall (FuseCall.mapData bb.daemon.shown) := by
  by_cases hop : ∃ buf offset fh, op = .oper (.write buf offset fh)
  · obtain ⟨buf, offset, fh, rfl⟩ := hop
    have hdata := mapData_checked (g := bb.daemon.shown) (c := .pwrite fh
      (if bb.daemon.uid = bb.daemon.getuid then buf.map (encrypt bb.daemon.charSigned) else buf)
      offset)
    rw [SysCall.mapData, shown_encrypt] at hdata
    refine Eq.trans ?_ mapCall_bind.symm
    exact congrArg (· >>= fun r => pure (r, none)) (congrArg Prog.log hdata.symm)
  · have hserve : op.servePlain bb = op.serve bb := by
      cases op with
      | oper op =>
        cases op with
        | write buf offset fh => exact absurd ⟨buf, offset, fh, rfl⟩ hop
        | _ => rfl
      | _ => rfl
    rw [hserve]
    exact (calls_serve.imp fun c hc => (hc.mapData).resolve_left hop).mapCall_eq.symm

/-! ## The files of the one are those of the other -/

section
variable {D E : Type} {M : Medium UInt8 D} {N : Medium UInt8 E} {φ : M.Hom N g}
  {k k' : K.State} {files files' : Nat → D} {c : FuseCall} {r : Except Nat Nat} {d : D}
  {tr : List (FuseCall × Except Nat Nat)} {ids : List (Option Nat)} {out : List UInt8}

theorem store_map : φ.toFun (c.store M r d) = (c.mapData g).store N r (φ.toFun d) := by
  cases c with
  | sys c =>
    cases r with
    | error e => cases c <;> rfl
    | ok n =>
      cases c with
      | pwrite fd data offset =>
        rw [FuseCall.store, φ.write, List.map_take]
        rfl
      | truncate | ftruncate => exact φ.truncate d _
      | «open» | creat => exact φ.empty
      | _ => rfl
  | _ => cases r <;> rfl

theorem load_map : (c.mapData g).load N r (φ.toFun d) = (c.load M r d).map g := by
  cases c with
  | sys c =>
    cases r with
    | error e => cases c <;> rfl
    | ok n =>
      cases c with
      | pread fd size offset =>
        rw [FuseCall.load, List.map_take, ← φ.read]
        rfl
      | _ => rfl
  | _ => cases r <;> rfl

theorem touch_map {id : Option Nat} : φ.toFun ∘ touch files id (c.store M r) =
    touch (φ.toFun ∘ files) id ((c.mapData g).store N r) := by
  cases id with
  | none => rfl
  | some i =>
    refine funext fun j => ?_
    obtain rfl | hne := eq_or_ne j i
    · simp only [touch, Function.comp_apply, Function.update_self, store_map (φ := φ)]
    · simp only [touch, Function.comp_apply, Function.update_of_ne hne]

theorem handOut_map {id : Option Nat} : handOut (φ.toFun ∘ files) id ((c.mapData g).load N r) =
    (handOut files id (c.load M r)).map g := by
  cases id with
  | none => rfl
  | some i => exact load_map

theorem sizes_map : (fun i => N.size ((φ.toFun ∘ files) i)) = fun i => M.size (files i) :=
  funext fun i => φ.size (files i)

/-- Calls are served from the image of the files as they are from the files, with the image of the
data. -/
theorem Served.map (h : Served M K k files tr ids out k' files') :
    Served N K k (φ.toFun ∘ files) (mapTrace (FuseCall.mapData g) tr) ids (out.map g) k'
      (φ.toFun ∘ files') := by
  induction h with
  | nil => exact .nil
  | cons hdoes _ ih =>
    have himage := sizes_map (φ := φ) ▸ (K.blind g).2 hdoes
    rw [touch_map] at ih
    rw [mapTrace_cons, List.map_append, ← handOut_map (φ := φ)]
    exact .cons himage ih

/-- And only so. -/
theorem Served.of_map {out' : List UInt8} {files₁ : Nat → E}
    (h : Served N K k (φ.toFun ∘ files) (mapTrace (FuseCall.mapData g) tr) ids out' k' files₁) :
    ∃ out files', Served M K k files tr ids out k' files' ∧ out' = out.map g ∧
      files₁ = φ.toFun ∘ files' := by
  induction tr generalizing k files ids out' with
  | nil =>
    cases h
    exact ⟨[], files, .nil, rfl, rfl⟩
  | cons x tr ih =>
    rw [mapTrace_cons] at h
    cases h with
    | cons hdoes hrest =>
      rw [sizes_map, K.blind] at hdoes
      rw [← touch_map] at hrest
      obtain ⟨out, files', hserved, rfl, rfl⟩ := ih hrest
      refine ⟨_, files', .cons hdoes hserved, ?_, rfl⟩
      rw [List.map_append, ← handOut_map (φ := φ)]

end

/-! ## The mount and the plain volume -/

/-- A stored file as the client sees it. -/
def plainFile (d : Daemon) : Medium.posix.Hom (.plain (d.shown 0)) d.shown :=
  .comp .bytes (.relabel 0 d.shown)

/-- The volume that the client sees. -/
def view (d : Daemon) (s : Volume K File) : Volume K (List UInt8) :=
  ⟨s.kernel, (plainFile d).toFun ∘ s.files, s.errno⟩

variable {s s' s₀ : Volume K File} {req : Request} {v : Volume K (List UInt8)}

theorem MountStep.plain (h : MountStep bb K s req s') :
    PlainStep bb K (bb.daemon.shown 0) (view bb.daemon s) req (view bb.daemon s') := by
  obtain ⟨tr, out, hexec, hserved, hbuf⟩ := h
  refine ⟨mapTrace (FuseCall.mapData bb.daemon.shown) tr, ?_, ?_⟩
  · rw [servePlain_eq]
    exact exec_mapCall.2 ⟨tr, rfl, hexec⟩
  · rw [hbuf]
    exact hserved.map (φ := plainFile bb.daemon)

theorem PlainStep.mount (h : PlainStep bb K (bb.daemon.shown 0) (view bb.daemon s) req v) :
    ∃ s', MountStep bb K s req s' ∧ view bb.daemon s' = v := by
  obtain ⟨tr, hexec, hserved⟩ := h
  rw [servePlain_eq] at hexec
  obtain ⟨tr', rfl, hexec'⟩ := exec_mapCall.1 hexec
  obtain ⟨out, files', hserved', hbuf, hfiles⟩ :=
    Served.of_map (φ := plainFile bb.daemon) hserved
  refine ⟨⟨v.kernel, files', v.errno⟩, ⟨tr', out, hexec', hserved', hbuf⟩, ?_⟩
  rw [view, ← hfiles]

/-- **The mount stores plain bytes.** On any file system below, any requests with any arguments have
the answers that the mount gives exactly if the handlers without encryption give them on a plain
volume that holds the decrypted files, with `bb.daemon.shown 0` in every gap; and both end in the
same state. -/
theorem mount_iff_plain (bb : BbState) (K : Kernel) (s₀ : Volume K File) (reqs : List Request)
    (v : Volume K (List UInt8)) :
    (∃ tr s, Run (MountStep bb K) s₀ tr s ∧ view bb.daemon s = v ∧ tr.map (·.label) = reqs) ↔
      ∃ tr, Run (PlainStep bb K (bb.daemon.shown 0)) (view bb.daemon s₀) tr v ∧
        tr.map (·.label) = reqs :=
  Run.labels_iff (view bb.daemon) (fun _ _ _ h => h.plain) fun _ _ _ h => h.mount

/-! ## The handlers on one file

What a call does to a file and hands out is what `bbRead`, `bbWrite` and the others say.
-/

section
variable {d : Daemon} {f : File} {buf : List UInt8} {size newsize off : Nat} {fh : Int}
  {path : String} {r : Except Nat Nat}

theorem load_pread : (Eece4029.bbRead d f size off (toSysResult r)).2 =
    ((FuseCall.sys (.pread fh size off)).load .posix r f).map d.shown := by
  rw [buf_bbRead]
  cases r with
  | error e => exact ite_self _
  | ok n =>
    split
    · next hd => exact List.map_congr_left fun b _ => (if_pos hd).symm
    · next hd => exact ((List.map_congr_left fun b _ => if_neg hd).trans (List.map_id _)).symm

theorem store_pwrite : (Eece4029.bbWrite d f buf off (toSysResult r)).2 =
    (FuseCall.sys (.pwrite fh (if d.uid = d.getuid then buf.map (encrypt d.charSigned) else buf)
      off)).store .posix r f := by
  cases r <;> rfl

theorem store_truncate : (Eece4029.bbTruncate f newsize (toSysResult r)).2 =
    (FuseCall.sys (.truncate path newsize)).store .posix r f := by
  cases r <;> rfl

theorem store_ftruncate : (Eece4029.bbFtruncate f off (toSysResult r)).2 =
    (FuseCall.sys (.ftruncate fh off)).store .posix r f := by
  cases r <;> rfl

end

/-! ## Without gaps -/

/-- The call does not make a file with the contents `l` longer than what it writes. -/
def FuseCall.NoGap (l : List UInt8) : FuseCall → Except Nat Nat → Prop
  | .sys (.pwrite _ data offset), .ok n => data.take n = [] ∨ offset.toNat ≤ l.length
  | .sys (.truncate _ newsize), .ok _ | .sys (.ftruncate _ newsize), .ok _ =>
    newsize.toNat ≤ l.length
  | _, _ => True

/-- The request does not: a write that stores something starts in the file or at its end, and a
truncation does not extend the file. -/
def Request.NoGap (v : Volume K (List UInt8)) (req : Request) : Prop :=
  0 ≤ req.retstat → ∀ id, some id ∈ req.files →
    match req.op with
    | .oper (.write buf offset _) =>
      buf.take req.retstat.toNat = [] ∨ offset.toNat ≤ (v.files id).length
    | .oper (.truncate _ newsize) | .oper (.ftruncate newsize _) =>
      newsize.toNat ≤ (v.files id).length
    | _ => True

section
variable {hole hole' : UInt8} {k k' : K.State} {files files' : Nat → List UInt8} {c : FuseCall}
  {r : Except Nat Nat} {l : List UInt8} {tr : List (FuseCall × Except Nat Nat)}
  {ids : List (Option Nat)} {out : List UInt8} {v' : Volume K (List UInt8)}

/-- Then nothing shows of the hole. -/
theorem store_hole (h : c.NoGap l r) :
    c.store (.plain hole) r l = c.store (.plain hole') r l := by
  cases c with
  | sys c =>
    cases r with
    | error e => cases c <;> rfl
    | ok n =>
      cases c with
      | pwrite fd data offset => exact Medium.overwrite_of_le h
      | truncate | ftruncate => exact Medium.takeD_of_le h
      | _ => rfl
  | _ => cases r <;> rfl

theorem touch_hole (hole hole' : UInt8) {id : Option Nat}
    (h : ∀ i, id = some i → c.NoGap (files i) r) :
    touch files id (c.store (.plain hole) r) = touch files id (c.store (.plain hole') r) := by
  cases id with
  | none => rfl
  | some i => exact congrArg (Function.update files i) (store_hole (h i rfl))

theorem Served.fill_one (h : Served (.plain hole) K k files [(c, r)] ids out k' files')
    (hgap : ∀ i, some i ∈ ids → c.NoGap (files i) r) :
    Served (.plain hole') K k files [(c, r)] ids out k' files' := by
  cases h with
  | @cons _ _ _ _ _ _ _ _ id _ _ hdoes hrest =>
    cases hrest
    have htouch := touch_hole hole hole' fun i hi => hgap i (hi ▸ List.mem_cons_self ..)
    exact .cons hdoes (htouch ▸ .nil)

theorem Served.fill (h : Served (.plain hole) K k files tr ids out k' files')
    (hgap : ∀ x ∈ tr, ∀ l, x.1.NoGap l x.2) :
    Served (.plain hole') K k files tr ids out k' files' := by
  induction h with
  | nil => exact .nil
  | cons hdoes _ ih =>
    obtain ⟨hx, htr⟩ := List.forall_mem_cons.1 hgap
    refine .cons hdoes ?_
    rw [← touch_hole hole hole' fun i _ => hx _]
    exact ih htr

/-- The operation may make a file longer than what it writes. -/
def Operation.Extends : Operation → Prop
  | .write .. | .truncate .. | .ftruncate .. => True
  | _ => False

/-- The calls of the others leave no gap. -/
theorem Operation.Makes.noGap {op : Operation} {c : SysCall} (h : op.Makes bb c)
    (hop : ¬ op.Extends) : (FuseCall.sys c).NoGap l r := by
  cases op with
  | write | truncate | ftruncate => exact absurd trivial hop
  | mknod => rcases h with rfl | ⟨fd, rfl⟩ | rfl | rfl <;> cases r <;> trivial
  | fsync => rcases h with rfl | rfl <;> cases r <;> trivial
  | _ =>
    obtain rfl := h
    cases r <;> trivial

theorem FuseOp.Makes.noGap (h : op.Makes bb c) (hop : ∀ op', op = .oper op' → ¬ op'.Extends) :
    c.NoGap l r := by
  cases op with
  | oper op =>
    obtain ⟨c', rfl, hc'⟩ := h
    exact hc'.noGap (hop op rfl)
  | flush | fsyncdir => exact h.elim
  | _ =>
    obtain rfl := h
    cases r <;> trivial

/-- The call of a request that may extend a file, and what the number returned says about it. -/
theorem exec_extends {op : Operation} {err err' : Nat} {a : Int × Option Int} (hop : op.Extends)
    (h : Exec (FuseOp.servePlain bb (.oper op)) err tr a err') : ∃ c r, tr = [(.sys c, r)] ∧
      (∀ n, r = .ok n → a.1 = n) ∧
      ((∃ buf offset fh, op = .write buf offset fh ∧ c = .pwrite fh buf offset) ∨
        (∃ path fpath n, op = .truncate path n ∧ c = .truncate fpath n) ∨
        ∃ n fh, op = .ftruncate n fh ∧ c = .ftruncate fh n) := by
  have hretstat : ∀ {r : Except Nat Nat} {n : Nat}, r = .ok n →
      (toSysResult r).retstat = n := fun hr => hr ▸ rfl
  cases op with
  | write buf offset fh =>
    obtain ⟨tr', rfl, hexec⟩ := exec_mapCall.1 (exec_keeping h)
    obtain ⟨_, _, hexec⟩ := hexec.after silent_log
    obtain ⟨r, rfl, ha⟩ := exec_checked hexec
    exact ⟨_, r, rfl, fun n hr => ha.trans (hretstat hr), .inl ⟨buf, offset, fh, rfl, rfl⟩⟩
  | truncate path n =>
    obtain ⟨tr', rfl, hexec⟩ := exec_mapCall.1 (exec_keeping h)
    obtain ⟨-, _, hexec⟩ := exec_path hexec
    obtain ⟨r, rfl, ha⟩ := exec_dropped hexec
    refine ⟨_, r, rfl, fun n hr => ?_, .inr (.inl ⟨path, _, n, rfl, rfl⟩)⟩
    rcases ha with ⟨m, rfl, ha⟩ | ⟨e, rfl, -⟩
    · cases hr
      exact ha
    · cases hr
  | ftruncate n fh =>
    obtain ⟨tr', rfl, hexec⟩ := exec_mapCall.1 (exec_keeping h)
    obtain ⟨_, _, hexec⟩ := hexec.after silent_log
    obtain ⟨r, rfl, ha⟩ := exec_checked hexec
    exact ⟨_, r, rfl, fun n hr => ha.trans (hretstat hr), .inr (.inr ⟨n, fh, rfl, rfl⟩)⟩
  | _ => exact hop.elim

theorem serve_of_not_extends (hop : ∀ op', op = .oper op' → ¬ op'.Extends) :
    op.servePlain bb = op.serve bb := by
  cases op with
  | oper op =>
    cases op with
    | write => exact absurd trivial (hop _ rfl)
    | _ => rfl
  | _ => rfl

/-- A request that leaves no gap is the same for every byte that gaps are filled with. -/
theorem PlainStep.fill (h : PlainStep bb K hole v req v') (hgap : req.NoGap v) :
    PlainStep bb K hole' v req v' := by
  obtain ⟨op, retstat, fh, buf, ids⟩ := req
  obtain ⟨tr, hexec, hserved⟩ := h
  refine ⟨tr, hexec, ?_⟩
  by_cases hop : ∃ op', op = .oper op' ∧ op'.Extends
  · obtain ⟨op, rfl, hop⟩ := hop
    obtain ⟨c, r, rfl, hret, hcases⟩ := exec_extends hop hexec
    refine hserved.fill_one fun i hi => ?_
    cases r with
    | error e => cases c <;> trivial
    | ok n =>
      obtain rfl : retstat = n := hret n rfl
      have hgap' := hgap (Int.natCast_nonneg n) i hi
      rcases hcases with
        ⟨data, offset, fd, rfl, rfl⟩ | ⟨path, fpath, m, rfl, rfl⟩ | ⟨m, fd, rfl, rfl⟩
      · exact hgap'
      · exact hgap'
      · exact hgap'
  · have hother : ∀ op', op = .oper op' → ¬ op'.Extends := fun op' heq hext => hop ⟨op', heq, hext⟩
    rw [serve_of_not_extends hother] at hexec
    exact hserved.fill fun x hx l => (calls_serve.exec hexec x hx).noGap hother

end

/-- **Without gaps it does so as POSIX says.** A run of the mount whose requests fill no gap is a
run of the handlers without encryption on a plain volume with zeros in the gaps, as POSIX has it. -/
theorem mount_is_posix {tr : List (Step (Volume K File) Request)} (h : Run (MountStep bb K) s₀ tr s)
    (hgap : ∀ x ∈ tr, x.label.NoGap (view bb.daemon x.pre)) :
    ∃ atr, Run (PlainStep bb K 0) (view bb.daemon s₀) atr (view bb.daemon s) ∧
      atr.map (·.label) = tr.map (·.label) := by
  induction h with
  | nil => exact ⟨[], .nil, rfl⟩
  | snoc _ hs ih =>
    obtain ⟨hall, hlast⟩ := List.forall_mem_append.1 hgap
    obtain ⟨atr, hr, hl⟩ := ih hall
    have hplain : PlainStep bb K 0 _ _ _ := hs.plain.fill (hlast _ (List.mem_singleton_self _))
    exact ⟨_, hr.snoc hplain, by simp [hl]⟩

/-- A file system with one regular file, which is open for reading and writing. -/
def oneFile : Kernel where
  State := Unit
  Does _ sizes c r id _ :=
    match c with
    | .sys (.pwrite _ data _) => r = .ok data.length ∧ id = some 0
    | .sys (.pread _ size offset) => r = .ok (min size (sizes 0 - offset.toNat)) ∧ id = some 0
    | _ => r = .error 9 ∧ id = none
  blind := by
    intro g _ _ c _ _ _
    cases c with
    | sys c =>
      cases c with
      | pwrite fd data offset => simp only [FuseCall.mapData, SysCall.mapData, List.length_map]
      | _ => rfl
    | _ => rfl

/-- Nothing in the file, and two bytes that are written to it. -/
def emptyVolume : Volume oneFile File := ⟨(), fun _ => .empty, 0⟩

def storedVolume : Volume oneFile File :=
  ⟨(), touch emptyVolume.files (some 0)
    (FuseCall.store .posix (.sys (.pwrite 3 [98, 99] 0)) (.ok 2)), 0⟩

def writeTwo : Request := ⟨.oper (.write [97, 98] 0 3), 2, none, [], [some 0]⟩

def readTwo : Request := ⟨.oper (.read 2 0 3), 2, none, [97, 98], [some 0]⟩

theorem storedVolume_run : Run (MountStep mounted oneFile) emptyVolume
    [⟨emptyVolume, writeTwo, storedVolume⟩, ⟨storedVolume, readTwo, storedVolume⟩]
    storedVolume := by
  have hwrite : MountStep mounted oneFile emptyVolume writeTwo storedVolume :=
    ⟨[(.sys (.pwrite 3 [98, 99] 0), .ok 2)], [], .log 0 (.ok .ret), .cons ⟨rfl, rfl⟩ .nil, rfl⟩
  have hread : MountStep mounted oneFile storedVolume readTwo storedVolume := by
    have hsame : touch storedVolume.files (some 0)
        (FuseCall.store .posix (.sys (.pread 3 2 0)) (.ok 2)) = storedVolume.files :=
      Function.update_eq_self 0 _
    have hrest : Served .posix oneFile () (touch storedVolume.files (some 0)
        (FuseCall.store .posix (.sys (.pread 3 2 0)) (.ok 2))) [] [] [] () storedVolume.files := by
      rw [hsame]
      exact .nil
    exact ⟨[(.sys (.pread 3 2 0), .ok 2)], [98, 99], .log 0 (.ok .ret), .cons ⟨rfl, rfl⟩ hrest, rfl⟩
  exact (Run.nil.snoc hwrite).snoc hread

/-- Two bytes are written, and read as they were written. -/
theorem mount_is_posix_two : ∃ atr, Run (PlainStep mounted oneFile 0)
    (view mounted.daemon emptyVolume) atr (view mounted.daemon storedVolume) ∧
    atr.map (·.label) = [writeTwo, readTwo] := by
  refine mount_is_posix storedVolume_run fun x hx => ?_
  rcases List.mem_cons.1 hx with rfl | hx
  · exact fun _ i _ => .inr (Nat.zero_le _)
  · cases List.mem_singleton.1 hx
    exact fun _ i _ => trivial

end BbOper

end Eece4029
