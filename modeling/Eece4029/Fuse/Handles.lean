import Eece4029.Fuse.Handlers

/-!
# Descriptors and handles

A file that is opened through the mount is open in the daemon, and FUSE has its descriptor in
`fi->fh` until it asks the daemon to release it. `SessionStep` is a request in a session: the kernel
keeps the descriptors and the directory streams that the daemon has open, and FUSE the handles that
it has been given. FUSE promises to use only these, and to release each once: "for every open() call
there will be exactly one release() call".

`handles_balanced` says that the two never differ, whichever calls fail, so that no handler leaks a
descriptor, closes one twice or uses one that is closed. A session goes on as long as the daemon
answers, which it does not need to do when the behaviour of a request is undefined.
-/

namespace Eece4029

open Errno Transition

namespace BbOper

/-! ## The two tables -/

/-- The descriptors of files, and the directory streams. -/
structure Handles where
  files : List Int
  dirs : List Int

namespace Handles

/-- What a call does to the descriptors of the daemon: a new one is not in use, and `close` frees
the one that it is given even when it fails. Error numbers are positive. -/
def Call (k : Handles) (x : FuseCall × Except Nat Nat) (k' : Handles) : Prop :=
  (∀ e, x.2 = .error e → 0 < e) ∧
    match x.1, x.2 with
    | .sys (.«open» ..), .ok n | .sys (.creat ..), .ok n =>
      (n : Int) ∉ k.files ∧ k' = { k with files := n :: k.files }
    | .sys (.close fd), _ => k' = { k with files := k.files.erase fd }
    | .opendir _, .ok n => n ≠ 0 ∧ (n : Int) ∉ k.dirs ∧ k' = { k with dirs := n :: k.dirs }
    | .closedir dp, _ => k' = { k with dirs := k.dirs.erase dp }
    | _, _ => k' = k

/-- The call is on a descriptor that is open. -/
def Open (k : Handles) : FuseCall → Prop
  | .sys (.close fd) | .sys (.ftruncate fd _) | .sys (.pread fd _ _) | .sys (.pwrite fd _ _)
  | .sys (.fsync fd) | .sys (.fdatasync fd) | .fstat fd => fd ∈ k.files
  | .readdir dp | .closedir dp => dp ∈ k.dirs
  | _ => True

/-- FUSE has the handle that it uses. -/
def Holds (s : Handles) : FuseOp → Prop
  | .oper (.read _ _ fh) | .oper (.write _ _ fh) | .oper (.fsync _ fh) | .oper (.ftruncate _ fh)
  | .flush fh | .release fh | .fgetattr fh => fh ∈ s.files
  | .readdir _ fh | .releasedir fh | .fsyncdir fh => fh ∈ s.dirs
  | _ => True

/-- The handle in the answer to a request that opens something: FUSE takes it from `fi->fh` if zero
was returned. -/
def given (a : Int × Option Int) : List Int := if a.1 = 0 then a.2.toList else []

/-- The handles that FUSE has after a request. -/
def next (s : Handles) : FuseOp → Int × Option Int → Handles
  | .oper (.«open» ..), a | .oper (.create ..), a => { s with files := given a ++ s.files }
  | .release fh, _ => { s with files := s.files.erase fh }
  | .opendir _, a => { s with dirs := given a ++ s.dirs }
  | .releasedir fh, _ => { s with dirs := s.dirs.erase fh }
  | _, _ => s

theorem given_error {e : Nat} {fh : Option Int} (he : 0 < e) : given (-(e : Int), fh) = [] :=
  if_neg (show -(e : Int) ≠ 0 by omega)

end Handles

/-- What the daemon has open, and what FUSE holds. -/
structure SessionState where
  kernel : Handles
  fuse : Handles

/-- A request of FUSE: what the handler has returned and put into `fi->fh`, and its calls. -/
structure SessionRequest where
  op : FuseOp
  answer : Int × Option Int
  calls : List (Step Handles (FuseCall × Except Nat Nat))

/-- FUSE makes a request with handles that it has, and the daemon serves it. -/
def SessionStep (bb : BbState) (s : SessionState) (req : SessionRequest) (s' : SessionState) :
    Prop :=
  s.fuse.Holds req.op ∧
    (∃ err err', Exec (req.op.serve bb) err (req.calls.map (·.label)) req.answer err') ∧
    Run Handles.Call s.kernel req.calls s'.kernel ∧ s'.fuse = s.fuse.next req.op req.answer

/-! ## The calls of each handler -/

variable {bb : BbState} {k k' : Handles} {calls : List (Step Handles (FuseCall × Except Nat Nat))}
  {c : FuseCall} {r : Except Nat Nat} {tr : List (FuseCall × Except Nat Nat)} {err err' : Nat}
  {a : Int × Option Int}

/-- The call leaves the tables as they are. -/
def FuseCall.Inert : FuseCall → Prop
  | .sys (.«open» ..) | .sys (.creat ..) | .sys (.close _) | .opendir _ | .closedir _ => False
  | _ => True

theorem FuseCall.Inert.eq (hc : c.Inert) (h : k.Call (c, r) k') : k' = k := by
  obtain ⟨-, h⟩ := h
  cases c with
  | sys c => cases c <;> first | exact hc.elim | exact h
  | opendir | closedir => exact hc.elim
  | _ => exact h

theorem run_inert (h : Run Handles.Call k calls k')
    (hcalls : ∀ x ∈ calls.map (·.label), x.1.Inert ∧ k.Open x.1) :
    k' = k ∧ ∀ y ∈ calls, y.pre.Open y.label.1 := by
  induction h with
  | nil => exact ⟨rfl, fun y hy => absurd hy List.not_mem_nil⟩
  | snoc _ hs ih =>
    rw [List.map_append, List.forall_mem_append] at hcalls
    obtain ⟨rfl, hopen⟩ := ih hcalls.1
    obtain ⟨hinert, hlast⟩ := hcalls.2 _ (List.mem_singleton_self _)
    refine ⟨hinert.eq hs, List.forall_mem_append.2 ⟨hopen, ?_⟩⟩
    exact List.forall_mem_singleton.2 hlast

theorem run_one {x : FuseCall × Except Nat Nat} (h : Run Handles.Call k calls k')
    (hcalls : calls.map (·.label) = [x]) : k.Call x k' ∧ calls = [⟨k, x, k'⟩] := by
  obtain ⟨y, rfl, rfl⟩ := List.map_eq_singleton_iff.1 hcalls
  obtain ⟨hpre, hcall, hrest⟩ := h.cons_inv
  rw [hrest.eq_of_nil]
  exact ⟨hcall, hpre ▸ rfl⟩

/-- `bb_open` and `bb_create` make one call, and `fi->fh` is a descriptor if it succeeds. -/
theorem exec_opening {path : String} {f : String → SysCall}
    (h : Exec (setting ((opening bb path f).mapCall FuseCall.sys)) err tr a err') :
    ∃ fpath r, tr = [(.sys (f fpath), r)] ∧ ((∃ n : Nat, r = .ok n ∧ a = (0, some (n : Int))) ∨
      ∃ e : Nat, r = .error e ∧ a = (-(e : Int), some (-1))) := by
  obtain ⟨tr₁, tr₂, ⟨retstat, fh⟩, err₁, rfl, hopen, hret⟩ := h.bind_inv
  obtain ⟨rfl, rfl, -⟩ := exec_pure.1 hret
  obtain ⟨tr', rfl, hopen'⟩ := exec_mapCall.1 hopen
  obtain ⟨-, _, hnext⟩ := exec_path hopen'
  rcases hnext.call_inv with ⟨n, err₂, tr'', rfl, hok⟩ | ⟨e, tr'', rfl, herror⟩
  · rw [if_neg (by omega)] at hok
    cases hok with
    | log _ hok =>
      cases hok
      exact ⟨_, .ok n, rfl, .inl ⟨n, rfl, rfl⟩⟩
  · have hfailed : Answers (fun e => (negated e, (-1 : Int)))
        (bbError >>= fun retstat => log >>= fun _ => pure (retstat, -1)) :=
      answers_bbError.bind fun _ => silent_log.answers fun _ => answers_pure
    obtain ⟨rfl, heq⟩ := hfailed _ _ _ _ herror
    cases heq
    exact ⟨_, .error e, rfl, .inr ⟨e, rfl, rfl⟩⟩

theorem exec_release {fh : Int} (h : Exec ((FuseOp.release fh).serve bb) err tr a err') :
    ∃ r, tr = [(.sys (.close fh), r)] := by
  obtain ⟨tr₁, tr₂, retstat, err₁, rfl, hcall, hret⟩ := h.bind_inv
  obtain ⟨rfl, -, -⟩ := exec_pure.1 hret
  obtain ⟨_, _, hcall⟩ := hcall.after silent_log
  cases hcall with
  | ok hcall =>
    cases hcall
    exact ⟨_, rfl⟩
  | error hcall =>
    cases hcall
    exact ⟨_, rfl⟩

theorem exec_releasedir {fh : Int} (h : Exec ((FuseOp.releasedir fh).serve bb) err tr a err') :
    ∃ r, tr = [(.closedir fh, r)] := by
  obtain ⟨tr₁, tr₂, retstat, err₁, rfl, hcall, hret⟩ := h.bind_inv
  obtain ⟨rfl, -, -⟩ := exec_pure.1 hret
  obtain ⟨_, _, hcall⟩ := hcall.after silent_log
  rcases hcall.call_inv with ⟨n, err₂, tr'', rfl, hok⟩ | ⟨e, tr'', rfl, herror⟩
  · obtain ⟨rfl, -, -⟩ := exec_pure.1 hok
    exact ⟨_, rfl⟩
  · obtain ⟨rfl, -, -⟩ := exec_pure.1 herror
    exact ⟨_, rfl⟩

/-- `bb_opendir` makes one call, and `fi->fh` is a stream if it succeeds. -/
theorem exec_opendir {path : String} (h : Exec ((FuseOp.opendir path).serve bb) err tr a err') :
    ∃ fpath r, tr = [(.opendir fpath, r)] ∧
      ((∃ n : Nat, r = .ok n ∧ (n ≠ 0 → a = (0, some (n : Int)))) ∨
        ∃ e : Nat, r = .error e ∧ a = (-(e : Int), some 0)) := by
  obtain ⟨tr₁, tr₂, ⟨retstat, fh⟩, err₁, rfl, hopen, hret⟩ := h.bind_inv
  obtain ⟨rfl, rfl, -⟩ := exec_pure.1 hret
  obtain ⟨_, _, hnext⟩ := hopen.after silent_log
  obtain ⟨fpath, _, hnext⟩ := hnext.after silent_fullpath
  rcases hnext.call_inv with ⟨n, err₂, tr'', rfl, hok⟩ | ⟨e, tr'', rfl, herror⟩
  · rw [pointer_natCast] at hok
    obtain rfl | hn := eq_or_ne n 0
    · rw [if_pos (show ((0 : Nat) : Int) = 0 from rfl)] at hok
      have hsilent := answers_reportError.silent.bind fun retstat =>
        silent_log.bind fun _ => silent_pure (a := (retstat, (0 : Int)))
      obtain rfl := hsilent _ _ _ _ hok
      exact ⟨fpath, .ok 0, rfl, .inl ⟨0, rfl, fun h => absurd rfl h⟩⟩
    · rw [if_neg (Int.ofNat_ne_zero.2 hn)] at hok
      cases hok with
      | log _ hok =>
        cases hok
        exact ⟨fpath, .ok n, rfl, .inl ⟨n, rfl, fun _ => rfl⟩⟩
  · have hfailed : Answers (fun e => (negated e, (0 : Int)))
        (reportError >>= fun retstat => log >>= fun _ => pure (retstat, 0)) :=
      answers_reportError.bind fun _ => silent_log.answers fun _ => answers_pure
    obtain ⟨rfl, heq⟩ := hfailed _ _ _ _ herror
    cases heq
    exact ⟨fpath, .error e, rfl, .inr ⟨e, rfl, rfl⟩⟩

/-- `bb_mknod` closes the descriptor that it has opened, or makes one call that leaves none. -/
theorem exec_mknod {path : String} {mode dev : Nat}
    (h : Exec ((bbMknod bb path mode dev).mapCall FuseCall.sys) err tr a.1 err') :
    (∃ fpath n r, tr = [(.sys (.«open» fpath createFlags (some mode)), .ok n),
      (.sys (.close n), r)]) ∨
    (∃ fpath e, tr = [(.sys (.«open» fpath createFlags (some mode)), .error e)]) ∨
    ∃ c r, tr = [(c, r)] ∧ c.Inert ∧ ∀ k : Handles, k.Open c := by
  obtain ⟨tr', rfl, hexec⟩ := exec_mapCall.1 h
  obtain ⟨-, _, hnext⟩ := exec_path hexec
  split at hnext
  · rcases hnext.call_inv with ⟨n, err₁, tr'', rfl, hok⟩ | ⟨e, tr'', rfl, herror⟩
    · rw [if_neg (by omega)] at hok
      obtain ⟨r, rfl, -⟩ := exec_checked hok
      exact .inl ⟨_, n, r, rfl⟩
    · obtain ⟨rfl, -⟩ := answers_bbError _ _ _ _ herror
      exact .inr (.inl ⟨_, e, rfl⟩)
  · split at hnext
    · obtain ⟨r, rfl, -⟩ := exec_checked hnext
      exact .inr (.inr ⟨_, r, rfl, trivial, fun _ => trivial⟩)
    · obtain ⟨r, rfl, -⟩ := exec_checked hnext
      exact .inr (.inr ⟨_, r, rfl, trivial, fun _ => trivial⟩)

/-! ## What a request does to the tables -/

/-- The kernel's table after a request is the one that FUSE has then, and every call was on a
descriptor that was open. -/
structure Balanced (k : Handles) (req : SessionRequest) (k' : Handles) : Prop where
  eq : k' = k.next req.op req.answer
  isOpen : ∀ y ∈ req.calls, y.pre.Open y.label.1

theorem balanced_opening {op : Operation} {path : String} {f : String → SysCall}
    (hop : (∃ flags, op = .«open» path flags ∧ f = fun fpath => .«open» fpath flags none) ∨
      ∃ mode, op = .create path mode ∧ f = fun fpath => .creat fpath mode)
    (h : Exec (setting ((opening bb path f).mapCall FuseCall.sys)) err (calls.map (·.label)) a err')
    (hr : Run Handles.Call k calls k') : Balanced k ⟨.oper op, a, calls⟩ k' := by
  obtain ⟨fpath, r, hcalls, hcases⟩ := exec_opening h
  obtain ⟨⟨herror, hcall⟩, rfl⟩ := run_one hr hcalls
  have hnext : k.next (.oper op) a = { k with files := Handles.given a ++ k.files } := by
    rcases hop with ⟨flags, rfl, -⟩ | ⟨mode, rfl, -⟩ <;> rfl
  refine ⟨?_, List.forall_mem_singleton.2 ?_⟩
  · rw [hnext]
    rcases hcases with ⟨n, rfl, rfl⟩ | ⟨e, rfl, rfl⟩
    · rcases hop with ⟨flags, -, rfl⟩ | ⟨mode, -, rfl⟩
      · exact hcall.2
      · exact hcall.2
    · rw [Handles.given_error (herror e rfl)]
      rcases hop with ⟨flags, -, rfl⟩ | ⟨mode, -, rfl⟩
      · exact hcall
      · exact hcall
  · rcases hop with ⟨flags, -, rfl⟩ | ⟨mode, -, rfl⟩ <;> trivial

theorem balanced_opendir {path : String}
    (h : Exec ((FuseOp.opendir path).serve bb) err (calls.map (·.label)) a err')
    (hr : Run Handles.Call k calls k') : Balanced k ⟨.opendir path, a, calls⟩ k' := by
  obtain ⟨fpath, r, hcalls, hcases⟩ := exec_opendir h
  obtain ⟨⟨herror, hcall⟩, rfl⟩ := run_one hr hcalls
  refine ⟨?_, List.forall_mem_singleton.2 trivial⟩
  rcases hcases with ⟨n, rfl, ha⟩ | ⟨e, rfl, rfl⟩
  · obtain rfl := ha hcall.1
    exact hcall.2.2
  · rw [Handles.next, Handles.given_error (herror e rfl)]
    exact hcall

theorem balanced_release {fh : Int} (hfh : fh ∈ k.files)
    (h : Exec ((FuseOp.release fh).serve bb) err (calls.map (·.label)) a err')
    (hr : Run Handles.Call k calls k') : Balanced k ⟨.release fh, a, calls⟩ k' := by
  obtain ⟨r, hcalls⟩ := exec_release h
  obtain ⟨⟨-, hcall⟩, rfl⟩ := run_one hr hcalls
  refine ⟨?_, List.forall_mem_singleton.2 hfh⟩
  cases r <;> exact hcall

theorem balanced_releasedir {fh : Int} (hfh : fh ∈ k.dirs)
    (h : Exec ((FuseOp.releasedir fh).serve bb) err (calls.map (·.label)) a err')
    (hr : Run Handles.Call k calls k') : Balanced k ⟨.releasedir fh, a, calls⟩ k' := by
  obtain ⟨r, hcalls⟩ := exec_releasedir h
  obtain ⟨⟨-, hcall⟩, rfl⟩ := run_one hr hcalls
  refine ⟨?_, List.forall_mem_singleton.2 hfh⟩
  cases r <;> exact hcall

theorem balanced_mknod {path : String} {mode dev : Nat}
    (h : Exec ((bbMknod bb path mode dev).mapCall FuseCall.sys) err (calls.map (·.label)) a.1 err')
    (hr : Run Handles.Call k calls k') :
    Balanced k ⟨.oper (.mknod path mode dev), a, calls⟩ k' := by
  rcases exec_mknod h with
    ⟨fpath, n, r, hcalls⟩ | ⟨fpath, e, hcalls⟩ | ⟨c, r, hcalls, hinert, hopen⟩
  · obtain ⟨⟨pre, x, post⟩, rest, rfl, hx, hrest⟩ := List.map_eq_cons_iff.1 hcalls
    obtain ⟨rfl, ⟨-, -, hpost⟩, hr⟩ := hx ▸ hr.cons_inv
    -- the descriptor that was opened is the first one
    obtain rfl : post = { pre with files := (n : Int) :: pre.files } := hpost
    obtain ⟨⟨-, hclose⟩, rfl⟩ := run_one hr hrest
    refine ⟨?_, List.forall_mem_cons.2 ⟨?_, List.forall_mem_singleton.2 ?_⟩⟩
    · have hk : k' = { pre with files := ((n : Int) :: pre.files).erase n } := by
        cases r <;> exact hclose
      rw [hk, List.erase_cons_head]
      rfl
    · exact hx ▸ trivial
    · exact List.mem_cons_self ..
  · obtain ⟨⟨-, hcall⟩, rfl⟩ := run_one hr hcalls
    exact ⟨hcall, List.forall_mem_singleton.2 trivial⟩
  · obtain ⟨hcall, rfl⟩ := run_one hr hcalls
    exact ⟨hinert.eq hcall, List.forall_mem_singleton.2 (hopen k)⟩

/-- The handler of the operation opens a file. -/
def Operation.Opens : Operation → Prop
  | .mknod .. | .«open» .. | .create .. => True
  | _ => False

/-- The calls of the others leave the tables alone, and use the handle of the request. -/
theorem Operation.Makes.inert {op : Operation} {c : SysCall} (h : op.Makes bb c)
    (hfh : k.Holds (.oper op)) (hop : ¬ op.Opens) : (FuseCall.sys c).Inert ∧ k.Open (.sys c) := by
  cases op with
  | mknod | «open» | create => exact absurd trivial hop
  | fsync =>
    rcases h with rfl | rfl
    · exact ⟨trivial, hfh⟩
    · exact ⟨trivial, hfh⟩
  | write =>
    obtain ⟨data, rfl⟩ := h
    exact ⟨trivial, hfh⟩
  | read | ftruncate =>
    obtain rfl := h
    exact ⟨trivial, hfh⟩
  | _ =>
    obtain rfl := h
    exact ⟨trivial, trivial⟩

theorem balanced_oper {op : Operation} (hfh : k.Holds (.oper op))
    (h : Exec (FuseOp.serve bb (.oper op)) err (calls.map (·.label)) a err')
    (hr : Run Handles.Call k calls k') : Balanced k ⟨.oper op, a, calls⟩ k' := by
  by_cases hop : op.Opens
  · cases op with
    | «open» path flags => exact balanced_opening (.inl ⟨flags, rfl, rfl⟩) h hr
    | create path mode => exact balanced_opening (.inr ⟨mode, rfl, rfl⟩) h hr
    | mknod => exact balanced_mknod (exec_keeping h) hr
    | _ => exact hop.elim
  · have hinert : ∀ x ∈ calls.map (·.label), x.1.Inert ∧ k.Open x.1 := by
      rintro ⟨c, r⟩ hx
      obtain ⟨c', rfl, hc'⟩ := calls_serve.exec h _ hx
      exact hc'.inert hfh hop
    obtain ⟨rfl, hall⟩ := run_inert hr hinert
    refine ⟨?_, hall⟩
    cases op with
    | «open» | create => exact absurd trivial hop
    | _ => rfl

theorem SessionStep.balanced {s s' : SessionState} {req : SessionRequest}
    (h : SessionStep bb s req s') (heq : s.kernel = s.fuse) : Balanced s.fuse req s'.kernel := by
  obtain ⟨op, a, calls⟩ := req
  obtain ⟨hfh, ⟨err, err', hexec⟩, hr, -⟩ := h
  rw [heq] at hr
  have hinert : (∀ c, op.Makes bb c → c.Inert ∧ s.fuse.Open c) → s'.kernel = s.fuse ∧
      ∀ y ∈ calls, y.pre.Open y.label.1 :=
    fun hall => run_inert hr fun x hx => hall _ (calls_serve.exec hexec x hx)
  cases op with
  | oper op => exact balanced_oper hfh hexec hr
  | release => exact balanced_release hfh hexec hr
  | opendir => exact balanced_opendir hexec hr
  | releasedir => exact balanced_releasedir hfh hexec hr
  | flush | fsyncdir =>
    obtain ⟨heq, hall⟩ := hinert fun c hc => hc.elim
    exact ⟨heq, hall⟩
  | fgetattr | readdir =>
    obtain ⟨heq, hall⟩ := hinert fun c hc => hc ▸ ⟨trivial, hfh⟩
    exact ⟨heq, hall⟩
  | getattr | readlink | statfs | access =>
    obtain ⟨heq, hall⟩ := hinert fun c hc => hc ▸ ⟨trivial, trivial⟩
    exact ⟨heq, hall⟩

/-! ## A whole session -/

/-- No descriptor is open twice. -/
def Handles.Distinct (k : Handles) : Prop := k.files.Nodup ∧ k.dirs.Nodup

theorem Handles.Call.distinct {x : FuseCall × Except Nat Nat} (h : k.Call x k')
    (hk : k.Distinct) : k'.Distinct := by
  obtain ⟨c, r⟩ := x
  by_cases hc : c.Inert
  · rwa [hc.eq h]
  · obtain ⟨-, h⟩ := h
    cases c with
    | sys c =>
      cases c with
      | «open» | creat =>
        cases r with
        | ok n =>
          obtain ⟨hn, rfl⟩ := h
          exact ⟨List.nodup_cons.2 ⟨hn, hk.1⟩, hk.2⟩
        | error e =>
          obtain rfl := h
          exact hk
      | close fd =>
        obtain rfl : k' = { k with files := k.files.erase fd } := by cases r <;> exact h
        exact ⟨hk.1.erase fd, hk.2⟩
      | _ => exact absurd trivial hc
    | opendir path =>
      cases r with
      | ok n =>
        obtain ⟨-, hn, rfl⟩ := h
        exact ⟨hk.1, List.nodup_cons.2 ⟨hn, hk.2⟩⟩
      | error e =>
        obtain rfl := h
        exact hk
    | closedir dp =>
      obtain rfl : k' = { k with dirs := k.dirs.erase dp } := by cases r <;> exact h
      exact ⟨hk.1, hk.2.erase dp⟩
    | _ => exact absurd trivial hc

/-- The mount when the daemon starts. -/
def SessionState.start : SessionState := ⟨⟨[], []⟩, ⟨[], []⟩⟩

/-- **No descriptor is leaked, closed twice or used after it was closed.** In every session,
whichever requests FUSE makes with the handles that it holds and whichever calls fail, the daemon
has open exactly what FUSE holds, nothing of it twice, and every call on a descriptor or a directory
stream is on one that is open at that moment. -/
theorem handles_balanced {tr : List (Step SessionState SessionRequest)} {s : SessionState}
    (h : Run (SessionStep bb) .start tr s) : s.kernel = s.fuse ∧ s.kernel.Distinct ∧
      ∀ x ∈ tr, ∀ y ∈ x.label.calls, y.pre.Open y.label.1 := by
  have hinv : ∀ s, Reachable (SessionStep bb) .start s → s.kernel = s.fuse ∧ s.kernel.Distinct := by
    intro s hs
    refine hs.inv (I := fun s => s.kernel = s.fuse ∧ s.kernel.Distinct)
      ⟨rfl, List.nodup_nil, List.nodup_nil⟩ ?_
    rintro s req s' ⟨heq, hdistinct⟩ hstep
    obtain ⟨-, -, hr, hnext⟩ := id hstep
    refine ⟨?_, hr.inv hdistinct fun _ _ _ hk hcall => hcall.distinct hk⟩
    rw [hnext, ← (hstep.balanced heq).eq]
  obtain ⟨heq, hdistinct⟩ := hinv s ⟨tr, h⟩
  refine ⟨heq, hdistinct, fun x hx => ?_⟩
  obtain ⟨hreach, hstep⟩ := h.mem x hx
  exact (hstep.balanced (hinv _ hreach).1).isOpen

/-- A file is made and let go again, and its `close` fails. -/
def openThree : SessionState := ⟨⟨[3], []⟩, ⟨[3], []⟩⟩

def createThree : SessionRequest :=
  ⟨.oper (.create "/a" 0o644), (0, some 3), [⟨⟨[], []⟩, (.sys (.creat "/root/a" 0o644), .ok 3),
    ⟨[3], []⟩⟩]⟩

def releaseThree : SessionRequest :=
  ⟨.release 3, (-1, none), [⟨⟨[3], []⟩, (.sys (.close 3), .error 5), ⟨[], []⟩⟩]⟩

theorem createRelease_run : Run (SessionStep mounted) .start
    [⟨.start, createThree, openThree⟩, ⟨openThree, releaseThree, .start⟩] .start := by
  have hcreate : SessionStep mounted .start createThree openThree := by
    refine ⟨trivial, ⟨0, 0, .log 0 (.log 0 (.ok (show Exec _ 0 _ _ _ from .log 0 .ret)))⟩, ?_, rfl⟩
    exact Run.nil.snoc ⟨by simp, List.not_mem_nil, rfl⟩
  have hrelease : SessionStep mounted openThree releaseThree .start := by
    refine ⟨List.mem_singleton_self 3, ⟨0, 5, release_exec⟩, ?_, rfl⟩
    exact Run.nil.snoc ⟨fun e he => by cases he; decide, rfl⟩
  exact (Run.nil.snoc hcreate).snoc hrelease

/-- The descriptor is closed when FUSE has let it go. -/
theorem handles_balanced_createRelease : SessionState.start.kernel = SessionState.start.fuse ∧
    SessionState.start.kernel.Distinct ∧
    ∀ x ∈ [(⟨.start, createThree, openThree⟩ : Step SessionState SessionRequest),
      ⟨openThree, releaseThree, .start⟩], ∀ y ∈ x.label.calls, y.pre.Open y.label.1 :=
  handles_balanced createRelease_run

end BbOper

end Eece4029
