import Eece4029.Vmm.Read

/-!
# Clients of the device

`write_mem` and `read_mem` of `hw5_vmm/vmm_test.c` are sequences of ioctls: the index is set by one,
the read size by another, and the last one transfers the bytes. The driver keeps both parameters in
variables of its own, so the ioctls of different clients share them. Each client here holds a page
of its own and repeats the two calls on it, in any order, with any string that fits and any number
of bytes; the ioctls of all clients interleave. `clients_isolated` says that the clients do not
disturb each other as long as every transfer finds the parameters its own client set;
`clients_interfere` is what happens otherwise.
-/

namespace Eece4029

open Transition Node

/-! ## Clients -/

/-- The arguments of `write_mem` on the page `p`: a string that fits from the index on. -/
structure WriteArgs (p : Region) where
  idx : Int
  buf : CString
  has : p.Has idx
  fits : idx + buf.chars.length ≤ p.start + p.len

/-- The arguments of `read_mem` on the page `p`: an index in the page and a number of bytes. -/
structure ReadArgs (p : Region) where
  idx : Int
  size : Int
  has : p.Has idx

/-- The page has that many bytes from the index on. -/
def ReadArgs.Fits {p : Region} (args : ReadArgs p) : Prop := args.idx + args.size ≤ p.start + p.len

/-- Where a client is: outside of a call, or before the ioctl that the constructor names. -/
inductive ClientPc (p : Region)
  | idle
  | write (args : WriteArgs p)
  | setReadSize (args : ReadArgs p)
  | read (args : ReadArgs p)

/-- The index that the call of the client has set. -/
def ClientPc.idx {p : Region} : ClientPc p → Option Int
  | .idle => none
  | .write args => some args.idx
  | .setReadSize args => some args.idx
  | .read args => some args.idx

variable {κ : Type} {page : κ → Region}

/-- The device with its clients. The last three fields are observations: who issued the last
`IOCTL_SET_IDX` and the last `IOCTL_SET_READ_SIZE`, and the byte that a client last wrote to an
address. -/
structure Clients (page : κ → Region) where
  dev : Device
  pc : (c : κ) → ClientPc (page c)
  idxBy : Option κ
  readSizeBy : Option κ
  written : κ → Int → Option UInt8

/-- The clients before their first call. -/
def Clients.init (page : κ → Region) (d : Device) : Clients page :=
  ⟨d, fun _ => .idle, none, none, fun _ _ => none⟩

variable [DecidableEq κ]

/-- `s` with the client `c` at `pc` and the device in the state `d`. -/
def Clients.at (s : Clients page) (c : κ) (pc : ClientPc (page c)) (d : Device) : Clients page :=
  { s with pc := Function.update s.pc c pc, dev := d }

@[simp] theorem Clients.at_pc_self (s : Clients page) (c : κ) (pc : ClientPc (page c))
    (d : Device) : (s.at c pc d).pc c = pc := Function.update_self ..

@[simp] theorem Clients.at_dev (s : Clients page) (c : κ) (pc : ClientPc (page c)) (d : Device) :
    (s.at c pc d).dev = d := rfl

theorem Clients.at_pc_of_ne (s : Clients page) {c c' : κ} (h : c' ≠ c) (pc : ClientPc (page c))
    (d : Device) : (s.at c pc d).pc c' = s.pc c' := Function.update_of_ne h ..

/-- What a client has written after one more `write_mem`. -/
def WriteArgs.written {p : Region} (args : WriteArgs p) (old : Int → Option UInt8) (a : Int) :
    Option UInt8 :=
  if args.idx ≤ a then (args.buf.chars[(a - args.idx).toNat]?).or (old a) else old a

/-- A step: the next ioctl of one client. A call ends early when an ioctl before its last one
returns an error. -/
inductive ClientStep (page : κ → Region) : Clients page → κ × Call → Clients page → Prop
  | writeSetIdx {s : Clients page} {c : κ} {rt : Int} {out : List UInt8} {d : Device}
      (args : WriteArgs (page c)) (hpc : s.pc c = .idle)
      (h : DeviceStep s.dev ⟨.setIdx args.idx, rt, out⟩ d) :
      ClientStep page s (c, ⟨.setIdx args.idx, rt, out⟩)
        { s.at c (if rt < 0 then .idle else .write args) d with idxBy := some c }
  | write {s : Clients page} {c : κ} {rt : Int} {out : List UInt8} {d : Device}
      (args : WriteArgs (page c)) (hpc : s.pc c = .write args)
      (h : DeviceStep s.dev ⟨.write args.buf, rt, out⟩ d) :
      ClientStep page s (c, ⟨.write args.buf, rt, out⟩)
        { s.at c .idle d with written := Function.update s.written c (args.written (s.written c)) }
  | readSetIdx {s : Clients page} {c : κ} {rt : Int} {out : List UInt8} {d : Device}
      (args : ReadArgs (page c)) (hpc : s.pc c = .idle)
      (h : DeviceStep s.dev ⟨.setIdx args.idx, rt, out⟩ d) :
      ClientStep page s (c, ⟨.setIdx args.idx, rt, out⟩)
        { s.at c (if rt < 0 then .idle else .setReadSize args) d with idxBy := some c }
  | setReadSize {s : Clients page} {c : κ} {rt : Int} {out : List UInt8} {d : Device}
      (args : ReadArgs (page c)) (hpc : s.pc c = .setReadSize args)
      (h : DeviceStep s.dev ⟨.setReadSize args.size, rt, out⟩ d) :
      ClientStep page s (c, ⟨.setReadSize args.size, rt, out⟩)
        { s.at c (if rt < 0 then .idle else .read args) d with readSizeBy := some c }
  | read {s : Clients page} {c : κ} {rt : Int} {out : List UInt8} {d : Device}
      (args : ReadArgs (page c)) (hpc : s.pc c = .read args)
      (h : DeviceStep s.dev ⟨.read, rt, out⟩ d) :
      ClientStep page s (c, ⟨.read, rt, out⟩) (s.at c .idle d)

/-! ## The conditions on a step -/

/-- The ioctl that ends a call finds the parameters that its own client set. -/
def Undisturbed (s : Clients page) (x : κ × Call) : Prop :=
  match x.2.ioctl with
  | .write _ => s.idxBy = some x.1
  | .read => s.idxBy = some x.1 ∧ s.readSizeBy = some x.1
  | _ => True

/-- A `write_mem` has stored its string in the caller's page and nothing anywhere else; a `read_mem`
has returned the bytes at its index, and where the caller has written, those are the ones it wrote
last. A `read_mem` of more bytes than the page has is an error. -/
def CallOk (x : Step (Clients page) (κ × Call)) : Prop :=
  match x.label.2.ioctl with
  | .write buf => ∃ args, x.pre.pc x.label.1 = .write args ∧ args.buf = buf ∧
      x.label.2.rt = buf.chars.length ∧
      (∀ (k : Nat) ch, buf.chars[k]? = some ch →
        (page x.label.1).Has (args.idx + k) ∧ x.post.dev.buddyPool (args.idx + k) = ch) ∧
      ∀ a, ¬ (page x.label.1).Has a → x.post.dev.buddyPool a = x.pre.dev.buddyPool a
  | .read => ∃ args, x.pre.pc x.label.1 = .read args ∧
      (¬ args.Fits → x.label.2.rt = -1 ∧ x.label.2.out = []) ∧
      (args.Fits → x.label.2.rt = args.size.toNat ∧ x.label.2.out.length = args.size.toNat ∧
        ∀ k < args.size.toNat, (page x.label.1).Has (args.idx + k) ∧
          x.label.2.out[k]? = some (x.pre.dev.buddyPool (args.idx + k)) ∧
          ∀ ch, x.pre.written x.label.1 (args.idx + k) = some ch → x.label.2.out[k]? = some ch)
  | _ => True

/-! ## One transfer -/

variable {b p : Region} {t : Node} {d : Device} {s s' : Clients page} {l : κ × Call}

/-- An undisturbed `IOCTL_WRITE` stores the string in the page. -/
theorem WriteArgs.write_spec (args : WriteArgs p) (ht : BuddyTree b d.buddyHead)
    (hp : p ∈ d.buddyHead.pages) (hidx : d.currentIdx = args.idx) :
    (d.write args.buf).1 = args.buf.chars.length ∧
    (∀ (k : Nat) ch, args.buf.chars[k]? = some ch →
      p.Has (args.idx + k) ∧ (d.write args.buf).2.buddyPool (args.idx + k) = ch) ∧
    ∀ a, ¬ p.Has a → (d.write args.buf).2.buddyPool a = d.buddyPool a := by
  have hhas := args.has
  have hfits := args.fits
  obtain ⟨hrt, hpool⟩ := Device.write_fits ht hp (hidx ▸ hhas) (s := args.buf)
    (by simp only [Device.room]; omega)
  simp only [Region.Has] at hhas
  refine ⟨hrt, ?_, ?_⟩
  · intro k ch hk
    have hlt := (List.getElem?_eq_some_iff.1 hk).1
    refine ⟨⟨by omega, by omega⟩, ?_⟩
    rw [hpool, hidx, if_pos (by omega), add_sub_cancel_left, Int.toNat_natCast, hk]
    rfl
  · intro a ha
    rw [hpool, hidx]
    split
    · next hle =>
      have hout : ¬ a < p.start + p.len := fun hlt => ha ⟨by omega, hlt⟩
      rw [List.getElem?_eq_none (by omega)]
      rfl
    · rfl

/-- What a client has written is what the pool holds, also after one more undisturbed write. -/
theorem WriteArgs.written_spec (args : WriteArgs p) (ht : BuddyTree b d.buddyHead)
    (hp : p ∈ d.buddyHead.pages) (hidx : d.currentIdx = args.idx) {old : Int → Option UInt8}
    (hold : ∀ a ch, old a = some ch → p.Has a ∧ d.buddyPool a = ch) {a : Int} {ch : UInt8}
    (h : args.written old a = some ch) :
    p.Has a ∧ (d.write args.buf).2.buddyPool a = ch := by
  have hhas := args.has
  have hfits := args.fits
  obtain ⟨-, hpool⟩ := Device.write_fits ht hp (hidx ▸ hhas) (s := args.buf)
    (by simp only [Device.room]; omega)
  rw [hpool, hidx]
  unfold WriteArgs.written at h
  by_cases hle : args.idx ≤ a
  · rw [if_pos hle] at h ⊢
    cases hk : args.buf.chars[(a - args.idx).toNat]? with
    | some c =>
      rw [hk] at h
      cases h
      have hlt := (List.getElem?_eq_some_iff.1 hk).1
      simp only [Region.Has] at hhas
      exact ⟨⟨by omega, by omega⟩, rfl⟩
    | none =>
      rw [hk, Option.none_or] at h
      exact hold a ch h
  · rw [if_neg hle] at h ⊢
    exact hold a ch h

/-- An undisturbed `IOCTL_READ` copies the bytes of the page. -/
theorem ReadArgs.read_spec (args : ReadArgs p) (ht : BuddyTree b d.buddyHead)
    (hp : p ∈ d.buddyHead.pages) (hidx : d.currentIdx = args.idx)
    (hsize : d.readSize = args.size) (hfits : args.Fits) :
    d.read.1 = args.size.toNat ∧ d.read.2.length = args.size.toNat ∧
      ∀ k < args.size.toNat, p.Has (args.idx + k) ∧
        d.read.2[k]? = some (d.buddyPool (args.idx + k)) := by
  have hhas := args.has
  simp only [ReadArgs.Fits] at hfits
  have hread : d.read = ((args.size.toNat : Int), readLoop d.buddyPool args.idx args.size) := by
    rw [Device.read_of_has ht hp (hidx ▸ hhas), Device.room, hidx, hsize, if_neg (by omega)]
  rw [hread]
  simp only [Region.Has] at hhas
  refine ⟨rfl, length_readLoop args.idx args.size, fun k hk => ⟨⟨by omega, by omega⟩, ?_⟩⟩
  exact getElem?_readLoop.2 ⟨by omega, rfl⟩

/-- An `IOCTL_READ` of more bytes than the page has copies none. -/
theorem ReadArgs.read_error (args : ReadArgs p) (ht : BuddyTree b d.buddyHead)
    (hp : p ∈ d.buddyHead.pages) (hidx : d.currentIdx = args.idx)
    (hsize : d.readSize = args.size) (hfits : ¬ args.Fits) : d.read = (-1, []) := by
  simp only [ReadArgs.Fits] at hfits
  rw [Device.read_of_has ht hp (hidx ▸ args.has), Device.room, hidx, hsize, if_pos (by omega)]

/-! ## The invariant -/

/-- What holds between the calls of the clients and the device while the transfers are
undisturbed. -/
structure ClientInv (page : κ → Region) (t : Node) (s : Clients page) : Prop where
  tree : s.dev.buddyHead = t
  idx : ∀ c i, s.idxBy = some c → (s.pc c).idx = some i → s.dev.currentIdx = i
  readSize : ∀ c args, s.readSizeBy = some c → s.pc c = .read args → s.dev.readSize = args.size
  memory : ∀ c a ch, s.written c a = some ch → (page c).Has a ∧ s.dev.buddyPool a = ch

omit [DecidableEq κ] in
/-- It holds before the first call. -/
theorem ClientInv.init (d : Device) : ClientInv page d.buddyHead (Clients.init page d) :=
  ⟨rfl, fun _ _ h => (nomatch h), fun _ _ h => (nomatch h), fun _ _ _ h => (nomatch h)⟩

/-- A client that is not about to read leaves the read size to the one that set it. -/
theorem ClientInv.readSize_at {c : κ} {pc : ClientPc (page c)} (hi : ClientInv page t s)
    (hpc : ∀ args, pc ≠ .read args) (hd : d.readSize = s.dev.readSize) :
    ∀ c' args, s.readSizeBy = some c' → (s.at c pc d).pc c' = .read args →
      d.readSize = args.size := by
  intro c' args hc' hpc'
  by_cases hcc : c' = c
  · subst hcc
    rw [Clients.at_pc_self] at hpc'
    exact absurd hpc' (hpc args)
  · rw [s.at_pc_of_ne hcc] at hpc'
    exact hd.trans (hi.readSize c' args hc' hpc')

/-- A client that sets the index is the one that set it last. -/
theorem ClientInv.setIdx {c : κ} {pc : ClientPc (page c)} {i : Int} (hi : ClientInv page t s)
    (hpc : ∀ args, pc ≠ .read args) (hidx : ∀ j, pc.idx = some j → i = j) :
    ClientInv page t { s.at c pc { s.dev with currentIdx := i } with idxBy := some c } := by
  refine ⟨hi.tree, ?_, ?_, hi.memory⟩
  · intro c' j hc' hpc'
    cases hc'
    rw [s.at_pc_self] at hpc'
    exact hidx j hpc'
  · intro c' args hc' hpc'
    exact hi.readSize_at hpc rfl c' args hc' hpc'

/-- A client whose call is over leaves no index that another one relies on. -/
theorem Clients.idx_at_idle {c : κ} (hby : s.idxBy = some c) :
    ∀ c' i, s.idxBy = some c' → ((s.at c .idle d).pc c').idx = some i → d.currentIdx = i := by
  intro c' i hc' hpc'
  obtain rfl : c = c' := Option.some.inj (hby.symm.trans hc')
  rw [s.at_pc_self] at hpc'
  cases hpc'

/-- An undisturbed step keeps the invariant and is right. -/
theorem ClientInv.step (ht : BuddyTree b t) (hpage : ∀ c, page c ∈ t.pages)
    (hne : ∀ c c', c ≠ c' → page c ≠ page c') (hinv : ClientInv page t s) (hu : Undisturbed s l)
    (hs : ClientStep page s l s') : ClientInv page t s' ∧ CallOk ⟨s, l, s'⟩ := by
  have ⟨htree, hidx, hsize, hmem⟩ := hinv
  subst htree
  cases hs with
  | @writeSetIdx c rt out d args hpc h =>
    obtain ⟨-, rfl, rfl⟩ := h
    exact ⟨hinv.setIdx nofun fun j hj => Option.some.inj hj, trivial⟩
  | @write c rt out d args hpc h =>
    obtain ⟨-, hrt, rfl⟩ := h
    have hi : s.dev.currentIdx = args.idx := hidx c _ hu (by rw [hpc]; rfl)
    obtain ⟨hret, hstore, hframe⟩ := args.write_spec ht (hpage c) hi
    refine ⟨⟨rfl, Clients.idx_at_idle hu, ?_, ?_⟩, args, hpc, rfl, hrt.trans hret, hstore, hframe⟩
    · intro c' args' hc' hpc'
      exact hinv.readSize_at (by simp) rfl c' args' hc' hpc'
    · intro c' a ch hw
      by_cases hcc : c' = c
      · subst hcc
        simp only [Function.update_self] at hw
        exact args.written_spec ht (hpage c') hi (hmem c') hw
      · simp only [Function.update_of_ne hcc] at hw
        obtain ⟨hhas, hold⟩ := hmem c' a ch hw
        -- the pages of two clients are disjoint
        have hout := ht.pages_disjoint (hpage c') (hpage c) (hne c' c hcc) a hhas
        exact ⟨hhas, (hframe a hout).trans hold⟩
  | @readSetIdx c rt out d args hpc h =>
    obtain ⟨-, rfl, rfl⟩ := h
    exact ⟨hinv.setIdx nofun fun j hj => Option.some.inj hj, trivial⟩
  | @setReadSize c rt out d args hpc h =>
    obtain ⟨-, rfl, rfl⟩ := h
    refine ⟨⟨rfl, ?_, ?_, hmem⟩, trivial⟩
    · intro c' i hc' hpc'
      by_cases hcc : c' = c
      · subst hcc
        refine hidx c' i hc' ?_
        rw [hpc]
        simpa [ClientPc.idx] using hpc'
      · rw [s.at_pc_of_ne hcc] at hpc'
        exact hidx c' i hc' hpc'
    · intro c' args' hc' hpc'
      cases hc'
      rw [Clients.at_pc_self] at hpc'
      cases hpc'
      rfl
  | @read c rt out d args hpc h =>
    obtain ⟨hout, hrt, rfl⟩ := h
    have hi : s.dev.currentIdx = args.idx := hidx c _ hu.1 (by rw [hpc]; rfl)
    have hs := hsize c args hu.2 hpc
    refine ⟨⟨rfl, Clients.idx_at_idle hu.1, ?_, hmem⟩, args, hpc, ?_, ?_⟩
    · intro c' args' hc' hpc'
      obtain rfl : c = c' := Option.some.inj (hu.2.symm.trans hc')
      simp at hpc'
    · intro hno
      have herr := args.read_error ht (hpage c) hi hs hno
      exact ⟨hrt.trans (congrArg Prod.fst herr), hout.trans (congrArg Prod.snd herr)⟩
    · intro hfits
      obtain ⟨hret, hlen, hbytes⟩ := args.read_spec ht (hpage c) hi hs hfits
      refine ⟨hrt.trans hret, (congrArg List.length hout).trans hlen, ?_⟩
      intro k hk
      obtain ⟨hhas, hbyte⟩ := hbytes k hk
      have hbyte' : out[k]? = _ := (congrArg (·[k]?) hout).trans hbyte
      exact ⟨hhas, hbyte', fun ch hw => hbyte'.trans (congrArg some (hmem c _ ch hw).2)⟩

/-! ## Isolation -/

/-- **Clients do not disturb each other** in any interleaving in which every transfer finds the
parameters its own client set: each `write_mem` stores its string in the caller's page, and each
`read_mem` returns the bytes the caller last wrote there. -/
theorem clients_isolated {S : Nat} {pool : Int → UInt8} {dtr : List (Step Device Call)}
    (hd : DeviceRun S pool dtr d) (hpage : ∀ c, page c ∈ d.buddyHead.pages)
    (hne : ∀ c c', c ≠ c' → page c ≠ page c') {tr : List (Step (Clients page) (κ × Call))}
    (h : Run (ClientStep page) (Clients.init page d) tr s)
    (hu : ∀ x ∈ tr, Undisturbed x.pre x.label) : ∀ x ∈ tr, CallOk x := by
  have hstep : ∀ s l s', ClientInv page d.buddyHead s → Undisturbed s l → ClientStep page s l s' →
      ClientInv page d.buddyHead s' ∧ CallOk ⟨s, l, s'⟩ :=
    fun _ _ _ hi hu hs => hi.step hd.tree hpage hne hu hs
  obtain ⟨-, hinv⟩ := h.inv_where (ClientInv.init d)
    (fun s l s' hi hu hs => (hstep s l s' hi hu hs).1) hu
  intro x hx
  exact (hstep x.pre x.label x.post (hinv x hx).1 (hu x hx) (h.mem x hx).2).2

/-- Two clients, each with one of the two pages. -/
def twoClients : Bool → Region
  | false => ⟨0, 2⟩
  | true => ⟨2, 2⟩

/-- One client writes "a" to the first byte of its page. -/
def writeA : WriteArgs (twoClients false) := ⟨0, ⟨[97], by decide⟩, by decide, by decide⟩

/-- The other client writes "b" to the first byte of its page. -/
def writeB : WriteArgs (twoClients true) := ⟨2, ⟨[98], by decide⟩, by decide, by decide⟩

/-- The first client reads that byte back. -/
def readA : ReadArgs (twoClients false) := ⟨0, 1, by decide⟩

/-- When the other client sets its index between the two ioctls of a `write_mem`, the string lands
in the other client's page. -/
theorem clients_interfere : (∃ dtr, DeviceRun 4 (fun _ => 0) dtr twoPagesDevice) ∧
    ¬ ∀ tr s, Run (ClientStep twoClients) (Clients.init twoClients twoPagesDevice) tr s →
      ∀ x ∈ tr, CallOk x := by
  refine ⟨twoPagesDevice_run, ?_⟩
  intro hall
  have h₀ : Run (ClientStep twoClients) (Clients.init twoClients twoPagesDevice) [] _ := .nil
  have h₁ := h₀.snoc (ClientStep.writeSetIdx writeA rfl ⟨rfl, rfl, rfl⟩)
  have h₂ := h₁.snoc (ClientStep.writeSetIdx writeB rfl ⟨rfl, rfl, rfl⟩)
  have h₃ := h₂.snoc (ClientStep.write writeA rfl ⟨rfl, rfl, rfl⟩)
  obtain ⟨_, _, _, _, _, hframe⟩ :=
    hall _ _ h₃ _ (List.mem_append_right _ (List.mem_singleton_self _))
  exact absurd (hframe 2 (by decide)) (by decide)

/-- The same two calls, one after the other, and a `read_mem` of the first client. -/
theorem clients_isolated_twoClients : ∃ tr s,
    Run (ClientStep twoClients) (Clients.init twoClients twoPagesDevice) tr s ∧ tr.length = 7 ∧
      ∀ x ∈ tr, CallOk x := by
  obtain ⟨dtr, hd⟩ := twoPagesDevice_run
  have h₀ : Run (ClientStep twoClients) (Clients.init twoClients twoPagesDevice) [] _ := .nil
  have h₁ := h₀.snoc (ClientStep.writeSetIdx writeA rfl ⟨rfl, rfl, rfl⟩)
  have h₂ := h₁.snoc (ClientStep.write writeA rfl ⟨rfl, rfl, rfl⟩)
  have h₃ := h₂.snoc (ClientStep.writeSetIdx writeB rfl ⟨rfl, rfl, rfl⟩)
  have h₄ := h₃.snoc (ClientStep.write writeB rfl ⟨rfl, rfl, rfl⟩)
  have h₅ := h₄.snoc (ClientStep.readSetIdx readA rfl ⟨rfl, rfl, rfl⟩)
  have h₆ := h₅.snoc (ClientStep.setReadSize readA rfl ⟨rfl, rfl, rfl⟩)
  have h₇ := h₆.snoc (ClientStep.read readA rfl ⟨rfl, rfl, rfl⟩)
  refine ⟨_, _, h₇, rfl, clients_isolated hd (by decide) (by decide) h₇ ?_⟩
  simp [Undisturbed, Clients.at]

end Eece4029
