import Eece4029.Fuse.Bbfs

/-!
# What a read of the mounted file returns

`bb_write` adds one to every byte and `bb_read` takes it off again, modulo 256, whether `char` is
signed or not (`encrypt_eq`, `decrypt_eq`); so what the last write supplied for a position is what a
read returns there (`encrypted_round_trip`). But a byte can also come into the file without a write:
the gap before a write past the end, and the bytes that a growing truncation adds, are zeros of the
underlying file. `bb_read` takes one off those, too, and returns `255`. `holes_read_zero_iff` says
that the mounted file reads like a plain one exactly as long as no request makes such bytes.
-/

namespace Eece4029

open Transition

variable {d : Daemon} {f : File} {s s' : Tracked} {op : FileOp} {tr : List (Step Tracked FileOp)}
  {signed : Bool} {buf : List UInt8} {offset size n p : Nat} {b ch : UInt8} {r : SysResult}

/-! ## Bytes -/

theorem charVal_bounds (signed : Bool) (b : UInt8) :
    -128 ≤ charVal signed b ∧ charVal signed b < 256 ∧ (charVal signed b - b.toNat) % 256 = 0 := by
  have hb := b.toNat_lt
  unfold charVal
  split <;> omega

/-- The low eight bits of a number that is a byte modulo 256. -/
theorem toChar_eq {i : Int} (h : (i - b.toNat) % 256 = 0) : toChar i = b := by
  have hb := b.toNat_lt
  refine UInt8.toNat_inj.1 ?_
  rw [toChar, show (i % 256).toNat = b.toNat by omega, UInt8.ofNat_toNat]

/-- Reducing a number between `-256` and `256` towards zero keeps it modulo 256. -/
theorem tmod_256 {i : Int} : (i.tmod 256 - i) % 256 = 0 := by
  rw [Int.tmod_def]
  omega

/-- `bb_write` stores a byte plus one, modulo 256. -/
theorem encrypt_eq : encrypt signed b = b + 1 := by
  have hv := charVal_bounds signed b
  have hm := tmod_256 (i := charVal signed b + 1)
  have hb := b.toNat_lt
  refine toChar_eq ?_
  rw [UInt8.toNat_add, show (1 : UInt8).toNat = 1 from rfl]
  omega

/-- `bb_read` returns a byte less one, modulo 256. -/
theorem decrypt_eq : decrypt signed b = b - 1 := by
  have hv := charVal_bounds signed b
  have hm := tmod_256 (i := charVal signed b - 1)
  have hb := b.toNat_lt
  refine toChar_eq ?_
  rw [UInt8.toNat_sub, show (1 : UInt8).toNat = 1 from rfl]
  split <;> omega

/-! ## Where the bytes of the file come from -/

/-- A position is covered by the bytes that a write stored, or it keeps its origin. -/
theorem cover_cases (origin : Nat → Origin) (buf : List UInt8) (offset n p : Nat) :
    (∃ ch, offset ≤ p ∧ (buf.take n)[p - offset]? = some ch ∧
      Tracked.cover origin buf offset n p = .written ch) ∨
    (¬ (offset ≤ p ∧ p < offset + (buf.take n).length) ∧
      Tracked.cover origin buf offset n p = origin p) := by
  unfold Tracked.cover
  by_cases hle : offset ≤ p
  · rw [if_pos hle]
    cases hch : (buf.take n)[p - offset]? with
    | some ch => exact .inl ⟨ch, hle, rfl, rfl⟩
    | none =>
      have := List.getElem?_eq_none_iff.1 hch
      exact .inr ⟨fun h => by omega, rfl⟩
  · rw [if_neg hle]
    exact .inr ⟨fun h => hle h.1, rfl⟩

/-- What the origins say about the bytes of the file of an authorised daemon. -/
structure TrackedInv (s : Tracked) : Prop where
  beyond : ∀ p, s.file.size ≤ p → s.origin p = .zero
  zero : ∀ p, s.origin p = .zero → s.file.byte p = 0
  written : ∀ p ch, s.origin p = .written ch → s.file.byte p = ch + 1

namespace TrackedInv

theorem init (f : File) : TrackedInv (Tracked.init f) := by
  refine ⟨fun p hp => if_neg (Nat.not_lt.2 hp), ?_, ?_⟩
  · intro p hp
    refine f.beyond p (Nat.not_lt.1 ?_)
    intro hlt
    simp only [Tracked.init, if_pos hlt] at hp
    cases hp
  · intro p ch hp
    simp only [Tracked.init] at hp
    split at hp <;> cases hp

/-- A write keeps it. -/
theorem cover (h : TrackedInv s) (buf : List UInt8) (offset n : Nat) :
    TrackedInv ⟨s.file.write ((buf.map (encrypt signed)).take n) offset,
      Tracked.cover s.origin buf offset n⟩ := by
  have hlen : ((buf.map (encrypt signed)).take n).length = (buf.take n).length := by simp
  have hdata : ∀ {p ch}, offset ≤ p → (buf.take n)[p - offset]? = some ch →
      (s.file.write ((buf.map (encrypt signed)).take n) offset).byte p = ch + 1 ∧
        p < (s.file.write ((buf.map (encrypt signed)).take n) offset).size := by
    intro p ch hle hch
    refine File.write_byte_of_some hle ?_
    rw [← List.map_take, List.getElem?_map, hch, Option.map_some, encrypt_eq]
  refine ⟨?_, ?_, ?_⟩
  · intro p hp
    rcases cover_cases s.origin buf offset n p with ⟨ch, hle, hch, -⟩ | ⟨-, heq⟩
    · exact absurd (hdata hle hch).2 (Nat.not_lt.2 hp)
    · exact heq.trans (h.beyond p (Nat.le_trans File.size_le_write hp))
  · intro p hp
    rcases cover_cases s.origin buf offset n p with ⟨ch, -, -, heq⟩ | ⟨hno, heq⟩
    · cases heq.symm.trans hp
    · exact (File.write_byte_of_not (hlen ▸ hno)).trans (h.zero p (heq.symm.trans hp))
  · intro p ch hp
    rcases cover_cases s.origin buf offset n p with ⟨ch', hle, hch, heq⟩ | ⟨hno, heq⟩
    · cases heq.symm.trans hp
      exact (hdata hle hch).1
    · exact (File.write_byte_of_not (hlen ▸ hno)).trans (h.written p ch (heq.symm.trans hp))

/-- A truncation keeps it. -/
theorem cut (h : TrackedInv s) (n : Nat) :
    TrackedInv ⟨s.file.truncate n, Tracked.cut s.origin n⟩ := by
  refine ⟨fun p hp => if_neg (Nat.not_lt.2 hp), ?_, ?_⟩
  · intro p hp
    by_cases hlt : p < n
    · exact (if_pos hlt).trans (h.zero p ((if_pos hlt).symm.trans hp))
    · exact if_neg hlt
  · intro p ch hp
    by_cases hlt : p < n
    · exact (if_pos hlt).trans (h.written p ch ((if_pos hlt).symm.trans hp))
    · cases (if_neg hlt).symm.trans hp

/-- Every request of an authorised daemon keeps it. -/
theorem step (hd : d.uid = d.getuid) (h : TrackedInv s) (hs : FileStep d s op s') :
    TrackedInv s' := by
  obtain ⟨-, rfl⟩ := hs
  cases op with
  | write buf offset pwrite =>
    cases pwrite with
    | ok n =>
      simp only [Tracked.next, bbWrite, if_pos hd]
      exact h.cover buf offset n
    | fail errno => exact h
  | truncate n r | ftruncate n r =>
    cases r with
    | ok _ => exact h.cut n
    | fail errno => exact h

/-- It holds after every run. -/
theorem of_run (hd : d.uid = d.getuid) (h : FileRun d f tr s) : TrackedInv s :=
  h.inv (.init f) fun _ _ _ hi hs => hi.step hd hs

end TrackedInv

/-! ## The round trip -/

/-- A byte that an authorised read returns is one less than the byte in the file. -/
theorem getElem?_bbRead (hd : d.uid = d.getuid) {k : Nat}
    (hb : (bbRead d f size offset r).2[k]? = some b) :
    offset + k < f.size ∧ b = f.byte (offset + k) - 1 := by
  cases r with
  | fail errno => cases hb
  | ok n =>
    simp only [bbRead, if_pos hd, List.getElem?_map, Option.map_eq_some_iff] at hb
    obtain ⟨c, hc, rfl⟩ := hb
    have hc' : (f.read offset size)[k]? = some c := by
      rw [List.getElem?_take] at hc
      split at hc
      · exact hc
      · cases hc
    obtain ⟨-, hlt, rfl⟩ := File.getElem?_read hc'
    exact ⟨hlt, decrypt_eq⟩

/-- **What was written is what is read.** After any requests of an authorised daemon, a position
whose byte the last write supplied holds that byte plus one, and every read of it returns the byte,
for a signed and for an unsigned `char`. -/
theorem encrypted_round_trip (hd : d.uid = d.getuid) (h : FileRun d f tr s)
    (hp : s.origin p = .written ch) :
    p < s.file.size ∧ s.file.byte p = ch + 1 ∧
      ∀ size offset r, Pread s.file size offset r → ∀ k b, offset + k = p →
        (bbRead d s.file size offset r).2[k]? = some b → b = ch := by
  have hinv := TrackedInv.of_run hd h
  refine ⟨?_, hinv.written p ch hp, ?_⟩
  · refine Nat.not_le.1 fun hle => ?_
    cases hp.symm.trans (hinv.beyond p hle)
  · rintro size offset r - k b rfl hb
    obtain ⟨-, rfl⟩ := getElem?_bbRead hd hb
    rw [hinv.written _ ch hp, UInt8.add_sub_cancel]

/-- A daemon on a machine with a signed `char`, run by the user that mounted; `main` refuses to run
as root. -/
def ownerDaemon : Daemon := ⟨true, 1000, 1000⟩

/-- The file after two writes that overlap, the second of them short. -/
def overlapping : Tracked :=
  ((Tracked.init .empty).next ownerDaemon (.write [127, 200, 255] 0 (.ok 3))).next ownerDaemon
    (.write [128, 1] 1 (.ok 1))

/-- The second write supplied the byte `128` for position one: the file holds `129` there. -/
theorem encrypted_round_trip_overlapping : overlapping.file.byte 1 = 129 ∧
    ∀ size offset r, Pread overlapping.file size offset r → ∀ k b, offset + k = 1 →
      (bbRead ownerDaemon overlapping.file size offset r).2[k]? = some b → b = 128 := by
  have hposix : FileOp.Posix (.write [127, 200, 255] 0 (.ok 3)) ∧
      FileOp.Posix (.write [128, 1] 1 (.ok 1)) := by
    refine ⟨⟨by decide, ?_⟩, by decide, ?_⟩ <;> rintro n hn <;> cases hn <;> decide
  have horigin : overlapping.origin 1 = .written 128 := rfl
  exact (encrypted_round_trip rfl
    ((Run.nil.snoc ⟨hposix.1, rfl⟩).snoc ⟨hposix.2, rfl⟩) horigin).2

/-! ## Bytes that nothing wrote -/

/-- Every byte that is read and has not been written since it last lay past the end of the file is
zero, as in a plain file. -/
def HolesReadZero (d : Daemon) (s : Tracked) : Prop :=
  ∀ size offset r, Pread s.file size offset r → ∀ k b, s.origin (offset + k) = .zero →
    (bbRead d s.file size offset r).2[k]? = some b → b = 0

/-- The request does not make the file longer than what it writes: a write that stores something
starts in the file or at its end, and a truncation does not extend the file. -/
def FileOp.NoGap (s : Tracked) : FileOp → Prop
  | .write buf offset (.ok n) => buf.take n = [] ∨ offset ≤ s.file.size
  | .truncate newsize (.ok _) => newsize ≤ s.file.size
  | .ftruncate offset (.ok _) => offset ≤ s.file.size
  | _ => True

/-- Every byte of the file was there at the start or has been written. -/
def Filled (s : Tracked) : Prop := ∀ p < s.file.size, s.origin p ≠ .zero

/-- Such a byte reads as `255`, so the property holds of a state exactly when it has none. -/
theorem holesReadZero_iff (hd : d.uid = d.getuid) (h : TrackedInv s) :
    HolesReadZero d s ↔ Filled s := by
  constructor
  · intro hz p hp hzero
    have hread : (bbRead d s.file 1 p (.ok 1)).2[0]? = some 255 := by
      simp only [bbRead, if_pos hd, File.read_one hp, h.zero p hzero, List.take_succ_cons,
        List.map_cons, decrypt_eq]
      rfl
    have hpread : Pread s.file 1 p (.ok 1) := by
      refine ⟨by decide, ?_⟩
      rintro n hn
      cases hn
      exact ⟨Nat.le_refl 1, by omega⟩
    exact absurd (hz 1 p _ hpread 0 255 hzero hread) (by decide)
  · intro hf size offset r _ k b hzero hb
    exact absurd hzero (hf _ (getElem?_bbRead hd hb).1)

/-- A request keeps all bytes accounted for exactly when it makes no gap. -/
theorem filled_next (hi : TrackedInv s) (hf : Filled s) :
    Filled (s.next d op) ↔ op.NoGap s := by
  have hcut : ∀ n, Filled ⟨s.file.truncate n, Tracked.cut s.origin n⟩ ↔ n ≤ s.file.size := by
    intro n
    constructor
    · intro hf'
      refine Nat.not_lt.1 fun hlt => hf' s.file.size hlt ?_
      exact (if_pos hlt).trans (hi.beyond _ (Nat.le_refl _))
    · intro hle p hp
      simp only [Tracked.cut, if_pos (show p < n from hp)]
      exact hf p (Nat.lt_of_lt_of_le hp hle)
  cases op with
  | write buf offset pwrite =>
    cases pwrite with
    | fail errno => exact ⟨fun _ => trivial, fun _ => hf⟩
    | ok n =>
      simp only [Tracked.next, bbWrite, FileOp.NoGap]
      generalize hdata : (if d.uid = d.getuid then buf.map (encrypt d.charSigned) else buf).take n =
        data
      have hlen : data.length = (buf.take n).length := by
        subst hdata
        split <;> simp
      constructor
      · intro hf'
        by_contra hgap
        obtain ⟨hne, hlt⟩ := not_or.1 hgap
        rw [Nat.not_le] at hlt
        have hpos : 0 < data.length := hlen ▸ List.length_pos_iff.2 hne
        -- the first byte of the gap
        have hin : s.file.size < (s.file.write data offset).size := by
          simp only [File.write, if_neg (List.length_pos_iff.1 hpos)]
          omega
        refine hf' s.file.size hin ?_
        exact (if_neg (Nat.not_le.2 hlt)).trans (hi.beyond _ (Nat.le_refl _))
      · intro hno p hp
        rcases cover_cases s.origin buf offset n p with ⟨ch, -, -, heq⟩ | ⟨hout, heq⟩
        · intro hzero
          cases heq.symm.trans hzero
        · refine fun hzero => hf p (Nat.not_le.1 fun hle => ?_) (heq.symm.trans hzero)
          obtain ⟨hlt, hne⟩ := File.lt_of_lt_write hp hle
          rcases hno with hnil | hoff
          · rw [hnil, List.length_nil] at hlen
            exact hne (List.length_eq_zero_iff.1 hlen)
          · exact hout ⟨Nat.le_trans hoff hle, hlen ▸ hlt⟩
  | truncate n r | ftruncate n r =>
    cases r with
    | fail errno => exact ⟨fun _ => trivial, fun _ => hf⟩
    | ok _ => exact hcut n

/-- **When the mounted file reads like a plain one where nothing was written.** In a run of requests
of an authorised daemon every state has the property exactly when no write starts past the end of
the file and no truncation extends it; and a state has it exactly when every byte of the file was
there at the start or has been written. -/
theorem holes_read_zero_iff (hd : d.uid = d.getuid) (h : FileRun d f tr s) :
    ((HolesReadZero d s ∧ ∀ x ∈ tr, HolesReadZero d x.pre ∧ HolesReadZero d x.post) ↔
      ∀ x ∈ tr, x.label.NoGap x.pre) ∧
    (HolesReadZero d s ↔ Filled s) := by
  refine ⟨?_, holesReadZero_iff hd (.of_run hd h)⟩
  refine h.forall_iff (I := fun s => TrackedInv s ∧ Filled s) (C := fun s op => op.NoGap s) ?_ ?_
    ?_ ?_
  · refine ⟨.init f, ?_⟩
    intro p hp
    simp only [Tracked.init, if_pos (show p < f.size from hp)]
    exact fun h => nomatch h
  · exact fun s hs => (holesReadZero_iff hd hs.1).2 hs.2
  · rintro s op s' ⟨hi, hf⟩ hgap hs
    refine ⟨hi.step hd hs, ?_⟩
    obtain ⟨-, rfl⟩ := hs
    exact (filled_next hi hf).2 hgap
  · rintro s op s' ⟨hi, hf⟩ hs hz
    have hf' := (holesReadZero_iff hd (hi.step hd hs)).1 hz
    obtain ⟨-, rfl⟩ := hs
    exact (filled_next hi hf).1 hf'

/-- A growing truncation, and a write past the end that leaves a gap: both states read as a plain
file would not. -/
theorem holes_read_zero_iff_extended :
    ¬ HolesReadZero ownerDaemon ((Tracked.init .empty).next ownerDaemon (.truncate 4 (.ok 0))) ∧
    ¬ HolesReadZero ownerDaemon
      ((Tracked.init .empty).next ownerDaemon (.write [7] 2 (.ok 1))) := by
  have htrunc : FileStep ownerDaemon (Tracked.init .empty) (.truncate 4 (.ok 0)) _ :=
    ⟨trivial, rfl⟩
  have hwrite : FileStep ownerDaemon (Tracked.init .empty) (.write [7] 2 (.ok 1)) _ :=
    ⟨⟨by decide, fun n hn => by cases hn; decide⟩, rfl⟩
  refine ⟨fun h => ?_, fun h => ?_⟩
  · exact (holes_read_zero_iff rfl (Run.nil.snoc htrunc)).2.1 h 3 (by decide) rfl
  · exact (holes_read_zero_iff rfl (Run.nil.snoc hwrite)).2.1 h 1 (by decide) rfl

/-- A file that a truncation has made longer does not read as zero. -/
theorem hole_reads_255 : ¬ ∀ (d : Daemon) (f : File) (tr : List (Step Tracked FileOp))
    (s : Tracked), d.uid = d.getuid → FileRun d f tr s → HolesReadZero d s := by
  intro h
  have hstep : FileStep ownerDaemon (Tracked.init .empty) (.truncate 4 (.ok 0)) _ := ⟨trivial, rfl⟩
  have hread := h ownerDaemon .empty _ _ rfl (Run.nil.snoc hstep) 1 3 (.ok 1)
    ⟨by decide, fun n hn => by cases hn; decide⟩ 0 255 rfl (by decide)
  exact absurd hread (by decide)

end Eece4029
