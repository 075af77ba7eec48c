import Eece4029.Vmm.Device

/-!
# The bounds of `IOCTL_WRITE`

`IOCTL_WRITE` asks `buddy_size` for the number of bytes from `current_idx` to the end of its page
and copies the user's string until the terminator. "If we are about to write outside the page error
out" compares `bytes > size`, one byte late: the store of the byte number `size`, counted from zero,
is the first one past the page, and it is made before the next character is refused.
`write_confined_iff` says exactly when a write stays in the page of `current_idx`, and
`rejected_write_iff` exactly when one that is refused leaves the pool as it was: `IOCTL_READ`
compares the sizes before it copies anything, `IOCTL_WRITE` after it has stored what it could.
-/

namespace Eece4029

open Transition Node

variable {S : Nat} {pool : Int → UInt8} {tr : List (Step Device Call)} {d : Device} {s : CString}
  {chars : List UInt8} {idx size a : Int} {bytes : Nat} {ch : UInt8} {b p : Region}

/-! ## The loop -/

/-- The loop stores the characters one after the other, up to the byte number `size`. -/
theorem mem_writeLoop (h0 : (0 : UInt8) ∉ chars) :
    (a, ch) ∈ (writeLoop idx size (chars ++ [0]) bytes).2 ↔
      ∃ k : Nat, chars[k]? = some ch ∧ a = idx + bytes + k ∧ (bytes + k : Int) ≤ size := by
  induction chars generalizing bytes with
  | nil => simp [writeLoop]
  | cons c chars ih =>
    have hc : ¬ c = 0 := fun h => h0 (h ▸ List.mem_cons_self)
    have h0' : (0 : UInt8) ∉ chars := fun h => h0 (List.mem_cons_of_mem c h)
    rw [List.cons_append, writeLoop, if_neg hc]
    split
    · next hlt =>
      constructor
      · exact fun h => nomatch h
      · rintro ⟨k, -, -, hk⟩
        omega
    · next hlt =>
      rw [List.mem_cons, ih h0']
      constructor
      · rintro (heq | ⟨k, hk, ha, hle⟩)
        · cases heq
          exact ⟨0, rfl, by simp, by omega⟩
        · exact ⟨k + 1, hk, by rw [ha]; push_cast; omega, by push_cast at hle ⊢; omega⟩
      · rintro ⟨k, hk, ha, hle⟩
        cases k with
        | zero =>
          cases hk
          exact .inl (by rw [ha]; simp)
        | succ k => exact .inr ⟨k, hk, by rw [ha]; push_cast; omega, by push_cast at hle ⊢; omega⟩

/-- The pool after the loop: the characters up to the byte number `size`, and the old bytes
everywhere else. -/
theorem storeAll_writeLoop (h0 : (0 : UInt8) ∉ chars) (pool : Int → UInt8) :
    storeAll pool (writeLoop idx size (chars ++ [0]) bytes).2 a =
      if idx + bytes ≤ a ∧ a ≤ idx + size then
        (chars[(a - idx - bytes).toNat]?).getD (pool a)
      else pool a := by
  induction chars generalizing bytes pool with
  | nil => simp [writeLoop, storeAll]
  | cons c chars ih =>
    have hc : ¬ c = 0 := fun h => h0 (h ▸ List.mem_cons_self)
    have h0' : (0 : UInt8) ∉ chars := fun h => h0 (List.mem_cons_of_mem c h)
    rw [List.cons_append, writeLoop, if_neg hc]
    split
    · next hlt =>
      rw [if_neg (by omega)]
      rfl
    · next hlt =>
      rw [show storeAll pool ((idx + bytes, c) :: (writeLoop idx size (chars ++ [0]) (bytes + 1)).2)
        = storeAll (Function.update pool (idx + bytes) c)
          (writeLoop idx size (chars ++ [0]) (bytes + 1)).2 from rfl, ih h0']
      by_cases ha : a = idx + bytes
      · subst ha
        rw [if_neg (by push_cast; omega), if_pos (by omega), Function.update_self,
          show (idx + bytes - idx - bytes : Int).toNat = 0 by omega]
        rfl
      · rw [Function.update_of_ne ha]
        by_cases hin : idx + bytes ≤ a ∧ a ≤ idx + size
        · rw [if_pos (by push_cast; omega), if_pos hin,
            show (a - idx - bytes).toNat = (a - idx - (bytes + 1 : Nat)).toNat + 1 by
              push_cast; omega]
          rfl
        · rw [if_neg (by push_cast; omega), if_neg hin]

/-- A string that fits is written to its end. -/
theorem writeLoop_rt (h0 : (0 : UInt8) ∉ chars) (hfit : (bytes + chars.length : Int) ≤ size) :
    (writeLoop idx size (chars ++ [0]) bytes).1 = bytes + chars.length := by
  induction chars generalizing bytes with
  | nil => simp [writeLoop]
  | cons c chars ih =>
    have hc : ¬ c = 0 := fun h => h0 (h ▸ List.mem_cons_self)
    have h0' : (0 : UInt8) ∉ chars := fun h => h0 (List.mem_cons_of_mem c h)
    rw [List.length_cons] at hfit ⊢
    push_cast at hfit ⊢
    rw [List.cons_append, writeLoop, if_neg hc, if_neg (by omega)]
    dsimp only
    rw [ih h0' (by push_cast; omega)]
    push_cast
    omega

/-! ## One write -/

/-- The number of bytes from `current_idx` to the end of the page `p`. -/
def Device.room (d : Device) (p : Region) : Int := p.start + p.len - d.currentIdx

/-- The address `a` is in the page that `current_idx` is in. -/
def Device.InCurrentPage (d : Device) (a : Int) : Prop :=
  ∃ p ∈ d.buddyHead.pages, p.Has d.currentIdx ∧ p.Has a

/-- The string ends before the page of `current_idx` does, if that is in a page at all. -/
def Device.Fits (d : Device) (s : CString) : Prop :=
  ∀ p ∈ d.buddyHead.pages, p.Has d.currentIdx → (s.chars.length : Int) ≤ d.room p

instance (d : Device) (s : CString) : Decidable (d.Fits s) :=
  inferInstanceAs (Decidable (∀ p ∈ d.buddyHead.pages, _ → _))

/-- At an index in a page the string is stored from there, up to one byte past the page. -/
theorem Device.mem_writeStores (ht : BuddyTree b d.buddyHead) (hp : p ∈ d.buddyHead.pages)
    (hi : p.Has d.currentIdx) : (a, ch) ∈ (d.writeStores s).2 ↔
      ∃ k : Nat, s.chars[k]? = some ch ∧ a = d.currentIdx + k ∧ (k : Int) ≤ d.room p := by
  rw [Device.writeStores, ht.size_of_has hp hi, CString.user, mem_writeLoop s.noNul]
  simp [Device.room]

/-- At an index in no page nothing is stored. -/
theorem Device.writeStores_of_not_has (ht : BuddyTree b d.buddyHead)
    (hno : ∀ p ∈ d.buddyHead.pages, ¬ p.Has d.currentIdx) : (d.writeStores s).2 = [] := by
  rw [Device.writeStores, ht.size_of_not_has hno, CString.user]
  refine List.eq_nil_iff_forall_not_mem.2 ?_
  rintro ⟨a, ch⟩ hmem
  obtain ⟨k, -, -, hk⟩ := (mem_writeLoop s.noNul).1 hmem
  omega

/-- The pool after a write at an index in a page. -/
theorem Device.write_pool (ht : BuddyTree b d.buddyHead) (hp : p ∈ d.buddyHead.pages)
    (hi : p.Has d.currentIdx) : (d.write s).2.buddyPool a =
      if d.currentIdx ≤ a ∧ a ≤ d.currentIdx + d.room p then
        (s.chars[(a - d.currentIdx).toNat]?).getD (d.buddyPool a)
      else d.buddyPool a := by
  have hpool :
      storeAll d.buddyPool (writeLoop d.currentIdx (d.room p) (s.chars ++ [0]) 0).2 a = _ :=
    storeAll_writeLoop s.noNul d.buddyPool
  simp only [Int.natCast_zero, Int.add_zero, Int.sub_zero] at hpool
  rw [Device.write, Device.writeStores, ht.size_of_has hp hi, CString.user]
  exact hpool

/-- A string that fits is stored as a whole, and no other byte of the pool changes. -/
theorem Device.write_fits (ht : BuddyTree b d.buddyHead) (hp : p ∈ d.buddyHead.pages)
    (hi : p.Has d.currentIdx) (hfit : (s.chars.length : Int) ≤ d.room p) :
    (d.write s).1 = s.chars.length ∧ ∀ a, (d.write s).2.buddyPool a =
      if d.currentIdx ≤ a then (s.chars[(a - d.currentIdx).toNat]?).getD (d.buddyPool a)
      else d.buddyPool a := by
  constructor
  · have hrt : (writeLoop d.currentIdx (d.room p) (s.chars ++ [0]) 0).1 = _ :=
      writeLoop_rt s.noNul (by simpa using hfit)
    rw [Device.write, Device.writeStores, ht.size_of_has hp hi, CString.user]
    exact hrt.trans (by simp)
  · intro a
    rw [write_pool ht hp hi]
    by_cases hle : d.currentIdx ≤ a
    · rw [if_pos hle]
      split
      · rfl
      · next hgt =>
        rw [List.getElem?_eq_none (by omega)]
        rfl
    · rw [if_neg hle, if_neg fun hin => hle hin.1]

/-- At an index in the page `p`, the page of `current_idx` is `p`. -/
theorem Device.inCurrentPage_iff (ht : BuddyTree b d.buddyHead) (hp : p ∈ d.buddyHead.pages)
    (hi : p.Has d.currentIdx) : d.InCurrentPage a ↔ p.Has a := by
  constructor
  · rintro ⟨q, hq, hqi, hqa⟩
    rwa [← ht.page_of_has hq hp hqi hi]
  · exact fun ha => ⟨p, hp, hi, ha⟩

/-- At an index in the page `p`, a statement about the page of `current_idx` is one about `p`. -/
theorem Device.forall_page_iff {P : Region → Prop} (ht : BuddyTree b d.buddyHead)
    (hp : p ∈ d.buddyHead.pages) (hi : p.Has d.currentIdx) :
    (∀ q ∈ d.buddyHead.pages, q.Has d.currentIdx → P q) ↔ P p := by
  constructor
  · exact fun hall => hall p hp hi
  · intro hP q hq hqi
    rwa [ht.page_of_has hq hp hqi hi]

/-- The stores of a write at an index in a page stay in it exactly when the string fits. -/
theorem Device.stores_confined_iff (ht : BuddyTree b d.buddyHead) (hp : p ∈ d.buddyHead.pages)
    (hi : p.Has d.currentIdx) : (∀ a ch, (a, ch) ∈ (d.writeStores s).2 → p.Has a) ↔
      (s.chars.length : Int) ≤ d.room p := by
  constructor
  · intro hconf
    by_contra hlong
    -- the character number `room` is stored at the first address past the page
    have hroom : 0 < d.room p := Int.sub_pos_of_lt hi.2
    have hlt : (d.room p).toNat < s.chars.length := by omega
    have hmem := (mem_writeStores ht (s := s) hp hi).2
      ⟨(d.room p).toNat, List.getElem?_eq_getElem hlt, rfl, by omega⟩
    have hend := (hconf _ _ hmem).2
    simp only [Device.room] at hend hroom
    omega
  · intro hfit a ch hmem
    obtain ⟨k, hk, rfl, -⟩ := (mem_writeStores ht hp hi).1 hmem
    have hlt : k < s.chars.length := (List.getElem?_eq_some_iff.1 hk).1
    obtain ⟨h1, -⟩ := hi
    simp only [Device.room] at hfit
    exact ⟨by omega, by omega⟩

/-- The bytes that a write at an index in a page changes are in it exactly when the string fits or
the one byte past the page gets the value it has. -/
theorem Device.pool_confined_iff (ht : BuddyTree b d.buddyHead) (hp : p ∈ d.buddyHead.pages)
    (hi : p.Has d.currentIdx) :
    (∀ a, (d.write s).2.buddyPool a ≠ d.buddyPool a → p.Has a) ↔
      (s.chars.length : Int) ≤ d.room p ∨
        s.chars[(d.room p).toNat]? = some (d.buddyPool (p.start + p.len)) := by
  have hroom : 0 < d.room p := Int.sub_pos_of_lt hi.2
  have hend : d.currentIdx + d.room p = p.start + p.len := by
    simp only [Device.room]
    omega
  constructor
  · intro hconf
    by_contra hno
    obtain ⟨hlong, hne⟩ := not_or.1 hno
    have hlt : (d.room p).toNat < s.chars.length := by omega
    have hout : ¬ p.Has (p.start + p.len) := fun hhas => Int.lt_irrefl _ hhas.2
    have hsame := not_imp_not.2 (hconf (p.start + p.len)) hout
    rw [not_not, write_pool ht hp hi, if_pos (by omega),
      show ((p.start + p.len : Int) - d.currentIdx).toNat = (d.room p).toNat from rfl,
      List.getElem?_eq_getElem hlt] at hsame
    rw [List.getElem?_eq_getElem hlt] at hne
    exact hne (congrArg some hsame)
  · intro hcond a hch
    rw [write_pool ht hp hi] at hch
    split at hch
    · next hin =>
      cases hk : s.chars[(a - d.currentIdx).toNat]? with
      | none => simp [hk] at hch
      | some ch =>
        rw [hk, Option.getD_some] at hch
        have hlt := (List.getElem?_eq_some_iff.1 hk).1
        have hne : a ≠ p.start + p.len := by
          rintro rfl
          rw [show ((p.start + p.len : Int) - d.currentIdx).toNat = (d.room p).toNat from rfl]
            at hk hlt
          rcases hcond with hfit | hsame
          · omega
          · exact hch (Option.some.inj (hk.symm.trans hsame))
        obtain ⟨h1, -⟩ := hi
        exact ⟨by omega, by omega⟩
    · exact absurd rfl hch

/-- **Exactly when `IOCTL_WRITE` stays in the page of `current_idx`.** Its stores do when the string
fits into the rest of that page; and the bytes that it changes do when, besides, the one byte that
it stores past the page is the one that is there already. -/
theorem write_confined_iff (h : DeviceRun S pool tr d) (s : CString) :
    ((∀ a ch, (a, ch) ∈ (d.writeStores s).2 → d.InCurrentPage a) ↔ d.Fits s) ∧
    ((∀ a, (d.write s).2.buddyPool a ≠ d.buddyPool a → d.InCurrentPage a) ↔
      ∀ p ∈ d.buddyHead.pages, p.Has d.currentIdx → (s.chars.length : Int) ≤ d.room p ∨
        s.chars[(d.room p).toNat]? = some (d.buddyPool (p.start + p.len))) := by
  have ht := h.tree
  by_cases hin : ∃ p ∈ d.buddyHead.pages, p.Has d.currentIdx
  · obtain ⟨p, hp, hi⟩ := hin
    rw [Device.Fits, Device.forall_page_iff ht hp hi, Device.forall_page_iff ht hp hi]
    simp only [Device.inCurrentPage_iff ht hp hi]
    exact ⟨Device.stores_confined_iff ht hp hi, Device.pool_confined_iff ht hp hi⟩
  · have hno : ∀ p ∈ d.buddyHead.pages, ¬ p.Has d.currentIdx := fun p hp hi => hin ⟨p, hp, hi⟩
    have hnil := Device.writeStores_of_not_has (s := s) ht hno
    have hpool : (d.write s).2.buddyPool = d.buddyPool := by
      rw [Device.write]
      simp [hnil, storeAll]
    refine ⟨⟨fun _ p hp hi => absurd hi (hno p hp), ?_⟩,
      ⟨fun _ p hp hi => absurd hi (hno p hp), ?_⟩⟩
    · intro _ a ch hmem
      rw [hnil] at hmem
      cases hmem
    · intro _ a hch
      exact absurd (congrFun hpool a) hch

/-- Two pages of two bytes in a pool of four, with the index of the first one set. -/
def twoPagesDevice : Device := ⟨twoPages, fun _ => 0, 0, 0⟩

theorem twoPagesDevice_run : ∃ tr, DeviceRun 4 (fun _ => 0) tr twoPagesDevice := by
  have h₁ : DeviceStep (Device.init 4 fun _ => 0) ⟨.alloc 2, 0, []⟩
      ⟨.split 0 4 (.alloc 0 2) (.free 2 2), fun _ => 0, 0, 0⟩ := ⟨rfl, _, ⟨3, rfl⟩, rfl⟩
  have h₂ : DeviceStep ⟨.split 0 4 (.alloc 0 2) (.free 2 2), fun _ => 0, 0, 0⟩ ⟨.alloc 2, 2, []⟩
      twoPagesDevice := ⟨rfl, _, ⟨3, rfl⟩, rfl⟩
  exact ⟨_, (Run.nil.snoc h₁).snoc h₂⟩

/-- "abc" at the first page is one byte too long for it, and that byte lands in the second one. -/
theorem write_not_confined : (∃ tr, DeviceRun 4 (fun _ => 0) tr twoPagesDevice) ∧
    ¬ ∀ a, (twoPagesDevice.write ⟨[97, 98, 99], by decide⟩).2.buddyPool a ≠
      twoPagesDevice.buddyPool a → twoPagesDevice.InCurrentPage a := by
  refine ⟨twoPagesDevice_run, ?_⟩
  intro hconf
  obtain ⟨p, hp, hi, ha⟩ := hconf 2 (by decide)
  have hp' : p = ⟨0, 2⟩ ∨ p = ⟨2, 2⟩ := by simpa [twoPagesDevice, twoPages] using hp
  rcases hp' with rfl | rfl
  · exact absurd ha (by decide)
  · exact absurd hi (by decide)

/-- "ab" fits. -/
theorem write_confined_iff_twoPages :
    (∀ a ch, (a, ch) ∈ (twoPagesDevice.writeStores ⟨[97, 98], by decide⟩).2 →
      twoPagesDevice.InCurrentPage a) ∧
    ∀ a, (twoPagesDevice.write ⟨[97, 98], by decide⟩).2.buddyPool a ≠
      twoPagesDevice.buddyPool a → twoPagesDevice.InCurrentPage a := by
  obtain ⟨tr, h⟩ := twoPagesDevice_run
  obtain ⟨hstores, hbytes⟩ := write_confined_iff h ⟨[97, 98], by decide⟩
  have hfit : twoPagesDevice.Fits ⟨[97, 98], by decide⟩ := by decide
  exact ⟨hstores.2 hfit, hbytes.2 fun p hp hi => .inl (hfit p hp hi)⟩

/-! ## Rejected writes -/

/-- The loop gives up exactly when there is a character after the byte number `size`. -/
theorem writeLoop_rejected (h0 : (0 : UInt8) ∉ chars) :
    (writeLoop idx size (chars ++ [0]) bytes).1 = -1 ↔
      chars ≠ [] ∧ size + 1 < bytes + chars.length := by
  induction chars generalizing bytes with
  | nil =>
    simp only [writeLoop, List.nil_append, if_true, ne_eq, not_true_eq_false, false_and, iff_false]
    omega
  | cons c chars ih =>
    have hc : ¬ c = 0 := fun h => h0 (h ▸ List.mem_cons_self)
    have h0' : (0 : UInt8) ∉ chars := fun h => h0 (List.mem_cons_of_mem c h)
    rw [List.cons_append, writeLoop, if_neg hc, List.length_cons]
    split
    · next hlt => exact iff_of_true rfl ⟨List.cons_ne_nil c chars, by push_cast; omega⟩
    · next hle =>
      refine (ih h0').trans ?_
      constructor
      · rintro ⟨-, hlt⟩
        exact ⟨List.cons_ne_nil c chars, by push_cast at hlt ⊢; omega⟩
      · rintro ⟨-, hlt⟩
        refine ⟨?_, by push_cast at hlt ⊢; omega⟩
        -- one character at most the byte number `size` is stored
        rintro rfl
        simp only [List.length_nil] at hlt
        omega

/-- At an index in a page a write is refused when the string is more than one character too long. -/
theorem Device.write_rejected (ht : BuddyTree b d.buddyHead) (hp : p ∈ d.buddyHead.pages)
    (hi : p.Has d.currentIdx) : (d.write s).1 = -1 ↔ d.room p + 1 < s.chars.length := by
  have hroom : 0 < d.room p := Int.sub_pos_of_lt hi.2
  have hrej : (writeLoop d.currentIdx (d.room p) (s.chars ++ [0]) 0).1 = -1 ↔
      s.chars ≠ [] ∧ d.room p + 1 < (0 : Nat) + s.chars.length := writeLoop_rejected s.noNul
  rw [Device.write, Device.writeStores, ht.size_of_has hp hi, CString.user]
  refine hrej.trans ?_
  rw [Nat.cast_zero, Int.zero_add]
  refine and_iff_right_of_imp fun hlt => ?_
  intro hnil
  rw [hnil, List.length_nil] at hlt
  omega

/-- What a caller may see of the device is as it was: the tree, the two variables and the bytes of
the pool of `S` bytes. -/
structure Device.Same (S : Nat) (d d' : Device) : Prop where
  buddyHead : d'.buddyHead = d.buddyHead
  currentIdx : d'.currentIdx = d.currentIdx
  readSize : d'.readSize = d.readSize
  buddyPool : ∀ a : Int, 0 ≤ a → a < S → d'.buddyPool a = d.buddyPool a

/-- The bytes that the loop stores before it gives up in the page `p` are in the pool already. -/
def Device.StoredAlready (S : Nat) (d : Device) (s : CString) (p : Region) : Prop :=
  ∀ k : Nat, (k : Int) ≤ d.room p → d.currentIdx + k < S →
    s.chars[k]? = some (d.buddyPool (d.currentIdx + k))

/-- A write that is refused at an index in a page changes nothing exactly when the bytes it stores
are there already. -/
theorem Device.same_iff (ht : BuddyTree b d.buddyHead) (hp : p ∈ d.buddyHead.pages)
    (hi : p.Has d.currentIdx) (hlong : d.room p + 1 < s.chars.length) :
    d.Same S (d.write s).2 ↔ d.StoredAlready S s p := by
  constructor
  · intro hsame k hk hkS
    have hlt : k < s.chars.length := by omega
    have hpool := hsame.buddyPool (d.currentIdx + k) (by have := hi.1; omega) hkS
    rw [write_pool ht hp hi, if_pos (by omega), show (d.currentIdx + k - d.currentIdx).toNat = k by
      omega, List.getElem?_eq_getElem hlt, Option.getD_some] at hpool
    rw [List.getElem?_eq_getElem hlt, hpool]
  · intro hst
    refine ⟨rfl, rfl, rfl, fun a ha haS => ?_⟩
    rw [write_pool ht hp hi]
    split
    · next hin =>
      have hk := hst (a - d.currentIdx).toNat (by omega) (by omega)
      rw [show d.currentIdx + ((a - d.currentIdx).toNat : Int) = a by omega] at hk
      rw [hk, Option.getD_some]
    · rfl

/-- **Exactly when a rejected write leaves the pool as it was**: the string is at most one character
too long for the rest of the page of `current_idx`, so that it is not rejected, or what it stores
before it is rejected is there already. -/
theorem rejected_write_iff (h : DeviceRun S pool tr d) (s : CString) :
    ((d.write s).1 = -1 → d.Same S (d.write s).2) ↔
      ∀ p ∈ d.buddyHead.pages, p.Has d.currentIdx →
        (s.chars.length : Int) ≤ d.room p + 1 ∨ d.StoredAlready S s p := by
  have ht := h.tree
  by_cases hin : ∃ p ∈ d.buddyHead.pages, p.Has d.currentIdx
  · obtain ⟨p, hp, hi⟩ := hin
    rw [Device.forall_page_iff ht hp hi, Device.write_rejected ht hp hi]
    rcases Int.lt_or_le (d.room p + 1) s.chars.length with hlong | hle
    · rw [Device.same_iff ht hp hi hlong, imp_iff_right hlong,
        or_iff_right (Int.not_le.2 hlong)]
    · exact iff_of_true (fun hlong => absurd hle (Int.not_le.2 hlong)) (.inl hle)
  · have hno : ∀ p ∈ d.buddyHead.pages, ¬ p.Has d.currentIdx := fun p hp hi => hin ⟨p, hp, hi⟩
    refine iff_of_true (fun _ => ⟨rfl, rfl, rfl, fun a _ _ => ?_⟩) fun p hp hi =>
      absurd hi (hno p hp)
    rw [Device.write]
    simp only [Device.writeStores_of_not_has ht hno, storeAll, List.foldl_nil]

/-- "abcd" at the first page is rejected when "abc" has been stored. -/
theorem rejected_write_stored : (∃ tr, DeviceRun 4 (fun _ => 0) tr twoPagesDevice) ∧
    ¬ ((twoPagesDevice.write ⟨[97, 98, 99, 100], by decide⟩).1 = -1 →
      twoPagesDevice.Same 4 (twoPagesDevice.write ⟨[97, 98, 99, 100], by decide⟩).2) := by
  refine ⟨twoPagesDevice_run, fun h => ?_⟩
  exact absurd ((h rfl).buddyPool 0 (by decide) (by decide)) (by decide)

/-- The device after "abc" at the first page. -/
def storedDevice : Device := (twoPagesDevice.write ⟨[97, 98, 99], by decide⟩).2

theorem storedDevice_run : ∃ tr, DeviceRun 4 (fun _ => 0) tr storedDevice := by
  obtain ⟨tr, h⟩ := twoPagesDevice_run
  have hwrite : DeviceStep twoPagesDevice ⟨.write ⟨[97, 98, 99], by decide⟩, 3, []⟩ storedDevice :=
    ⟨rfl, rfl, rfl⟩
  exact ⟨_, h.snoc hwrite⟩

/-- "abcd" is rejected there, too, but what it stores is there already. -/
theorem rejected_write_iff_stored :
    (storedDevice.write ⟨[97, 98, 99, 100], by decide⟩).1 = -1 ∧
    storedDevice.Same 4 (storedDevice.write ⟨[97, 98, 99, 100], by decide⟩).2 := by
  obtain ⟨tr, h⟩ := storedDevice_run
  refine ⟨rfl, (rejected_write_iff h ⟨[97, 98, 99, 100], by decide⟩).2 (fun p hp hi => ?_) rfl⟩
  have hp' : p = ⟨0, 2⟩ ∨ p = ⟨2, 2⟩ := by
    simpa [storedDevice, Device.write, twoPagesDevice, twoPages] using hp
  rcases hp' with rfl | rfl
  · refine .inr fun k hk _ => ?_
    have hk' : (k : Int) ≤ 2 := hk
    obtain rfl | rfl | rfl : k = 0 ∨ k = 1 ∨ k = 2 := by omega
    · decide
    · decide
    · decide
  · exact absurd hi (by decide)

end Eece4029
