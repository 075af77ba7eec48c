import Eece4029.Fuse.Bbfs
import Eece4029.Lib.CString
import Mathlib.Algebra.Group.Int.Defs

/-!
# Listing the extended attributes

`bb_listxattr` calls `llistxattr`, which writes the names of the attributes one after the other into
the caller's buffer, and then logs what it takes for a list of strings there: from the start of the
buffer to the length that the call returned. With a buffer that is large enough these are the bytes
that were written. But a caller that passes the size zero asks for the length only, and gets it
without a byte being written; and after a failed call, whose value is negative, the loop compares
with an address before the buffer, which for the `NULL` of such a caller is the end of the address
space. `listxattr_inside_iff` says that in these two cases, and in no other one, the loop reads
bytes that `llistxattr` did not write.

A pointer is its address, and memory is a byte at each address: what the loop reads at `NULL` is not
there in the real memory, and was in any case not written.
-/

namespace Eece4029

open CString Memory

/-! ## The operation -/

/-- The numbers that a system call can fail with. -/
def IsErrno (e : Nat) : Prop := 0 < e ∧ e < 4096

instance (e : Nat) : Decidable (IsErrno e) := inferInstanceAs (Decidable (_ ∧ _))

/-- The `ERANGE` that `llistxattr` fails with when the buffer is too small. -/
def ERANGE : Nat := 34

/-- `ptr + n`, for a pointer: an address has 64 bits. -/
def ptrAdd (ptr : Nat) (n : Int) : Nat := ((ptr + n) % 2 ^ 64).toNat

/-- A buffer that a caller may pass: `NULL` without a byte, or memory of the process, which is below
`2 ^ 47` and not in the page of `NULL`. -/
structure Buffer where
  addr : Nat
  size : Nat
  valid : addr = 0 ∧ size = 0 ∨ 4096 ≤ addr ∧ addr + size ≤ 2 ^ 47

/-- The names of the attributes of a file. The length of their list fits into `retstat`. -/
structure Attributes where
  names : List CStr
  short : (block names).length < 2 ^ 31

/-- What a call of `llistxattr` leaves: its result, the memory, and how many bytes it has written
from the start of the buffer on. -/
structure Listed where
  result : SysResult
  mem : Mem
  written : Nat

/-- `llistxattr`, on a file with the given attributes. It may fail with an `errno`. -/
def llistxattr (attrs : Attributes) (mem : Mem) (list : Buffer) (fail : Option {e // IsErrno e}) :
    Listed :=
  match fail with
  | some errno => ⟨.fail errno, mem, 0⟩
  | none =>
    let names := block attrs.names
    if list.size = 0 then
      ⟨.ok names.length, mem, 0⟩
    else if names.length ≤ list.size then
      ⟨.ok names.length,
        fun p => if list.addr ≤ p then (names[p - list.addr]?).getD (mem p) else mem p,
        names.length⟩
    else
      ⟨.fail ERANGE, mem, 0⟩

/-- The loop of `bb_listxattr` up to the address `last`: the addresses of the bytes that it reads,
those of each string with its zero. -/
def listLoop (mem : Mem) (last : Nat) : Nat → Nat → Option (List Nat)
  | 0, _ => none
  | fuel + 1, ptr =>
    if ptr < last then do
      let length ← strlen mem fuel ptr
      let reads ← listLoop mem last fuel (ptrAdd ptr (length + 1))
      some (List.range' ptr (length + 1) ++ reads)
    else
      some []

/-- `retstat` after a system call, where the value of a failed one is the one of `bb_error`. -/
def SysResult.retstat : SysResult → Int
  | .ok n => n
  | .fail errno => bbError errno

/-- `bb_listxattr`: its result and the addresses that the loop reads, if the fuel is enough for
it. -/
def bbListxattr (fuel : Nat) (attrs : Attributes) (mem : Mem) (list : Buffer)
    (fail : Option {e // IsErrno e}) : Option (Int × List Nat) :=
  let listed := llistxattr attrs mem list fail
  let retstat := listed.result.retstat
  (listLoop listed.mem (ptrAdd list.addr retstat) fuel list.addr).map fun reads => (retstat, reads)

/-! ## Addresses -/

section
variable {ptr n e : Nat}

/-- A pointer that does not run over. -/
theorem ptrAdd_of_lt (h : ptr + n < 2 ^ 64) : ptrAdd ptr n = ptr + n := by
  rw [ptrAdd]
  omega

/-- Back within the address space. -/
theorem ptrAdd_neg (h : e ≤ ptr) (hptr : ptr < 2 ^ 64) : ptrAdd ptr (-e) = ptr - e := by
  rw [ptrAdd]
  omega

/-- Back from `NULL`. -/
theorem ptrAdd_null (h : 0 < e) (he : e < 2 ^ 64) : ptrAdd 0 (-e) = 2 ^ 64 - e := by
  rw [ptrAdd]
  omega

end

namespace Buffer

variable {list : Buffer} {e n : Nat}

theorem addr_le : list.addr ≤ 2 ^ 47 := by
  rcases list.valid with ⟨haddr, -⟩ | ⟨-, hle⟩
  · omega
  · omega

theorem size_of_null (h : list.addr = 0) : list.size = 0 := by
  rcases list.valid with ⟨-, hsize⟩ | ⟨hpage, -⟩
  · exact hsize
  · omega

theorem lt_ptrAdd (hn : n < 2 ^ 31) : list.addr < ptrAdd list.addr n ↔ 0 < n := by
  have haddr : list.addr ≤ _ := addr_le
  rw [ptrAdd_of_lt (by omega)]
  omega

/-- The comparison after a failed call. -/
theorem lt_ptrAdd_bbError (he : IsErrno e) :
    list.addr < ptrAdd list.addr (bbError e) ↔ list.addr = 0 := by
  obtain ⟨hpos, hlt⟩ := he
  rcases list.valid with ⟨haddr, -⟩ | ⟨hpage, hle⟩
  · rw [haddr, bbError, ptrAdd_null hpos (by omega)]
    omega
  · rw [bbError, ptrAdd_neg (by omega) (by omega)]
    omega

end Buffer

/-! ## The loop -/

variable {mem : Mem} {last fuel fuel' ptr : Nat} {attrs : Attributes} {list : Buffer}
  {names : List CStr} {name : CStr} {reads : List Nat} {fail : Option {e // IsErrno e}}

/-- More fuel does not change what a loop that ends has read. -/
theorem listLoop_mono (h : listLoop mem last fuel ptr = some reads) (hle : fuel ≤ fuel') :
    listLoop mem last fuel' ptr = some reads := by
  induction fuel generalizing fuel' ptr reads with
  | zero => cases h
  | succ fuel ih =>
    obtain ⟨fuel', rfl⟩ : ∃ n, fuel' = n + 1 := ⟨fuel' - 1, by omega⟩
    rw [listLoop] at h ⊢
    split at h
    · next hlt =>
      rw [if_pos hlt]
      simp only [Option.bind_eq_bind, Option.bind_eq_some_iff] at h ⊢
      obtain ⟨length, hlength, rest, hrest, hreads⟩ := h
      obtain ⟨hfuel, hstr⟩ := strlen_eq_some.1 hlength
      exact ⟨length, strlen_eq_some.2 ⟨by omega, hstr⟩, rest, ih hrest (by omega), hreads⟩
    · next hge =>
      rwa [if_neg hge]

/-- On a block of strings the loop reads the block. -/
theorem listLoop_block (h : Holds mem ptr (block names)) (hlast : last = ptr + (block names).length)
    (hlt : last < 2 ^ 64) (hfuel : (block names).length < fuel) :
    listLoop mem last fuel ptr = some (List.range' ptr (block names).length) := by
  induction names generalizing fuel ptr with
  | nil =>
    obtain ⟨fuel, rfl⟩ : ∃ n, fuel = n + 1 := ⟨fuel - 1, by omega⟩
    rw [listLoop, if_neg (by simp [hlast, block])]
    rfl
  | cons name names ih =>
    obtain ⟨fuel, rfl⟩ : ∃ n, fuel = n + 1 := ⟨fuel - 1, by omega⟩
    rw [length_block_cons] at hlast hfuel
    have hnext : ptrAdd ptr (name.bytes.length + 1) = ptr + name.bytes.length + 1 :=
      ptrAdd_of_lt (n := name.bytes.length + 1) (by omega)
    have hrest : listLoop mem last fuel (ptr + name.bytes.length + 1) = some _ :=
      ih (holds_rest h) (by omega) (by omega)
    rw [listLoop, if_pos (by omega), strlen_block h (by omega)]
    simp only [Option.bind_eq_bind, Option.bind_some, hnext, hrest]
    rw [length_block_cons, Nat.add_assoc ptr, List.range'_append_1]

/-- A loop that does not stop at once reads the first byte. -/
theorem mem_reads (h : listLoop mem last fuel ptr = some reads) (hlt : ptr < last) :
    ptr ∈ reads := by
  cases fuel with
  | zero => cases h
  | succ fuel =>
    rw [listLoop, if_pos hlt] at h
    simp only [Option.bind_eq_bind, Option.bind_eq_some_iff] at h
    obtain ⟨length, -, rest, -, hreads⟩ := h
    cases hreads
    exact List.mem_append_left _ (List.mem_range'_1.2 ⟨Nat.le_refl ptr, by omega⟩)

/-- The loop ends, and it reads only bytes that `llistxattr` has written. -/
structure StaysInside (attrs : Attributes) (mem : Mem) (list : Buffer)
    (fail : Option {e // IsErrno e}) : Prop where
  terminates : ∃ fuel, (bbListxattr fuel attrs mem list fail).isSome
  inside : ∀ fuel retstat reads, bbListxattr fuel attrs mem list fail = some (retstat, reads) →
    ∀ p ∈ reads, list.addr ≤ p ∧ p < list.addr + (llistxattr attrs mem list fail).written

/-- The address that the loop ends at. -/
def listEnd (attrs : Attributes) (mem : Mem) (list : Buffer) (fail : Option {e // IsErrno e}) :
    Nat :=
  ptrAdd list.addr (llistxattr attrs mem list fail).result.retstat

/-- As the loop is deterministic, it is enough to know one run of it. -/
theorem StaysInside.of_loop (h : listLoop (llistxattr attrs mem list fail).mem
      (listEnd attrs mem list fail) fuel list.addr = some reads)
    (hin : ∀ p ∈ reads,
      list.addr ≤ p ∧ p < list.addr + (llistxattr attrs mem list fail).written) :
    StaysInside attrs mem list fail := by
  rw [listEnd] at h
  refine ⟨⟨fuel, by simp [bbListxattr, h]⟩, ?_⟩
  intro fuel' retstat' reads' h'
  obtain ⟨reads', hloop, heq⟩ := Option.map_eq_some_iff.1 h'
  cases heq
  have hone := (listLoop_mono h (Nat.le_max_left fuel fuel')).symm.trans
    (listLoop_mono hloop (Nat.le_max_right fuel fuel'))
  exact Option.some.inj hone ▸ hin

/-- A loop that is entered reads the first byte of the buffer. -/
theorem StaysInside.written_pos (h : StaysInside attrs mem list fail)
    (hlt : list.addr < listEnd attrs mem list fail) :
    0 < (llistxattr attrs mem list fail).written := by
  obtain ⟨fuel, hsome⟩ := h.terminates
  obtain ⟨⟨retstat, reads⟩, hrun⟩ := Option.isSome_iff_exists.1 hsome
  obtain ⟨reads, hloop, heq⟩ := Option.map_eq_some_iff.1 hrun
  cases heq
  have hfirst := h.inside fuel _ _ hrun list.addr (mem_reads hloop hlt)
  omega

/-- What is written is the block of the names, and its length is returned. -/
theorem llistxattr_written (h : 0 < (llistxattr attrs mem list fail).written) :
    (llistxattr attrs mem list fail).result = .ok (block attrs.names).length ∧
    (llistxattr attrs mem list fail).written = (block attrs.names).length ∧
    Holds (llistxattr attrs mem list fail).mem list.addr (block attrs.names) := by
  cases fail with
  | some errno => exact absurd h (Nat.lt_irrefl 0)
  | none =>
    rw [llistxattr] at h ⊢
    by_cases hsize : list.size = 0
    · rw [if_pos hsize] at h
      exact absurd h (Nat.lt_irrefl 0)
    · rw [if_neg hsize] at h ⊢
      by_cases hle : (block attrs.names).length ≤ list.size
      · rw [if_pos hle]
        refine ⟨rfl, rfl, fun i b hb => ?_⟩
        simp [hb]
      · rw [if_neg hle] at h
        exact absurd h (Nat.lt_irrefl 0)

/-- The loop stays inside unless it is entered when nothing was written. -/
theorem staysInside_iff_written : StaysInside attrs mem list fail ↔
    (list.addr < listEnd attrs mem list fail → 0 < (llistxattr attrs mem list fail).written) := by
  refine ⟨fun h => h.written_pos, fun h => ?_⟩
  by_cases hlt : list.addr < listEnd attrs mem list fail
  · obtain ⟨hresult, hwritten, hmem⟩ := llistxattr_written (h hlt)
    have haddr : list.addr ≤ _ := Buffer.addr_le
    have hshort := attrs.short
    have hend : listEnd attrs mem list fail = list.addr + (block attrs.names).length := by
      rw [listEnd, hresult]
      exact ptrAdd_of_lt (by omega)
    refine .of_loop (listLoop_block hmem hend (by omega) (Nat.lt_succ_self _)) fun p hp => ?_
    rw [hwritten]
    exact List.mem_range'_1.1 hp
  · have hloop : listLoop (llistxattr attrs mem list fail).mem
        (listEnd attrs mem list fail) 1 list.addr = some [] := by
      rw [listLoop, if_neg hlt]
    exact .of_loop hloop fun _ hp => nomatch hp

/-- After a failed call the loop is entered from `NULL` only. -/
theorem staysInside_failed {e : Nat} (he : IsErrno e)
    (hresult : (llistxattr attrs mem list fail).result = .fail e)
    (hwritten : (llistxattr attrs mem list fail).written = 0) :
    StaysInside attrs mem list fail ↔ list.addr ≠ 0 := by
  rw [staysInside_iff_written, listEnd, hresult, hwritten]
  exact (imp_iff_not (Nat.lt_irrefl 0)).trans (not_congr (Buffer.lt_ptrAdd_bbError he))

/-- After a call that returned a length the loop is entered if there is a name. -/
theorem entered_ok (hresult : (llistxattr attrs mem list fail).result =
      .ok (block attrs.names).length) :
    list.addr < listEnd attrs mem list fail ↔ attrs.names ≠ [] := by
  rw [listEnd, hresult]
  exact (Buffer.lt_ptrAdd attrs.short).trans length_block_pos

/-- In a buffer with a byte it stays inside, whatever the outcome. -/
theorem staysInside_of_size (hsize : list.size ≠ 0) : StaysInside attrs mem list fail := by
  have haddr : list.addr ≠ 0 := fun hnull => hsize (list.size_of_null hnull)
  cases fail with
  | some errno => exact (staysInside_failed errno.2 rfl rfl).2 haddr
  | none =>
    by_cases hle : (block attrs.names).length ≤ list.size
    · have hlisted : (llistxattr attrs mem list none).result = .ok (block attrs.names).length ∧
          (llistxattr attrs mem list none).written = (block attrs.names).length := by
        rw [llistxattr, if_neg hsize, if_pos hle]
        exact ⟨rfl, rfl⟩
      rw [staysInside_iff_written, entered_ok hlisted.1, hlisted.2]
      exact length_block_pos.2
    · have hlisted : llistxattr attrs mem list none = ⟨.fail ERANGE, mem, 0⟩ := by
        rw [llistxattr, if_neg hsize, if_neg hle]
      have herrno : IsErrno ERANGE := by decide
      exact (staysInside_failed herrno (by rw [hlisted]) (by rw [hlisted])).2 haddr

/-- Without one it stays inside only if it is not entered. -/
theorem staysInside_query (hsize : list.size = 0) : StaysInside attrs mem list fail ↔
    ¬ list.addr < listEnd attrs mem list fail := by
  have hwritten : (llistxattr attrs mem list fail).written = 0 := by
    cases fail with
    | some errno => rfl
    | none => rw [llistxattr, if_pos hsize]
  rw [staysInside_iff_written, hwritten]
  exact imp_iff_not (Nat.lt_irrefl 0)

/-- **When the loop over the names stays inside the bytes that were written.** For every list of
names, every buffer and every outcome of the call, it ends and reads only such bytes unless the size
is zero, and either the call succeeds and the file has an attribute, or the call fails and the
buffer is `NULL`. -/
theorem listxattr_inside_iff : StaysInside attrs mem list fail ↔
    ¬ (list.size = 0 ∧ (fail = none ∧ attrs.names ≠ [] ∨ fail ≠ none ∧ list.addr = 0)) := by
  by_cases hsize : list.size = 0
  · cases fail with
    | some errno =>
      rw [staysInside_failed errno.2 rfl rfl]
      simp [hsize]
    | none =>
      have hresult : (llistxattr attrs mem list none).result = .ok (block attrs.names).length := by
        rw [llistxattr, if_pos hsize]
      rw [staysInside_query hsize, entered_ok hresult]
      simp [hsize]
  · exact iff_of_true (staysInside_of_size hsize) fun h => hsize h.1

/-- A name of one letter. -/
def nameX : CStr := ⟨[120], by decide⟩

/-- A file with this attribute, and the `NULL` that a query for the length passes. -/
def attrsX : Attributes := ⟨[nameX], by decide⟩

def nullBuffer : Buffer := ⟨0, 0, .inl ⟨rfl, rfl⟩⟩

/-- The size query for a file with one attribute reads at `NULL`. -/
theorem size_query_reads : ¬ ∀ (attrs : Attributes) (mem : Mem) (list : Buffer)
    (fail : Option {e // IsErrno e}), StaysInside attrs mem list fail := by
  intro h
  have hrun : bbListxattr 3 attrsX (fun _ => 0) nullBuffer none = some (2, [0, 1]) := by decide
  exact absurd ((h attrsX (fun _ => 0) nullBuffer none).inside 3 _ _ hrun 0 (by decide)).2
    (by decide)

end Eece4029
