import Eece4029.Lib.CString

/-!
# The buffer for a path

`bb_fullpath` puts the root directory of the mount and the path of the request behind it into an
array of `PATH_MAX` bytes on the stack of the handler: `strcpy`, and `strncat` with `PATH_MAX` as
the number of bytes to append, which is not what is left of the array. "Ridiculously long paths will
break here", says the source; `fullpath_inside_iff` says which ones.

An offset is the distance from the start of the array, and what lies behind it is memory, too. The
strings that are copied lie elsewhere.
-/

namespace Eece4029

open CString Memory Access

/-- The size of the array. -/
def PATH_MAX : Nat := 4096

/-- Store the bytes one after the other. -/
def storeBytes : Nat → List UInt8 → Access Unit
  | _, [] => pure ()
  | p, b :: bytes => do
    writeAt p b
    storeBytes (p + 1) bytes

/-- The distance to the next zero byte, as `strlen` finds it. -/
def scanNul : Nat → Nat → Access (Option Nat)
  | 0, _ => pure none
  | fuel + 1, p => do
    let b ← readAt p
    if b = 0 then
      return some 0
    else
      let k ← scanNul fuel (p + 1)
      return k.map (· + 1)

/-- `strcpy`. -/
def strcpy (dst : Nat) (src : CStr) : Access Unit := storeBytes dst (src.bytes ++ [0])

/-- `strncat`: at most `n` bytes of the source, and a zero. -/
def strncat (fuel dst : Nat) (src : CStr) (n : Nat) : Access Unit := do
  match ← scanNul fuel dst with
  | some k => storeBytes (dst + k) (src.bytes.take n ++ [0])
  | none => pure ()

/-- `bb_fullpath`. -/
def bbFullpath (fuel : Nat) (rootdir path : CStr) : Access Unit := do
  strcpy 0 rootdir
  strncat fuel 0 path PATH_MAX

variable {mem : Mem} {fuel p n : Nat} {bytes : List UInt8} {s rootdir path : CStr}

/-! ## Stores -/

theorem inside_storeBytes :
    Inside n (storeBytes p bytes) mem ↔ bytes = [] ∨ p + bytes.length ≤ n := by
  induction bytes generalizing p mem with
  | nil => simp [storeBytes]
  | cons b bytes ih =>
    rw [storeBytes, inside_bind, inside_writeAt, ih]
    cases bytes with
    | nil =>
      simp only [List.length_nil, List.length_singleton, List.cons_ne_nil, true_or, and_true,
        false_or]
      omega
    | cons c bytes =>
      simp only [List.length_cons, List.cons_ne_nil, false_or]
      omega

/-- What is stored stands there, and the rest stays as it was. -/
theorem mem_storeBytes {i : Nat} : (storeBytes p bytes mem).mem i =
    if p ≤ i then (bytes[i - p]?).getD (mem i) else mem i := by
  induction bytes generalizing p mem with
  | nil => exact (ite_self _).symm
  | cons b bytes ih =>
    rw [storeBytes, mem_bind, ih, mem_writeAt]
    rcases Nat.lt_trichotomy i p with hlt | rfl | hgt
    · rw [if_neg (by omega), if_neg (by omega), if_neg (by omega)]
    · rw [if_neg (by omega), if_pos rfl, if_pos (Nat.le_refl i), Nat.sub_self]
      rfl
    · rw [if_pos (by omega), if_neg (by omega), if_pos (by omega),
        show i - p = i - (p + 1) + 1 by omega, List.getElem?_cons_succ]

theorem holds_storeBytes : Holds (storeBytes p bytes mem).mem p bytes := by
  intro i b hb
  rw [mem_storeBytes, if_pos (Nat.le_add_right p i), Nat.add_sub_cancel_left, hb, Option.getD_some]

/-! ## The end of the string -/

/-- The search finds what `strlen` finds, and reads the bytes up to there. -/
theorem scanNul_eq {k : Nat} (h : strlen mem fuel p = some k) :
    scanNul fuel p mem = ⟨some k, mem, List.range' p (k + 1)⟩ := by
  induction fuel generalizing p k with
  | zero => cases h
  | succ fuel ih =>
    have hstep : scanNul (fuel + 1) p mem =
        let rest := (if mem p = 0 then (pure (some 0) : Access (Option Nat))
          else scanNul fuel (p + 1) >>= fun k => pure (k.map (· + 1))) mem
        ⟨rest.value, rest.mem, [p] ++ rest.accessed⟩ := rfl
    rw [strlen] at h
    split at h
    · next hzero =>
      cases h
      rw [hstep, if_pos hzero]
      rfl
    · next hne =>
      obtain ⟨k, hk, rfl⟩ := Option.map_eq_some_iff.1 h
      have hrest : (scanNul fuel (p + 1) >>= fun k => (pure (k.map (· + 1)) : Access (Option Nat)))
          mem = ⟨some (k + 1), mem, List.range' (p + 1) (k + 1) ++ []⟩ := by
        change Outcome.mk _ _ _ = _
        rw [ih hk]
        rfl
      rw [hstep, if_neg hne, hrest, List.append_nil]
      rfl

theorem scanNul_string (h : Holds mem p (s.bytes ++ [0])) (hfuel : s.bytes.length < fuel) :
    scanNul fuel p mem = ⟨some s.bytes.length, mem, List.range' p (s.bytes.length + 1)⟩ :=
  have hblock : Holds mem p (block [s]) := h
  scanNul_eq (strlen_block hblock hfuel)

/-! ## The path -/

/-- `strncat` behind a string that stands in memory. -/
theorem strncat_string (h : Holds mem 0 (s.bytes ++ [0])) (hfuel : s.bytes.length < fuel) :
    strncat fuel 0 path n mem =
      let stored := storeBytes (0 + s.bytes.length) (path.bytes.take n ++ [0]) mem
      ⟨(), stored.mem, List.range' 0 (s.bytes.length + 1) ++ stored.accessed⟩ := by
  have hbind : strncat fuel 0 path n mem =
      let scanned := scanNul fuel 0 mem
      let stored := (match scanned.value with
        | some k => storeBytes (0 + k) (path.bytes.take n ++ [0])
        | none => pure ()) scanned.mem
      ⟨(), stored.mem, scanned.accessed ++ stored.accessed⟩ := rfl
  rw [hbind, scanNul_string h hfuel]

theorem inside_strncat {m : Nat} (h : Holds mem 0 (s.bytes ++ [0]))
    (hfuel : s.bytes.length < fuel) : Inside m (strncat fuel 0 path n) mem ↔
      s.bytes.length + min n path.bytes.length < m := by
  have hscan : Inside m (readRange 0 (s.bytes.length + 1)) mem ↔ _ := inside_readRange
  have hstore : Inside m (storeBytes (0 + s.bytes.length) (path.bytes.take n ++ [0])) mem ↔ _ :=
    inside_storeBytes
  rw [Inside, strncat_string h hfuel, List.forall_mem_append]
  refine (and_congr hscan hstore).trans ?_
  simp only [List.append_eq_nil_iff, List.cons_ne_nil, and_false, false_or, List.length_append,
    List.length_take, List.length_singleton]
  omega

theorem inside_bbFullpath (hfuel : rootdir.bytes.length < fuel) :
    Inside PATH_MAX (bbFullpath fuel rootdir path) mem ↔
      rootdir.bytes.length + path.bytes.length < PATH_MAX := by
  have hroot : Holds (strcpy 0 rootdir mem).mem 0 (rootdir.bytes ++ [0]) := holds_storeBytes
  rw [bbFullpath, inside_bind, inside_strncat hroot hfuel, strcpy, inside_storeBytes]
  simp only [List.append_eq_nil_iff, List.cons_ne_nil, and_false, false_or, List.length_append,
    List.length_singleton]
  omega

theorem holds_bbFullpath (hfuel : rootdir.bytes.length < fuel)
    (hlt : rootdir.bytes.length + path.bytes.length < PATH_MAX) :
    Holds (bbFullpath fuel rootdir path mem).mem 0 (rootdir.bytes ++ path.bytes ++ [0]) := by
  intro i b hb
  have hroot : Holds (strcpy 0 rootdir mem).mem 0 (rootdir.bytes ++ [0]) := holds_storeBytes
  have htake : path.bytes.take PATH_MAX = path.bytes := List.take_of_length_le (by omega)
  rw [bbFullpath, mem_bind, strncat_string hroot hfuel, htake]
  change (storeBytes (0 + rootdir.bytes.length) (path.bytes ++ [0]) _).mem (0 + i) = b
  rw [mem_storeBytes, Nat.zero_add, Nat.zero_add]
  rw [List.append_assoc] at hb
  obtain hi | hi := Nat.lt_or_ge i rootdir.bytes.length
  · rw [if_neg (by omega)]
    rw [List.getElem?_append_left hi] at hb
    have hbyte := hroot i b (by rw [List.getElem?_append_left hi, hb])
    rwa [Nat.zero_add] at hbyte
  · rw [if_pos hi]
    rw [List.getElem?_append_right hi] at hb
    rw [hb, Option.getD_some]

/-- **Which paths fit.** With fuel for the search, every access of `bb_fullpath` lies in the array
exactly if the root directory and the path are together shorter than `PATH_MAX`; and then the root
directory, the path and a zero stand in it. -/
theorem fullpath_inside_iff (hfuel : rootdir.bytes.length < fuel) :
    (Inside PATH_MAX (bbFullpath fuel rootdir path) mem ↔
      rootdir.bytes.length + path.bytes.length < PATH_MAX) ∧
    (rootdir.bytes.length + path.bytes.length < PATH_MAX →
      Holds (bbFullpath fuel rootdir path mem).mem 0 (rootdir.bytes ++ path.bytes ++ [0])) :=
  ⟨inside_bbFullpath hfuel, holds_bbFullpath hfuel⟩

/-- `/a` under `/root`. -/
theorem fullpath_inside_iff_root : Inside PATH_MAX
    (bbFullpath 6 ⟨[47, 114, 111, 111, 116], by decide⟩ ⟨[47, 97], by decide⟩) fun _ => 0 :=
  (fullpath_inside_iff (by decide)).1.2 (by decide)

end Eece4029
