import Mathlib.Algebra.Ring.Nat
import Mathlib.Data.List.Basic
import Mathlib.Algebra.BigOperators.Group.List.Basic

/-!
# The Internet checksum

One's-complement addition of 16-bit words brings the carry out of the top bit back in at the bottom.
`sum` adds up a list of words so, and the checksum of RFC 1071 is the complement of the sum of the
bytes, read as words with the high byte first. The sum depends only on the ordinary one
(`sum_eq_canon`): it is that number modulo `65535`, with `65535` in the place of a zero that is not
the sum of zeros alone. So a block of bytes with its own checksum in it sums to `65535`
(`sum_with_checksum`), which is how a receiver checks it.
-/

namespace OnesComplement

variable {l r pre post bs : List UInt8} {ws : List Nat} {n w : Nat}

/-! ## Sums of words -/

/-- One's-complement addition of two 16-bit words. -/
def add (a b : Nat) : Nat := if a + b < 65536 then a + b else a + b - 65535

/-- The one's-complement sum of a list of 16-bit words. -/
def sum (ws : List Nat) : Nat := ws.foldl add 0

/-- The one's-complement sum of words that add up to `n`. -/
def canon (n : Nat) : Nat := if n = 0 then 0 else (n - 1) % 65535 + 1

theorem add_canon (hw : w < 65536) : add (canon n) w = canon (n + w) := by
  unfold add canon
  split <;> split <;> split <;> omega

theorem foldl_add_canon (hws : ∀ w ∈ ws, w < 65536) :
    ws.foldl add (canon n) = canon (n + ws.sum) := by
  induction ws generalizing n with
  | nil => simp
  | cons w ws ih =>
    rw [List.foldl_cons, add_canon (hws w List.mem_cons_self),
      ih fun u hu => hws u (List.mem_cons_of_mem w hu), List.sum_cons, Nat.add_assoc]

/-- The one's-complement sum depends only on the ordinary one. -/
theorem sum_eq_canon (hws : ∀ w ∈ ws, w < 65536) : sum ws = canon ws.sum := by
  have h := foldl_add_canon (n := 0) hws
  rwa [Nat.zero_add] at h

/-- A number and the complement of its one's-complement sum. -/
theorem canon_add_complement : canon (n + (65535 - canon n)) = 65535 := by
  unfold canon
  split <;> split <;> omega

/-! ## Bytes as words -/

/-- The 16-bit words of a list of bytes, the high byte first; a last odd byte is a high byte. -/
def words : List UInt8 → List Nat
  | a :: b :: rest => (a.toNat * 256 + b.toNat) :: words rest
  | [a] => [a.toNat * 256]
  | [] => []

theorem words_lt : ∀ w ∈ words bs, w < 65536 := by
  induction bs using words.induct with
  | case1 a b rest ih =>
    intro w hw
    have ha := a.toNat_lt
    have hb := b.toNat_lt
    rcases List.mem_cons.1 hw with rfl | hw
    · omega
    · exact ih w hw
  | case2 a =>
    intro w hw
    have ha := a.toNat_lt
    rw [List.mem_singleton.1 hw]
    omega
  | case3 => exact fun w hw => nomatch hw

/-- Bytes after an even number of bytes are words of their own. -/
theorem words_append (hl : l.length % 2 = 0) : words (l ++ r) = words l ++ words r := by
  induction l using words.induct with
  | case1 a b rest ih =>
    rw [List.length_cons, List.length_cons] at hl
    rw [List.cons_append, List.cons_append, words, words, ih (by omega), List.cons_append]
  | case2 a => simp at hl
  | case3 => rfl

/-- The high byte of a word. -/
def hi (c : UInt16) : UInt8 := (c >>> 8).toUInt8

/-- The low byte of a word. -/
def lo (c : UInt16) : UInt8 := c.toUInt8

theorem words_hi_lo (c : UInt16) (bs : List UInt8) :
    words (hi c :: lo c :: bs) = c.toNat :: words bs := by
  have hc := c.toNat_lt
  have hhi : (hi c).toNat = c.toNat / 256 := by
    simp only [hi, UInt16.toNat_toUInt8, UInt16.toNat_shiftRight]
    rw [show (8 : UInt16).toNat % 16 = 8 from rfl, Nat.shiftRight_eq_div_pow]
    omega
  have hlo : (lo c).toNat = c.toNat % 256 := by simp [lo]
  rw [words, hhi, hlo, Nat.div_add_mod']

/-! ## The checksum -/

/-- The checksum of a list of bytes. -/
def checksum (bs : List UInt8) : UInt16 := UInt16.ofNat (65535 - sum (words bs))

/-- **A block with its own checksum sums to `65535`**: the checksum is taken over the block with
zeros in its place, which is at an even number of bytes from the start. -/
theorem sum_with_checksum (hpre : pre.length % 2 = 0) {c : UInt16}
    (hc : c = checksum (pre ++ 0 :: 0 :: post)) :
    sum (words (pre ++ hi c :: lo c :: post)) = 65535 := by
  have hzero :
      sum (words (pre ++ 0 :: 0 :: post)) = canon ((words pre).sum + (words post).sum) := by
    rw [sum_eq_canon words_lt, words_append hpre, List.sum_append]
    simp [words]
  have hval : c.toNat = 65535 - canon ((words pre).sum + (words post).sum) := by
    rw [hc, checksum, hzero]
    exact UInt16.toNat_ofNat_of_lt' (Nat.lt_of_le_of_lt (Nat.sub_le _ _) (by decide))
  rw [sum_eq_canon words_lt, words_append hpre, words_hi_lo, List.sum_append, List.sum_cons, hval,
    Nat.add_left_comm, ← Nat.add_comm _ (65535 - _)]
  exact canon_add_complement

end OnesComplement
