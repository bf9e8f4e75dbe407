import Mathlib
import ClickHouseGpu.Lib.ByteBuffer

/-
  ClickHouseGpu.Lib.AlignedWord — a little-endian 64-bit word at any address, put together from
  the two aligned words around it, as word-at-a-time string code reads it.

  `load64 mem a` is the eight bytes from `a` as one word. The word at `A + o` (`o < 8`) is the
  high `8 - o` bytes of the word at `A` and the low `o` bytes of the word at `A + 8`: the first
  shifted right by `8 * o` bits, or-ed with the second shifted left by `8 * (8 - o)`
  (`toNat_load64_join`). The left shift is the device's (`shl64`): PTX `shl.b64` clamps the
  amount to the width, so a shift by 64 gives 0 where C++ leaves it undefined. That is the case
  `o = 0`, where the second word adds nothing. A mask of the low `8 * n` bits keeps the first `n`
  bytes of a word (`toNat_and_mask`).
-/

namespace AlignedWord

open ByteBuffer

/-! ## Little-endian values of parts of a list -/

theorem leValue_append (xs ys : List UInt8) : leValue (xs ++ ys) = leValue xs + 256 ^ xs.length * leValue ys := by
  induction xs with
  | nil => simp [leValue]
  | cons b bs ih =>
    simp only [List.cons_append, leValue, ih, List.length_cons, Nat.pow_succ']
    ring

/-- The first `n` bytes of a word are its value modulo `256 ^ n`. -/
theorem leValue_take (xs : List UInt8) (n : Nat) : leValue (xs.take n) = leValue xs % 256 ^ n := by
  conv_rhs => rw [← List.take_append_drop n xs, leValue_append]
  by_cases hn : n ≤ xs.length
  · have hlt := leValue_lt (xs.take n)
    rw [List.length_take_of_le hn] at hlt ⊢
    rw [Nat.add_mul_mod_self_left, Nat.mod_eq_of_lt hlt]
  · have hlt := leValue_lt xs
    have hle : 256 ^ xs.length ≤ 256 ^ n := Nat.pow_le_pow_right (by norm_num) (by omega)
    rw [List.drop_eq_nil_of_le (by omega), List.take_of_length_le (by omega)]
    simp only [leValue, Nat.mul_zero, Nat.add_zero]
    rw [Nat.mod_eq_of_lt (by omega)]

/-- The bytes of a word from the `n`-th on are its value divided by `256 ^ n`. -/
theorem leValue_drop (xs : List UInt8) (n : Nat) : leValue (xs.drop n) = leValue xs / 256 ^ n := by
  conv_rhs => rw [← List.take_append_drop n xs, leValue_append]
  by_cases hn : n ≤ xs.length
  · have hlt := leValue_lt (xs.take n)
    have hpos : 0 < 256 ^ n := by positivity
    rw [List.length_take_of_le hn] at hlt ⊢
    rw [Nat.add_mul_div_left _ _ hpos, Nat.div_eq_of_lt hlt, Nat.zero_add]
  · have hlt := leValue_lt xs
    have hle : 256 ^ xs.length ≤ 256 ^ n := Nat.pow_le_pow_right (by norm_num) (by omega)
    rw [List.drop_eq_nil_of_le (by omega), List.take_of_length_le (by omega)]
    simp only [leValue, Nat.mul_zero, Nat.add_zero]
    rw [Nat.div_eq_of_lt (by omega)]

theorem take_load (mem : Nat → UInt8) (p m n : Nat) : (load mem p m).take n = load mem p (min n m) := by
  rw [load, load, ← List.map_take, List.take_range]

theorem drop_load (mem : Nat → UInt8) (p m n : Nat) : (load mem p m).drop n = load mem (p + n) (m - n) := by
  by_cases hn : n ≤ m
  · conv_lhs => rw [show m = n + (m - n) by omega, load_add]
    rw [List.drop_left' (by simp)]
  · rw [List.drop_eq_nil_of_le (by simp; omega), show m - n = 0 by omega, load_zero]

/-! ## Aligned loads and shifts -/

/-- The 64-bit little-endian word at `a`. -/
def load64 (mem : Nat → UInt8) (a : Nat) : UInt64 := UInt64.ofNat (leValue (load mem a 8))

/-- The device's 64-bit left shift: an amount of 64 or more gives 0. -/
def shl64 (x : UInt64) (n : Nat) : UInt64 := if n < 64 then x <<< n.toUInt64 else 0

theorem toNat_load64 (mem : Nat → UInt8) (a : Nat) : (load64 mem a).toNat = leValue (load mem a 8) := by
  have hlt : leValue (load mem a 8) < 2 ^ 64 := by
    simpa using leValue_lt (load mem a 8)
  rw [load64, UInt64.toNat_ofNat', Nat.mod_eq_of_lt hlt]

theorem toNat_shl64 (x : UInt64) (n : Nat) : (shl64 x n).toNat = x.toNat * 2 ^ n % 2 ^ 64 := by
  unfold shl64
  split
  · next hn =>
    have hmod : n.toUInt64.toNat % 64 = n := by
      rw [Nat.toUInt64_eq, UInt64.toNat_ofNat']
      omega
    rw [UInt64.toNat_shiftLeft, hmod, Nat.shiftLeft_eq]
  · next hn =>
    -- the clamp agrees with the arithmetic: `2 ^ 64` divides `2 ^ n`
    rw [Nat.mod_eq_zero_of_dvd (Dvd.dvd.mul_left (Nat.pow_dvd_pow 2 (by omega)) _)]
    rfl

theorem toNat_shiftRight_bytes (x : UInt64) {o : Nat} (ho : o < 8) :
    (x >>> (8 * o).toUInt64).toNat = x.toNat / 256 ^ o := by
  have hmod : (8 * o).toUInt64.toNat % 64 = 8 * o := by
    rw [Nat.toUInt64_eq, UInt64.toNat_ofNat']
    omega
  rw [UInt64.toNat_shiftRight, hmod, Nat.shiftRight_eq_div_pow, Nat.pow_mul]

/-- The word at `A`, shifted right by `o` bytes, is the `8 - o` bytes from `A + o`. -/
theorem toNat_load64_shiftRight (mem : Nat → UInt8) (A : Nat) {o : Nat} (ho : o < 8) :
    (load64 mem A >>> (8 * o).toUInt64).toNat = leValue (load mem (A + o) (8 - o)) := by
  rw [toNat_shiftRight_bytes _ ho, toNat_load64, ← leValue_drop, drop_load]

/-- The word at `A + 8`, shifted left by `8 - o` bytes, is its low `o` bytes moved up. -/
theorem toNat_shl64_load64 (mem : Nat → UInt8) (A : Nat) {o : Nat} (ho : o < 8) :
    (shl64 (load64 mem (A + 8)) (8 * (8 - o))).toNat = leValue (load mem (A + 8) o) * 256 ^ (8 - o) := by
  have hsplit : load mem (A + 8) 8 = load mem (A + 8) o ++ load mem (A + 8 + o) (8 - o) := by
    rw [← load_add, Nat.add_sub_cancel' (by omega)]
  have hlo := leValue_lt (load mem (A + 8) o)
  rw [length_load] at hlo
  have hfit : leValue (load mem (A + 8) o) * 256 ^ (8 - o) < 2 ^ 64 := by
    calc leValue (load mem (A + 8) o) * 256 ^ (8 - o) < 256 ^ o * 256 ^ (8 - o) :=
          Nat.mul_lt_mul_of_pos_right hlo (by positivity)
      _ = 2 ^ 64 := by rw [← Nat.pow_add, Nat.add_sub_cancel' (by omega)]; norm_num
  have hkey : 256 ^ o * (leValue (load mem (A + 8 + o) (8 - o)) * 256 ^ (8 - o)) =
      leValue (load mem (A + 8 + o) (8 - o)) * 2 ^ 64 := by
    rw [Nat.mul_left_comm, ← Nat.pow_add, Nat.add_sub_cancel' (by omega)]
    rfl
  rw [toNat_shl64, toNat_load64, hsplit, leValue_append, length_load, Nat.pow_mul, show 2 ^ 8 = 256 by rfl,
    Nat.add_mul, Nat.mul_assoc, hkey, Nat.add_mul_mod_self_right, Nat.mod_eq_of_lt hfit]

/-- The word at `A + o`, from the aligned words at `A` and `A + 8`. -/
theorem toNat_load64_join (mem : Nat → UInt8) (A : Nat) {o : Nat} (ho : o < 8) :
    ((load64 mem A >>> (8 * o).toUInt64) ||| shl64 (load64 mem (A + 8)) (8 * (8 - o))).toNat =
      leValue (load mem (A + o) 8) := by
  have hlo : leValue (load mem (A + o) (8 - o)) < 2 ^ (8 * (8 - o)) := by
    have hlt := leValue_lt (load mem (A + o) (8 - o))
    rwa [length_load, show (256 : Nat) = 2 ^ 8 by rfl, ← Nat.pow_mul] at hlt
  have hsplit : load mem (A + o) 8 = load mem (A + o) (8 - o) ++ load mem (A + 8) o := by
    rw [show A + 8 = A + o + (8 - o) by omega, ← load_add, Nat.sub_add_cancel (by omega)]
  rw [UInt64.toNat_or, toNat_load64_shiftRight mem A ho, toNat_shl64_load64 mem A ho, hsplit, leValue_append,
    length_load, show (256 : Nat) ^ (8 - o) = 2 ^ (8 * (8 - o)) by rw [Nat.pow_mul], Nat.or_comm,
    Nat.mul_comm (leValue _), ← Nat.two_pow_add_eq_or_of_lt hlo, Nat.add_comm]

/-- Masking with `(1 << 8 * n) - 1` keeps the low `n` bytes. -/
theorem toNat_and_mask (x : UInt64) {n : Nat} (hn : n < 8) :
    (x &&& ((1 : UInt64) <<< (8 * n).toUInt64 - 1)).toNat = x.toNat % 256 ^ n := by
  have hmod : (8 * n).toUInt64.toNat % 64 = 8 * n := by
    rw [Nat.toUInt64_eq, UInt64.toNat_ofNat']
    omega
  have hpow : ((1 : UInt64) <<< (8 * n).toUInt64).toNat = 2 ^ (8 * n) := by
    rw [UInt64.toNat_shiftLeft, hmod, Nat.shiftLeft_eq, UInt64.toNat_one, Nat.one_mul]
    exact Nat.mod_eq_of_lt (Nat.pow_lt_pow_right (by norm_num) (by omega))
  have hone : (1 : UInt64) ≤ (1 : UInt64) <<< (8 * n).toUInt64 := by
    rw [UInt64.le_iff_toNat_le, hpow]
    exact Nat.one_le_two_pow
  rw [UInt64.toNat_and, UInt64.toNat_sub_of_le _ _ hone, hpow, UInt64.toNat_one,
    Nat.and_two_pow_sub_one_eq_mod, Nat.pow_mul]

end AlignedWord
