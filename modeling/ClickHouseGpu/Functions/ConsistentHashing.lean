import Mathlib
import ClickHouseGpu.Lib.ConsistentScheme

/-
  ClickHouseGpu.Functions.ConsistentHashing — `yandexConsistentHash(hash, n)`
  (Functions/FunctionsConsistentHashing.h), which calls `ConsistentHashing(x, n)` of
  libs/libconsistent-hashing/yandex/consistent_hashing.cpp.

  `ConsistentHashing` splits `x` into four 16-bit blocks `a, b, c, d` and runs
  `ConsistentHashingImpl<uint16_t>`. For `2 ^ (k - 1) < n ≤ 2 ^ k` it takes the bucket among
  `2 ^ k` from the low `k` bits of `c` and one of `a`, `b` (`ConsistentHashingForPowersOf2`),
  then a second value from all the blocks (`GetAsteriskBits`), then the bucket among
  `2 ^ (k - 1)`: `ConsistentScheme.scheme`. The function accepts `1 ≤ n ≤ 2 ^ 32 - 1`.

  The arithmetic is C++'s: a `uint16_t` operand is promoted to `int` before a shift, so a shift by
  32 or more, or of a value that no `unsigned int` holds, is undefined (`shiftOutOfRange`);
  `size_t` wraps modulo `2 ^ 64`; dividing by zero is undefined (`divisionByZero`).

  Proved:
  - `ConsistentHashingImpl_eq_scheme`: for `1 ≤ n ≤ 2 ^ 15` the code computes the scheme, whose
    buckets among powers of two are nested (`nested_bucketForPowerOf2`).
  - `ConsistentHashing_lt`, `ConsistentHashing_succ`: there it is defined, below `n`, and one more
    bucket keeps a key's bucket or moves it to the new one.
  - `ConsistentHashing_of_gt`: past `2 ^ 31` buckets every key shifts an `int` by 32.
  - `consistent_hash_divides_by_zero`: from `n = 2 ^ 15 + 1` on `k = 16`, and
    `PowerOf2<uint16_t>(16)` is `0`: for `x = 0x0000FFFF00007FFF` and `n = 32769` the bucket among
    `2 ^ 16` is 65535, not below `n`, and the second stage divides by `k2 = 0`.
-/

namespace ClickHouseGpu.Functions.YandexConsistentHash

open ConsistentScheme

/-- Undefined behaviour, and the exception for zero buckets. -/
inductive Fault where
  /-- `std::runtime_error("Can't map consistently to a zero values.")` -/
  | zeroValues
  | shiftOutOfRange
  /-- `__builtin_clz` of zero. -/
  | clzOfZero
  | divisionByZero
  deriving DecidableEq, Repr

def LO_16 (x : UInt32) : UInt16 := (x &&& 0xFFFF).toUInt16
def HI_16 (x : UInt32) : UInt16 := (x >>> 16).toUInt16
def LO_32 (x : UInt64) : UInt32 := (x &&& 0xFFFFFFFF).toUInt32
def HI_32 (x : UInt64) : UInt32 := (x >>> 32).toUInt32

/-- `GetValueBitCount`: the digits of the type less its leading zeros, the bit length. -/
def GetValueBitCount (value : Nat) : Except Fault Nat :=
  if value = 0 then .error .clzOfZero else .ok (Nat.log2 value + 1)

/-- `PopCount<uint64_t>`: the bits set among the 64. -/
def PopCount (n : Nat) : Nat := ((List.range 64).filter n.testBit).length

/-- `v << shift` for an `int` `v ≥ 0`, a promoted `uint16_t`: undefined from a shift of 32 on, or
    when no `unsigned int` holds the value; otherwise that value as an `int`. -/
def intShl (v shift : Nat) : Except Fault Int :=
  if shift < 32 ∧ v * 2 ^ shift < 2 ^ 32 then
    .ok (if v * 2 ^ shift < 2 ^ 31 then (v * 2 ^ shift : Nat) else (v * 2 ^ shift : Nat) - 2 ^ 32)
  else .error .shiftOutOfRange

/-- `v >> shift` for an `int` `v ≥ 0`. -/
def intShr (v shift : Nat) : Except Fault Nat :=
  if shift < 32 then .ok (v / 2 ^ shift) else .error .shiftOutOfRange

/-- `res <<= shift` for a `uint64_t`. -/
def shl64 (v : UInt64) (shift : Nat) : Except Fault UInt64 :=
  if shift < 64 then .ok (v <<< shift.toUInt64) else .error .shiftOutOfRange

/-- `PowerOf2<uint16_t>(k)`: `(uint16_t)0x1 << k`, computed in `int` and returned as a
    `uint16_t`. -/
def PowerOf2 (k : Nat) : Except Fault UInt16 := do
  let v ← intShl 1 k
  pure (v % 65536).toNat.toUInt16

def SelectAOrBBlock (a b cBlock : UInt16) : UInt16 :=
  if PopCount cBlock.toNat % 2 = 0 then a else b

/-- `ConsistentHashingForPowersOf2(a, b, c, k2)`, the bucket among `k2 = 2 ^ k`. The operands of
    `&` are promoted to `int`, where `k2 - 1` is `-1` for `k2 = 0`: the same bits as the
    `uint16_t` difference `0xFFFF`. -/
def ConsistentHashingForPowersOf2 (a b c k2 : UInt16) : Except Fault Nat := do
  let cBlock : UInt16 := c &&& (k2 - 1)
  if cBlock < 2 then return cBlock.toNat
  let y := (← GetValueBitCount cBlock.toNat) - 1
  let y2 ← PowerOf2 y
  let abBlock : UInt16 := SelectAOrBBlock a b cBlock &&& (y2 - 1)
  return y2.toNat + abBlock.toNat

/-- `GetAsteriskBits(a, b, c, d, k)`. `shift = sizeof(TValue) * 8 - k` is a `size_t`. -/
def GetAsteriskBits (a b c d : UInt16) (k : Nat) : Except Fault UInt64 := do
  let shift : UInt64 := 16 - k.toUInt64
  let dShifted ← intShl d.toNat shift.toNat
  let cShifted ← intShr c.toNat k
  -- the `int` result of `|` converted to `uint64_t`
  let res : UInt64 := UInt64.ofInt dShifted ||| UInt64.ofInt cShifted
  let shift := shift + 1
  let res ← shl64 res shift.toNat
  let res := res ||| (← intShr b.toNat (k.toUInt64 - 1).toNat).toUInt64
  let res ← shl64 res shift.toNat
  return res ||| (← intShr a.toNat (k.toUInt64 - 1).toNat).toUInt64

/-- `ConsistentHashingImpl<uint16_t>(a, b, c, d, n)`; `size_t` values are naturals below
    `2 ^ 64`. -/
def ConsistentHashingImpl (a b c d : UInt16) (n : Nat) : Except Fault Nat := do
  if n = 0 then throw .zeroValues
  if n = 1 then return 0
  let k ← GetValueBitCount (n - 1)
  let k2 ← PowerOf2 k
  -- the large scheme
  let largeValue ← ConsistentHashingForPowersOf2 a b c k2
  if largeValue < n then return largeValue
  -- the smooth moving from `2 ^ (k - 1)` buckets to `2 ^ k`
  let k21 ← PowerOf2 (k - 1)
  let bits ← GetAsteriskBits a b c d k
  let m := largeValue * (largeValue + 1) % 2 ^ 64
  if m = 0 then throw .divisionByZero
  let s := bits.toNat % m
  if k2 = 0 then throw .divisionByZero
  let largeValue2 := (s / k2.toNat + k21.toNat) % 2 ^ 64
  if largeValue2 < n then return largeValue2
  -- the short scheme
  ConsistentHashingForPowersOf2 a b c k21

/-- `ConsistentHashing(x, n)` for a 64-bit `x`. -/
def ConsistentHashing (x : UInt64) (n : Nat) : Except Fault Nat :=
  let lo := LO_32 x
  let hi := HI_32 x
  ConsistentHashingImpl (LO_16 lo) (HI_16 lo) (LO_16 hi) (HI_16 hi) n

/-- `YandexConsistentHashImpl::apply`: the bucket as a `UInt32`. -/
def apply (hash : UInt64) (n : UInt32) : Except Fault UInt32 :=
  (ConsistentHashing hash n.toNat).map Nat.toUInt32

/-- `max_buckets`: the largest `UInt32`. -/
def max_buckets : Nat := 2 ^ 32 - 1

/-- `checkBucketsRange` of `FunctionConsistentHashImpl<YandexConsistentHashImpl>`. -/
def checkBucketsRange (buckets : Int) : Except String UInt32 :=
  if buckets ≤ 0 then
    .error "The second argument of function yandexConsistentHash (number of buckets) must be positive number"
  else if buckets.toNat > max_buckets then
    .error "The value of the second argument of function yandexConsistentHash (number of buckets) is not fit to UInt32"
  else .ok buckets.toNat.toUInt32

/-! ## The scheme, up to `2 ^ 15` buckets -/

theorem PowerOf2_of_lt {k : Nat} (hk : k < 31) : PowerOf2 k = .ok (2 ^ k).toUInt16 := by
  have h31 : 2 ^ k < 2 ^ 31 := Nat.pow_lt_pow_right (by decide) hk
  have h32 : 2 ^ k < 2 ^ 32 := Nat.lt_trans h31 (by decide)
  simp only [PowerOf2, intShl, Nat.one_mul, h31, h32, if_true, and_true, show k < 32 by omega, bind, Except.bind,
    pure, Except.pure]
  congr 1
  apply UInt16.toNat.inj
  simp only [Nat.toUInt16, UInt16.toNat_ofNat']
  omega

theorem and_sub_one_toNat (c : UInt16) (k : Nat) : (c &&& ((2 ^ k).toUInt16 - 1)).toNat = c.toNat % 2 ^ k := by
  rw [UInt16.toNat_and]
  have hc := c.toNat_lt
  by_cases hk : k < 16
  · have hlt : 2 ^ k < 2 ^ 16 := Nat.pow_lt_pow_right (by decide) hk
    have hpow : (2 ^ k).toUInt16.toNat = 2 ^ k := by
      rw [Nat.toUInt16, UInt16.toNat_ofNat', Nat.mod_eq_of_lt hlt]
    have hsub : ((2 ^ k).toUInt16 - 1).toNat = 2 ^ k - 1 := by
      rw [UInt16.toNat_sub_of_le]
      · rw [hpow, UInt16.toNat_one]
      · rw [UInt16.le_iff_toNat_le, hpow, UInt16.toNat_one]
        exact Nat.one_le_two_pow
    rw [hsub, Nat.and_two_pow_sub_one_eq_mod]
  · have hzero : (2 ^ k).toUInt16 = 0 := by
      apply UInt16.toNat.inj
      simp only [Nat.toUInt16, UInt16.toNat_ofNat']
      exact Nat.mod_eq_zero_of_dvd (Nat.pow_dvd_pow 2 (by omega))
    have hle : 2 ^ 16 ≤ 2 ^ k := Nat.pow_le_pow_right (by decide) (by omega)
    rw [hzero, show ((0 : UInt16) - 1).toNat = 2 ^ 16 - 1 from rfl, Nat.and_two_pow_sub_one_eq_mod,
      Nat.mod_eq_of_lt hc, Nat.mod_eq_of_lt (by omega)]

/-- `ConsistentHashingForPowersOf2(a, b, c, 2 ^ k)` on naturals: the low `k` bits of `c` when
    they are `0` or `1`, otherwise their top bit `2 ^ y` and the low `y` bits of `a` or `b`. -/
def bucketForPowerOf2 (a b c : UInt16) (k : Nat) : Nat :=
  let cBlock := c.toNat % 2 ^ k
  if cBlock < 2 then cBlock
  else 2 ^ Nat.log2 cBlock + (SelectAOrBBlock a b cBlock.toUInt16).toNat % 2 ^ Nat.log2 cBlock

theorem ConsistentHashingForPowersOf2_eq (a b c : UInt16) (k : Nat) :
    ConsistentHashingForPowersOf2 a b c (2 ^ k).toUInt16 = .ok (bucketForPowerOf2 a b c k) := by
  have hblock := and_sub_one_toNat c k
  have hlt16 : c.toNat % 2 ^ k < 2 ^ 16 := Nat.lt_of_le_of_lt (Nat.mod_le _ _) c.toNat_lt
  have hround : c &&& ((2 ^ k).toUInt16 - 1) = (c.toNat % 2 ^ k).toUInt16 := by
    apply UInt16.toNat.inj
    rw [hblock, Nat.toUInt16, UInt16.toNat_ofNat', Nat.mod_eq_of_lt hlt16]
  have htoNat : (c.toNat % 2 ^ k).toUInt16.toNat = c.toNat % 2 ^ k := by
    rw [Nat.toUInt16, UInt16.toNat_ofNat', Nat.mod_eq_of_lt hlt16]
  simp only [ConsistentHashingForPowersOf2, bucketForPowerOf2, bind, Except.bind, pure, Except.pure]
  rw [hround]
  by_cases h2 : c.toNat % 2 ^ k < 2
  · have : (c.toNat % 2 ^ k).toUInt16 < 2 := by
      rw [UInt16.lt_iff_toNat_lt, htoNat]
      exact h2
    simp only [this, h2, if_true, htoNat]
  · have hnot : ¬ (c.toNat % 2 ^ k).toUInt16 < 2 := by
      rw [UInt16.lt_iff_toNat_lt, htoNat]
      exact h2
    have hne : c.toNat % 2 ^ k ≠ 0 := by omega
    have hy : Nat.log2 (c.toNat % 2 ^ k) < 16 := (Nat.log2_lt hne).mpr hlt16
    have hpow : 2 ^ Nat.log2 (c.toNat % 2 ^ k) < 2 ^ 16 := Nat.pow_lt_pow_right (by decide) hy
    simp only [hnot, h2, if_false, htoNat, GetValueBitCount, hne, Nat.add_sub_cancel,
      PowerOf2_of_lt (show Nat.log2 (c.toNat % 2 ^ k) < 31 by omega)]
    rw [and_sub_one_toNat, Nat.toUInt16, UInt16.toNat_ofNat', Nat.mod_eq_of_lt hpow]

theorem le_bucketForPowerOf2 (a b c : UInt16) {j k : Nat} (hj : 2 ^ j ≤ c.toNat % 2 ^ k) :
    2 ^ j ≤ bucketForPowerOf2 a b c k := by
  dsimp only [bucketForPowerOf2]
  split
  · exact hj
  · have hne : c.toNat % 2 ^ k ≠ 0 := by have := Nat.one_le_two_pow (n := j); omega
    have hlog : 2 ^ j ≤ 2 ^ Nat.log2 (c.toNat % 2 ^ k) :=
      Nat.pow_le_pow_right (by decide) ((Nat.le_log2 hne).mpr hj)
    omega

theorem nested_bucketForPowerOf2 (a b c : UInt16) : Nested (bucketForPowerOf2 a b c) where
  lt k := by
    have hmod : c.toNat % 2 ^ k < 2 ^ k := Nat.mod_lt _ (Nat.two_pow_pos k)
    dsimp only [bucketForPowerOf2]
    split
    · exact hmod
    · rename_i h2
      have hne : c.toNat % 2 ^ k ≠ 0 := by omega
      have hy : Nat.log2 (c.toNat % 2 ^ k) < k := (Nat.log2_lt hne).mpr hmod
      have hr := Nat.mod_lt (SelectAOrBBlock a b (c.toNat % 2 ^ k).toUInt16).toNat
        (Nat.two_pow_pos (Nat.log2 (c.toNat % 2 ^ k)))
      calc _ < 2 ^ Nat.log2 (c.toNat % 2 ^ k) + 2 ^ Nat.log2 (c.toNat % 2 ^ k) := by omega
        _ = 2 ^ (Nat.log2 (c.toNat % 2 ^ k) + 1) := by rw [Nat.pow_succ]; omega
        _ ≤ 2 ^ k := Nat.pow_le_pow_right (by decide) hy
  succ k h := by
    have hsplit : c.toNat % 2 ^ (k + 1) = c.toNat % 2 ^ k + 2 ^ k * (c.toNat / 2 ^ k % 2) := Nat.mod_pow_succ
    rcases Nat.mod_two_eq_zero_or_one (c.toNat / 2 ^ k) with hbit | hbit
    · -- bit `k` of `c` is clear: the same block
      have hsame : c.toNat % 2 ^ (k + 1) = c.toNat % 2 ^ k := by
        rw [hsplit, hbit, Nat.mul_zero, Nat.add_zero]
      simp only [bucketForPowerOf2, hsame]
    · -- bit `k` is set: the bucket among `2 ^ (k + 1)` is at least `2 ^ k`
      have hge := le_bucketForPowerOf2 a b c (j := k) (k := k + 1) (by rw [hsplit, hbit]; omega)
      omega

theorem toNat_toUInt64_of_le {k : Nat} (hk : k ≤ 16) : k.toUInt64.toNat = k := by
  rw [Nat.toUInt64, UInt64.toNat_ofNat']
  omega

theorem GetAsteriskBits_ok (a b c d : UInt16) {k : Nat} (hk : 1 ≤ k) (hk' : k ≤ 16) :
    ∃ bits, GetAsteriskBits a b c d k = .ok bits := by
  have hkn := toNat_toUInt64_of_le hk'
  have hshift : ((16 : UInt64) - k.toUInt64).toNat = 16 - k := by
    rw [UInt64.toNat_sub_of_le _ _ (UInt64.le_iff_toNat_le.mpr (by rw [hkn]; simp; omega)), hkn]
    rfl
  have hk1 : (k.toUInt64 - 1).toNat = k - 1 := by
    rw [UInt64.toNat_sub_of_le _ _ (UInt64.le_iff_toNat_le.mpr (by rw [hkn]; simp; omega)), hkn]
    rfl
  have hd : d.toNat * 2 ^ (16 - k) < 4294967296 := by
    have hpow : 2 ^ (16 - k) ≤ 2 ^ 15 := Nat.pow_le_pow_right (by decide) (by omega)
    have hd16 := d.toNat_lt
    calc d.toNat * 2 ^ (16 - k) ≤ d.toNat * 2 ^ 15 := Nat.mul_le_mul_left _ hpow
      _ < 4294967296 := by omega
  have h₁ : 16 - k < 32 := by omega
  have h₂ : k < 32 := by omega
  have h₃ : (16 - k + 1) % 18446744073709551616 < 64 := by omega
  have h₄ : k - 1 < 32 := by omega
  simp [GetAsteriskBits, intShl, intShr, shl64, bind, Except.bind, pure, Except.pure, hshift, hk1, hd, h₁, h₂, h₃, h₄]

/-- The second stage for the band `k` and the bucket `L` among `2 ^ k`:
    `GetAsteriskBits(a, b, c, d, k) % (largeValue * (largeValue + 1))`. -/
def secondStage (a b c d : UInt16) (k L : Nat) : Nat :=
  match GetAsteriskBits a b c d k with
  | .ok bits => bits.toNat % (L * (L + 1))
  | .error _ => 0

/-- For `2 ≤ n ≤ 2 ^ 15` every shift is in range, `k2 = 2 ^ k` is not zero, and the code computes
    the scheme. -/
theorem ConsistentHashingImpl_eq_scheme_of_two_le (a b c d : UInt16) {n : Nat} (hn : 2 ≤ n) (hn' : n ≤ 2 ^ 15) :
    ConsistentHashingImpl a b c d n = .ok (scheme (bucketForPowerOf2 a b c) (secondStage a b c d) n) := by
  have hband := band_spec hn
  have hk1 : 1 ≤ band n := by simp [band]
  have hk15 : band n ≤ 15 := by
    have : 2 ^ (band n - 1) < 2 ^ 15 := by omega
    have := (Nat.pow_lt_pow_iff_right (by decide : 1 < 2)).mp this
    omega
  have hcount : GetValueBitCount (n - 1) = .ok (band n) := by
    simp [GetValueBitCount, band, show n - 1 ≠ 0 by omega]
  obtain ⟨bits, hbits⟩ := GetAsteriskBits_ok a b c d hk1 (by omega)
  have hpow : ∀ j, j ≤ 15 → (2 ^ j).toUInt16.toNat = 2 ^ j := fun j hj => by
    rw [Nat.toUInt16, UInt16.toNat_ofNat']
    exact Nat.mod_eq_of_lt (Nat.pow_lt_pow_right (by decide) (by omega))
  have hk2ne : (2 ^ band n).toUInt16 ≠ 0 := fun h => by
    have := congrArg UInt16.toNat h
    rw [hpow _ hk15] at this
    simp at this
  have hLlt : bucketForPowerOf2 a b c (band n) < 2 ^ band n := (nested_bucketForPowerOf2 a b c).lt _
  have hk2le : 2 ^ band n ≤ 2 ^ 15 := Nat.pow_le_pow_right (by decide) hk15
  simp only [ConsistentHashingImpl, bind, Except.bind, pure, Except.pure, hcount, PowerOf2_of_lt (show band n < 31 by omega),
    PowerOf2_of_lt (show band n - 1 < 31 by omega), ConsistentHashingForPowersOf2_eq, hbits, show n ≠ 0 by omega,
    show n ≠ 1 by omega, if_false, hk2ne, hpow _ hk15, hpow _ (show band n - 1 ≤ 15 by omega)]
  rw [scheme, if_neg (show ¬ n ≤ 1 by omega)]
  simp only [secondStage, hbits]
  generalize bucketForPowerOf2 a b c (band n) = L at hLlt ⊢
  by_cases hLn : L < n
  · simp [hLn]
  · have hprod : L * (L + 1) < 2 ^ 64 := by
      have : L * (L + 1) ≤ 2 ^ 15 * 2 ^ 15 := Nat.mul_le_mul (by omega) (by omega)
      omega
    have hpos : L * (L + 1) ≠ 0 := Nat.mul_ne_zero (by omega) (by omega)
    have hs : bits.toNat % (L * (L + 1)) / 2 ^ band n + 2 ^ (band n - 1) < 2 ^ 64 := by
      have h₁ : bits.toNat % (L * (L + 1)) / 2 ^ band n ≤ bits.toNat % (L * (L + 1)) := Nat.div_le_self _ _
      have h₂ : bits.toNat % (L * (L + 1)) < L * (L + 1) := Nat.mod_lt _ (Nat.pos_of_ne_zero hpos)
      have h₃ : 2 ^ (band n - 1) ≤ 2 ^ 15 := Nat.pow_le_pow_right (by decide) (by omega)
      have : L * (L + 1) ≤ 2 ^ 15 * 2 ^ 15 := Nat.mul_le_mul (by omega) (by omega)
      omega
    simp only [hLn, if_false, Nat.mod_eq_of_lt hprod, hpos, Nat.mod_eq_of_lt hs]
    split_ifs <;> rfl

theorem ConsistentHashingImpl_eq_scheme (a b c d : UInt16) {n : Nat} (hn : 1 ≤ n) (hn' : n ≤ 2 ^ 15) :
    ConsistentHashingImpl a b c d n = .ok (scheme (bucketForPowerOf2 a b c) (secondStage a b c d) n) := by
  rcases Nat.lt_or_eq_of_le hn with hn | rfl
  · exact ConsistentHashingImpl_eq_scheme_of_two_le a b c d hn hn'
  · simp [ConsistentHashingImpl, scheme, pure, Except.pure]

/-- Up to `2 ^ 15` buckets the bucket is defined and below `n`. -/
theorem ConsistentHashing_lt (x : UInt64) {n : Nat} (hn : 1 ≤ n) (hn' : n ≤ 2 ^ 15) :
    ∃ v, ConsistentHashing x n = .ok v ∧ v < n :=
  ⟨_, ConsistentHashingImpl_eq_scheme _ _ _ _ hn hn', scheme_lt _ (nested_bucketForPowerOf2 _ _ _) hn⟩

theorem ConsistentHashing_lt_seven : 1 ≤ 7 ∧ 7 ≤ 2 ^ 15 ∧ ∃ v, ConsistentHashing 0x0123456789ABCDEF 7 = .ok v ∧ v < 7 :=
  ⟨by decide, by decide, ConsistentHashing_lt 0x0123456789ABCDEF (by decide) (by decide)⟩

/-- Up to `2 ^ 15` buckets, one more bucket keeps a key's bucket or moves it to the new one. -/
theorem ConsistentHashing_succ (x : UInt64) {n : Nat} (hn : 1 ≤ n) (hn' : n + 1 ≤ 2 ^ 15) :
    ∃ v, ConsistentHashing x n = .ok v ∧
      (ConsistentHashing x (n + 1) = .ok v ∨ ConsistentHashing x (n + 1) = .ok n) := by
  refine ⟨_, ConsistentHashingImpl_eq_scheme _ _ _ _ hn (by omega), ?_⟩
  simp only [ConsistentHashing, ConsistentHashingImpl_eq_scheme _ _ _ _ (Nat.le_succ_of_le hn) hn', Except.ok.injEq]
  exact scheme_succ _ (nested_bucketForPowerOf2 _ _ _) hn

theorem ConsistentHashing_succ_seven : 1 ≤ 7 ∧ 7 + 1 ≤ 2 ^ 15 ∧
    ∃ v, ConsistentHashing 0x0123456789ABCDEF 7 = .ok v ∧
      (ConsistentHashing 0x0123456789ABCDEF (7 + 1) = .ok v ∨ ConsistentHashing 0x0123456789ABCDEF (7 + 1) = .ok 7) :=
  ⟨by decide, by decide, ConsistentHashing_succ 0x0123456789ABCDEF (by decide) (by decide)⟩

/-- Past `2 ^ 31` buckets `k = 32`, and `PowerOf2(32)` shifts an `int` by 32. -/
theorem ConsistentHashing_of_gt (x : UInt64) {n : Nat} (hn : 2 ^ 31 < n) (hn' : n < 2 ^ 32) :
    ConsistentHashing x n = .error .shiftOutOfRange := by
  have hlog : Nat.log2 (n - 1) = 31 := (Nat.log2_eq_iff (by omega)).mpr ⟨by omega, by omega⟩
  have hcount : GetValueBitCount (n - 1) = .ok 32 := by
    simp [GetValueBitCount, hlog, show n - 1 ≠ 0 by omega]
  have hpow : PowerOf2 32 = .error .shiftOutOfRange := by decide
  simp [ConsistentHashing, ConsistentHashingImpl, bind, Except.bind, show n ≠ 0 by omega, show n ≠ 1 by omega,
    hcount, hpow]

/-- `n = 32769` passes `checkBucketsRange`, and `k = 16`. For `x = 0x0000FFFF00007FFF` the blocks
    are `a = 0x7FFF`, `b = 0`, `c = 0xFFFF`, `d = 0`: the bucket among `2 ^ 16` is 65535, not below
    `n`, and the second stage divides by `k2 = PowerOf2(16) = 0`. -/
theorem consistent_hash_divides_by_zero :
    checkBucketsRange 32769 = .ok 32769 ∧ ConsistentHashing 0x0000FFFF00007FFF 32769 = .error .divisionByZero :=
  ⟨by decide, by decide⟩

end ClickHouseGpu.Functions.YandexConsistentHash
