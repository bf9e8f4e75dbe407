import ClickHouseGpu.Lib.ChunkedStream
import Mathlib.Data.Nat.Bitwise
import Mathlib.Tactic.Ring

/-
  ClickHouseGpu.IO.VarInt — the variable-length integers of `IO/VarInt.h`, written to a
  byte list and read back from a `ReadBuffer`.

  `writeVarUInt` writes seven bits a byte, lowest first, the high bit set on every byte but
  the last; both it and `readVarUInt` stop after nine bytes, so only 63 bits travel. A signed
  value is written as its zigzag code, `(x << 1) ^ (x >> 63)`.

  A `ReadBuffer` is a `ChunkedStream.Stream`: every statement about a read holds for every cut
  of the bytes into chunks. Bytes are read as `char`, which is signed here, and widened to
  `UInt64` with their sign.

  Proved:
  - `length_writeVarUInt`: the writer writes `getLengthOfVarUInt x` bytes.
  - `readVarUInt_writeVarUInt`: reading back gives `x % 2^63` and leaves the bytes after.
  - `readVarInt_writeVarInt`, `readVarInt_writeVarInt_eq_iff`: a signed value comes back
    exactly when `-2^62 ≤ x < 2^62`; outside, its zigzag code loses the top bit.
-/

namespace ClickHouseGpu.IO

open ChunkedStream

/-! ## Reading a `ReadBuffer` -/

/-- `ReadBuffer`: the bytes of the working buffer and the chunks `nextImpl` will give. -/
abbrev ReadBuffer := ChunkedStream.Stream

/-- A read from a `ReadBuffer` that may throw. -/
abbrev ReadM := StateT ReadBuffer (Except String)

/-- `if (istr.eof()) throwReadAfterEOF();` then `*istr.position()` and `++istr.position()`. -/
def readChar : ReadM UInt8 := fun s =>
  match s.readByte with
  | none => throw "Attempt to read after eof"
  | some (c, s) => pure (c, s)

/-- `readStrict(to, n)`: `n` bytes, or "Cannot read all data". -/
def readStrict (n : Nat) : ReadM (List UInt8) := fun s =>
  let (bs, s) := s.read n
  if bs.length = n then pure (bs, s) else throw "Cannot read all data"

theorem readChar_of_cons {s : ReadBuffer} {c : UInt8} {l : List UInt8} (h : s.bytes = c :: l) :
    ∃ s', readChar s = .ok (c, s') ∧ s'.bytes = l := by
  obtain ⟨s', hs', hl⟩ := Stream.readByte_of_cons h
  exact ⟨s', by simp only [readChar, hs']; rfl, hl⟩

theorem readStrict_of_append {s : ReadBuffer} {bs l : List UInt8} (h : s.bytes = bs ++ l) :
    ∃ s', readStrict bs.length s = .ok (bs, s') ∧ s'.bytes = l := by
  obtain ⟨h1, h2⟩ := Stream.read_eq bs.length s
  rw [h, List.take_left] at h1
  rw [h, List.drop_left] at h2
  refine ⟨(s.read bs.length).2, ?_, h2⟩
  simp only [readStrict, h1, if_true]
  rfl

/-- A read that returns, followed by another: the second starts where the first stopped. -/
theorem bind_of_ok {α β : Type} {m : ReadM α} {f : α → ReadM β} {s s' : ReadBuffer} {a : α}
    (h : m s = .ok (a, s')) : (m >>= f) s = f a s' := by
  show (do let (a, s) ← m s; f a s) = f a s'
  rw [h]
  rfl

/-! ## VarUInt -/

/-- `UInt64 byte = *istr.position()`: the `char` widened with its sign. -/
def charToUInt64 (c : UInt8) : UInt64 := c.toInt8.toInt64.toUInt64

/-- The loop of `readVarUInt(x, istr)` from byte `i` on, with `n` of its nine rounds left. -/
def readVarUIntFrom : Nat → Nat → UInt64 → ReadM UInt64
  | 0, _, x => pure x
  | n + 1, i, x => do
    let byte := charToUInt64 (← readChar)
    let x := x ||| ((byte &&& 0x7F) <<< (7 * i).toUInt64)
    if byte &&& 0x80 = 0 then pure x else readVarUIntFrom n (i + 1) x

def readVarUInt : ReadM UInt64 := readVarUIntFrom 9 0 0

/-- The loop of `writeVarUInt(x, ostr)` with `n` of its nine rounds left. -/
def writeVarUIntFrom : Nat → UInt64 → List UInt8
  | 0, _ => []
  | n + 1, x =>
    let byte : UInt8 := (x &&& 0x7F).toUInt8 ||| (if x > 0x7F then 0x80 else 0)
    let x := x >>> 7
    byte :: (if x = 0 then [] else writeVarUIntFrom n x)

def writeVarUInt (x : UInt64) : List UInt8 := writeVarUIntFrom 9 x

def getLengthOfVarUInt (x : UInt64) : Nat :=
  if x < (1 : UInt64) <<< 7 then 1
  else if x < (1 : UInt64) <<< 14 then 2
  else if x < (1 : UInt64) <<< 21 then 3
  else if x < (1 : UInt64) <<< 28 then 4
  else if x < (1 : UInt64) <<< 35 then 5
  else if x < (1 : UInt64) <<< 42 then 6
  else if x < (1 : UInt64) <<< 49 then 7
  else if x < (1 : UInt64) <<< 56 then 8
  else 9

/-! ## VarInt -/

/-- The code `writeVarInt` writes for `x`: `static_cast<UInt64>((x << 1) ^ (x >> 63))`. -/
def zigzag (x : Int64) : UInt64 := ((x <<< 1) ^^^ (x >>> 63)).toUInt64

/-- What `readVarInt` makes of the code `u`: `(static_cast<UInt64>(x) >> 1) ^ -(x & 1)`, the
    negation taken on the `UInt64`. -/
def unzigzag (u : UInt64) : Int64 := ((u >>> 1) ^^^ (0 - (u &&& 1))).toInt64

def writeVarInt (x : Int64) : List UInt8 := writeVarUInt (zigzag x)

def readVarInt : ReadM Int64 := do
  let u ← readVarUInt
  pure (unzigzag u)

def getLengthOfVarInt (x : Int64) : Nat := getLengthOfVarUInt (zigzag x)


/-! ## The bytes of a VarUInt -/

theorem toNat_charToUInt64 (c : UInt8) :
    (charToUInt64 c).toNat = c.toNat + if 128 ≤ c.toNat then 2 ^ 64 - 2 ^ 8 else 0 := by
  have h : (charToUInt64 c).toNat = (c.toBitVec.signExtend 64).toNat := rfl
  rw [h, BitVec.toNat_signExtend, BitVec.toNat_setWidth, BitVec.msb_eq_decide]
  have hc : c.toBitVec.toNat = c.toNat := rfl
  have hlt := c.toNat_lt
  simp only [hc, Nat.mod_eq_of_lt (show c.toNat < 2 ^ 64 by omega)]
  by_cases h128 : 128 ≤ c.toNat <;> simp [h128]

/-- The low seven bits of the widened `char` are those of the byte. -/
theorem toNat_charToUInt64_and_0x7F (c : UInt8) : (charToUInt64 c &&& 0x7F).toNat = c.toNat % 128 := by
  have h7F : (0x7F : UInt64).toNat = 2 ^ 7 - 1 := rfl
  rw [UInt64.toNat_and, h7F, Nat.and_two_pow_sub_one_eq_mod, toNat_charToUInt64]
  split <;> omega

/-- Bit 7 of a number. -/
theorem and_0x80 (X : Nat) : X &&& 128 = X / 128 % 2 * 128 := by
  have h := Nat.and_two_pow X 7
  rw [Nat.testBit_eq_decide_div_mod_eq] at h
  simp only [Nat.reducePow] at h
  rw [h]
  rcases Nat.mod_two_eq_zero_or_one (X / 128) with h2 | h2 <;> simp [h2]

/-- The continuation bit of the widened `char` is the byte's high bit. -/
theorem charToUInt64_and_0x80_eq_zero (c : UInt8) : charToUInt64 c &&& 0x80 = 0 ↔ c.toNat < 128 := by
  have h80 : (0x80 : UInt64).toNat = 128 := rfl
  rw [← UInt64.toNat_inj, UInt64.toNat_and, h80, and_0x80, toNat_charToUInt64, UInt64.toNat_zero]
  simp only [Nat.reducePow, Nat.reduceSub]
  have := c.toNat_lt
  split <;> omega

/-- The byte `writeVarUInt` writes for `x`: its low seven bits, and the high bit when more follow. -/
theorem toNat_writeByte (x : UInt64) :
    ((x &&& 0x7F).toUInt8 ||| (if x > 0x7F then 0x80 else 0)).toNat =
      x.toNat % 128 + if 127 < x.toNat then 128 else 0 := by
  have h7F : (0x7F : UInt64).toNat = 2 ^ 7 - 1 := rfl
  have hlow : ((x &&& 0x7F).toUInt8).toNat = x.toNat % 128 := by
    rw [UInt64.toNat_toUInt8, UInt64.toNat_and, h7F, Nat.and_two_pow_sub_one_eq_mod]
    omega
  have hgt : (x > 0x7F) ↔ 127 < x.toNat := UInt64.lt_iff_toNat_lt
  by_cases h : 127 < x.toNat
  · rw [if_pos (hgt.mpr h), if_pos h, UInt8.toNat_or, hlow]
    have h80 : (0x80 : UInt8).toNat = 2 ^ 7 * 1 := rfl
    rw [h80, Nat.or_comm, ← Nat.two_pow_add_eq_or_of_lt (Nat.mod_lt _ (by decide))]
    omega
  · rw [if_neg (fun e => h (hgt.mp e)), if_neg h, UInt8.or_zero, hlow]
    omega


theorem toNat_or_shiftLeft {x : UInt64} {i : Nat} (c : UInt8) (hi : i ≤ 8) (hx : x.toNat < 2 ^ (7 * i)) :
    (x ||| ((charToUInt64 c &&& 0x7F) <<< (7 * i).toUInt64)).toNat = x.toNat + c.toNat % 128 * 2 ^ (7 * i) := by
  have hpow : 2 ^ (7 * i) ≤ 2 ^ 56 := Nat.pow_le_pow_right (by decide) (by omega)
  have hlow : c.toNat % 128 * 2 ^ (7 * i) < 2 ^ 64 := by
    have := Nat.mul_le_mul_right (2 ^ (7 * i)) (show c.toNat % 128 ≤ 127 by omega)
    omega
  have hsh : ((7 * i).toUInt64).toNat % 64 = 7 * i := by
    rw [Nat.toUInt64_eq, UInt64.toNat_ofNat']
    omega
  rw [UInt64.toNat_or, UInt64.toNat_shiftLeft, toNat_charToUInt64_and_0x7F, hsh, Nat.shiftLeft_eq,
    Nat.mod_eq_of_lt hlow, Nat.or_comm, Nat.mul_comm, ← Nat.two_pow_add_eq_or_of_lt hx]
  omega

/-- One round of the reader's loop on a stream whose next byte is `c`: it ends after `c` when
    the high bit of `c` is clear. -/
theorem readVarUIntFrom_succ {s : ReadBuffer} {c : UInt8} {l : List UInt8} (h : s.bytes = c :: l) (n i : Nat)
    (x : UInt64) : ∃ s', s'.bytes = l ∧ readVarUIntFrom (n + 1) i x s =
      if c.toNat < 128 then .ok (x ||| ((charToUInt64 c &&& 0x7F) <<< (7 * i).toUInt64), s')
      else readVarUIntFrom n (i + 1) (x ||| ((charToUInt64 c &&& 0x7F) <<< (7 * i).toUInt64)) s' := by
  obtain ⟨s', hs', hl⟩ := readChar_of_cons h
  refine ⟨s', hl, ?_⟩
  simp only [readVarUIntFrom]
  rw [bind_of_ok hs']
  by_cases hc : c.toNat < 128
  · rw [if_pos ((charToUInt64_and_0x80_eq_zero c).mpr hc), if_pos hc]
    rfl
  · rw [if_neg (fun e => hc ((charToUInt64_and_0x80_eq_zero c).mp e)), if_neg hc]

theorem toNat_shiftRight_seven (y : UInt64) : (y >>> 7).toNat = y.toNat / 128 := by
  rw [UInt64.toNat_shiftRight]
  simp [Nat.shiftRight_eq_div_pow]

/-- One round of the writer, on `Nat` values. -/
theorem writeVarUIntFrom_succ (n : Nat) (y : UInt64) :
    writeVarUIntFrom (n + 1) y = UInt8.ofNat (y.toNat % 128 + if 127 < y.toNat then 128 else 0) ::
      (if y.toNat < 128 then [] else writeVarUIntFrom n (y >>> 7)) := by
  have hbyte : ((y &&& 0x7F).toUInt8 ||| (if y > 0x7F then 0x80 else 0)) =
      UInt8.ofNat (y.toNat % 128 + if 127 < y.toNat then 128 else 0) := by
    apply UInt8.toNat_inj.mp
    rw [toNat_writeByte, UInt8.toNat_ofNat']
    split <;> omega
  have hz : (y >>> 7 = 0) ↔ y.toNat < 128 := by
    rw [← UInt64.toNat_inj, toNat_shiftRight_seven, UInt64.toNat_zero]
    omega
  simp only [writeVarUIntFrom, hbyte]
  by_cases h : y.toNat < 128
  · rw [if_pos (hz.mpr h), if_pos h]
  · rw [if_neg (fun e => h (hz.mp e)), if_neg h]

/-- The last round of the writer writes one byte, whatever is left of `y`. -/
theorem writeVarUIntFrom_one (y : UInt64) :
    writeVarUIntFrom 1 y = [UInt8.ofNat (y.toNat % 128 + if 127 < y.toNat then 128 else 0)] := by
  rw [writeVarUIntFrom_succ]
  have hnil : (if y.toNat < 128 then [] else writeVarUIntFrom 0 (y >>> 7)) = [] := by
    split <;> rfl
  rw [hnil]

/-- The byte written for `y`, read back: its low seven bits are `y`'s, and its high bit is
    clear exactly when `y` fits in seven bits. -/
theorem writtenByte (y : UInt64) :
    (UInt8.ofNat (y.toNat % 128 + if 127 < y.toNat then 128 else 0)).toNat % 128 = y.toNat % 128 ∧
      ((UInt8.ofNat (y.toNat % 128 + if 127 < y.toNat then 128 else 0)).toNat < 128 ↔ y.toNat < 128) := by
  rw [UInt8.toNat_ofNat']
  split <;> omega

theorem readVarUIntFrom_writeVarUIntFrom (l : List UInt8) (n : Nat) :
    ∀ (i : Nat) (x y : UInt64) (s : ReadBuffer), i + n + 1 ≤ 9 → x.toNat < 2 ^ (7 * i) →
      s.bytes = writeVarUIntFrom (n + 1) y ++ l →
      ∃ v s', readVarUIntFrom (n + 1) i x s = .ok (v, s') ∧
        v.toNat = x.toNat + y.toNat % 2 ^ (7 * (n + 1)) * 2 ^ (7 * i) ∧ s'.bytes = l := by
  -- induction on the rounds left; each round reads the byte the writer's round wrote
  induction n with
  | zero =>
    intro i x y s hi hx hs
    have hs' : s.bytes = UInt8.ofNat (y.toNat % 128 + if 127 < y.toNat then 128 else 0) :: l := by
      rw [hs, writeVarUIntFrom_one]
      rfl
    obtain ⟨hlow, -⟩ := writtenByte y
    generalize UInt8.ofNat (y.toNat % 128 + if 127 < y.toNat then 128 else 0) = c at hs' hlow
    obtain ⟨s', hl, hread⟩ := readVarUIntFrom_succ hs' 0 i x
    refine ⟨x ||| ((charToUInt64 c &&& 0x7F) <<< (7 * i).toUInt64), s', ?_, ?_, hl⟩
    · rw [hread]
      split <;> rfl
    · rw [toNat_or_shiftLeft _ (by omega) hx, hlow]
      rfl
  | succ n ih =>
    intro i x y s hi hx hs
    rw [writeVarUIntFrom_succ, List.cons_append] at hs
    obtain ⟨hlow, hcont⟩ := writtenByte y
    generalize UInt8.ofNat (y.toNat % 128 + if 127 < y.toNat then 128 else 0) = c at hs hlow hcont
    obtain ⟨s', hl, hread⟩ := readVarUIntFrom_succ hs (n + 1) i x
    have hacc := toNat_or_shiftLeft (x := x) c (by omega) hx
    rw [hlow] at hacc
    have hP : 2 ^ (7 * (i + 1)) = 2 ^ (7 * i) * 128 := by
      rw [Nat.mul_add, Nat.pow_add]
    have hQ : 2 ^ (7 * (n + 1 + 1)) = 128 * 2 ^ (7 * (n + 1)) := by
      rw [Nat.mul_add, Nat.pow_add, Nat.mul_comm]
    by_cases hy : y.toNat < 128
    · -- the last byte: the value is `y` itself
      rw [if_pos hy, List.nil_append] at hl
      refine ⟨x ||| ((charToUInt64 c &&& 0x7F) <<< (7 * i).toUInt64), s', ?_, ?_, hl⟩
      · rw [hread, if_pos (hcont.mpr hy)]
      · have hlt : y.toNat < 2 ^ (7 * (n + 1 + 1)) := by
          have : 2 ^ 7 ≤ 2 ^ (7 * (n + 1)) := Nat.pow_le_pow_right (by decide) (by omega)
          omega
        rw [hacc, Nat.mod_eq_of_lt hlt, Nat.mod_eq_of_lt hy]
    · -- more bytes follow: the rest of the value is read from `y >>> 7`
      rw [if_neg hy] at hl
      have hx' : x.toNat + y.toNat % 128 * 2 ^ (7 * i) < 2 ^ (7 * (i + 1)) := by
        have := Nat.mul_le_mul_right (2 ^ (7 * i)) (show y.toNat % 128 ≤ 127 by omega)
        omega
      obtain ⟨v, s'', h1, h2, h3⟩ := ih (i + 1) _ (y >>> 7) s' (by omega) (by rw [hacc]; exact hx') hl
      refine ⟨v, s'', ?_, ?_, h3⟩
      · rw [hread, if_neg (fun e => hy (hcont.mp e))]
        exact h1
      · rw [h2, hacc, toNat_shiftRight_seven, hP, hQ, Nat.mod_mul]
        ring

/-! ## A VarUInt read back -/

theorem readVarUInt_writeVarUInt (x : UInt64) {s : ReadBuffer} {l : List UInt8} (h : s.bytes = writeVarUInt x ++ l) :
    ∃ v s', readVarUInt s = .ok (v, s') ∧ v.toNat = x.toNat % 2 ^ 63 ∧ s'.bytes = l := by
  obtain ⟨v, s', h1, h2, h3⟩ := readVarUIntFrom_writeVarUIntFrom l 8 0 0 x s (by omega) (by decide) h
  exact ⟨v, s', h1, by simpa using h2, h3⟩

/-- The writer writes one byte for each seven bits of `y`, at most `n + 1`. -/
theorem length_writeVarUIntFrom (n : Nat) : ∀ (y : UInt64) (j : Nat), 1 ≤ j → j ≤ n + 1 →
    (j = 1 ∨ 2 ^ (7 * (j - 1)) ≤ y.toNat) → (j ≤ n → y.toNat < 2 ^ (7 * j)) →
    (writeVarUIntFrom (n + 1) y).length = j := by
  have hpow : ∀ m, 2 ^ (7 * (m + 1)) = 2 ^ (7 * m) * 128 := fun m => by rw [Nat.mul_add, Nat.pow_add]
  induction n with
  | zero =>
    intro y j h1 h2 _ _
    obtain rfl : j = 1 := by omega
    rw [writeVarUIntFrom_one]
    rfl
  | succ n ih =>
    intro y j h1 h2 hlo hhi
    rw [writeVarUIntFrom_succ]
    by_cases hy : y.toNat < 128
    · rw [if_pos hy, List.length_singleton]
      by_contra hj
      rcases hlo with hlo | hlo
      · exact hj hlo.symm
      · -- a second byte would need `y ≥ 2^7`
        have : 2 ^ 7 ≤ 2 ^ (7 * (j - 1)) := Nat.pow_le_pow_right (by decide) (by omega)
        omega
    · rw [if_neg hy, List.length_cons]
      have hj : j ≠ 1 := fun e => by
        subst e
        have := hhi (by omega)
        simp at this
        omega
      obtain ⟨k, rfl⟩ : ∃ k, j = k + 2 := ⟨j - 2, by omega⟩
      have := ih (y >>> 7) (k + 1) (by omega) (by omega) ?_ ?_
      · omega
      · rcases hlo with hj | hlo
        · omega
        · right
          rw [toNat_shiftRight_seven, Nat.le_div_iff_mul_le (by decide)]
          rw [show k + 2 - 1 = k + 1 by omega, hpow] at hlo
          simpa using hlo
      · intro hk
        rw [toNat_shiftRight_seven, Nat.div_lt_iff_lt_mul (by decide), ← hpow]
        exact hhi (by omega)

theorem length_writeVarUInt (x : UInt64) : (writeVarUInt x).length = getLengthOfVarUInt x := by
  have hlt : ∀ k : UInt64, k < 64 → (x < (1 : UInt64) <<< k ↔ x.toNat < 2 ^ k.toNat) := by
    intro k hk
    have hk' : k.toNat < 64 := hk
    rw [UInt64.lt_iff_toNat_lt, UInt64.toNat_shiftLeft, UInt64.toNat_one, Nat.one_shiftLeft,
      Nat.mod_eq_of_lt hk', Nat.mod_eq_of_lt (Nat.pow_lt_pow_right (by decide) hk')]
  unfold getLengthOfVarUInt
  simp only [hlt 7 (by decide), hlt 14 (by decide), hlt 21 (by decide), hlt 28 (by decide), hlt 35 (by decide),
    hlt 42 (by decide), hlt 49 (by decide), hlt 56 (by decide), UInt64.reduceToNat]
  split_ifs <;> exact length_writeVarUIntFrom 8 x _ (by omega) (by omega) (by omega) (by omega)

/-! ## Zigzag codes -/

theorem toNat_toUInt64_shiftLeft_one (x : Int64) : (x <<< 1).toUInt64.toNat = 2 * x.toUInt64.toNat % 2 ^ 64 := by
  have h : (x <<< 1).toUInt64.toNat = (x.toBitVec <<< (1 : BitVec 64).smod 64).toNat := rfl
  have h1 : ((1 : BitVec 64).smod 64).toNat = 1 := by decide
  rw [h, BitVec.shiftLeft_eq', BitVec.toNat_shiftLeft, h1, Nat.shiftLeft_eq, Nat.pow_one, Nat.mul_comm]
  rfl

theorem toBitVec_shiftRight_63 (x : Int64) :
    (x >>> 63).toBitVec = if 2 ^ 63 ≤ x.toUInt64.toNat then BitVec.allOnes 64 else 0 := by
  apply BitVec.eq_of_toNat_eq
  have h63 : ((63 : Int64).toBitVec.smod 64).toNat = 63 := by decide
  have hX : x.toBitVec.toNat = x.toUInt64.toNat := rfl
  have hlt := x.toUInt64.toNat_lt
  rw [Int64.toBitVec_shiftRight, BitVec.toNat_sshiftRight', h63, BitVec.msb_eq_decide, hX]
  simp only [Nat.shiftRight_eq_div_pow]
  by_cases h : 2 ^ 63 ≤ x.toUInt64.toNat
  · simp only [show 2 ^ (64 - 1) ≤ x.toUInt64.toNat from h, decide_true, if_true, BitVec.toNat_allOnes]
    have : (2 ^ 64 - 1 - x.toUInt64.toNat) / 2 ^ 63 = 0 := Nat.div_eq_of_lt (by omega)
    omega
  · simp only [show ¬ 2 ^ (64 - 1) ≤ x.toUInt64.toNat from h, decide_false, if_false, Bool.false_eq_true]
    exact Nat.div_eq_of_lt (by omega)

/-- The zigzag code of `x`, from the bits of `x`: `2 x` for `x ≥ 0`, `-2 x - 1` below. -/
theorem toNat_zigzag (x : Int64) : (zigzag x).toNat =
    if x.toUInt64.toNat < 2 ^ 63 then 2 * x.toUInt64.toNat else 2 ^ 65 - 1 - 2 * x.toUInt64.toNat := by
  have hlt := x.toUInt64.toNat_lt
  have h : (zigzag x).toNat = ((x <<< 1).toBitVec ^^^ (x >>> 63).toBitVec).toNat := rfl
  rw [h, toBitVec_shiftRight_63]
  have hsh : (x <<< 1).toBitVec.toNat = 2 * x.toUInt64.toNat % 2 ^ 64 := toNat_toUInt64_shiftLeft_one x
  by_cases hx : x.toUInt64.toNat < 2 ^ 63
  · rw [if_neg (by omega), if_pos hx, BitVec.toNat_xor, hsh]
    simp only [BitVec.ofNat_eq_ofNat, BitVec.toNat_ofNat, Nat.zero_mod, Nat.xor_zero]
    omega
  · rw [if_pos (by omega), if_neg hx, BitVec.xor_allOnes, BitVec.toNat_not, hsh]
    omega

theorem toBitVec_neg_and_one (u : UInt64) :
    (0 - (u &&& 1)).toBitVec = if u.toNat % 2 = 0 then 0 else BitVec.allOnes 64 := by
  apply BitVec.eq_of_toNat_eq
  have hand : (u &&& 1).toNat = u.toNat % 2 := by
    rw [UInt64.toNat_and, show (1 : UInt64).toNat = 1 from rfl, Nat.and_one_is_mod]
  have h : (0 - (u &&& 1)).toBitVec.toNat = (0 - (u &&& 1)).toNat := rfl
  rw [h, UInt64.toNat_sub, hand, UInt64.toNat_zero]
  rcases Nat.mod_two_eq_zero_or_one u.toNat with h2 | h2
  · rw [if_pos h2, h2]
    simp
  · rw [if_neg (by omega), h2, BitVec.toNat_allOnes]

/-- What `readVarInt` makes of a code `u`: `u / 2` when `u` is even, `-(u / 2) - 1` when odd. -/
theorem toInt_unzigzag (u : UInt64) : (unzigzag u).toInt =
    if u.toNat % 2 = 0 then ((u.toNat / 2 : Nat) : Int) else -((u.toNat / 2 : Nat) : Int) - 1 := by
  have h : (unzigzag u).toInt = ((u >>> 1).toBitVec ^^^ (0 - (u &&& 1)).toBitVec).toInt := rfl
  have hsh : (u >>> 1).toBitVec.toNat = u.toNat / 2 := by
    have : (u >>> 1).toBitVec.toNat = (u >>> 1).toNat := rfl
    rw [this, UInt64.toNat_shiftRight]
    simp [Nat.shiftRight_eq_div_pow]
  have hlt := u.toNat_lt
  rw [h, toBitVec_neg_and_one, BitVec.toInt_eq_toNat_cond]
  by_cases h2 : u.toNat % 2 = 0
  · rw [if_pos h2, if_pos h2, BitVec.toNat_xor, hsh]
    simp only [BitVec.ofNat_eq_ofNat, BitVec.toNat_ofNat, Nat.zero_mod, Nat.xor_zero]
    rw [if_pos (by omega)]
  · rw [if_neg h2, if_neg h2, BitVec.xor_allOnes, BitVec.toNat_not, hsh]
    rw [if_neg (by omega)]
    omega


/-! ## A VarInt read back -/

theorem toInt_eq_toUInt64 (x : Int64) :
    x.toInt = if x.toUInt64.toNat < 2 ^ 63 then (x.toUInt64.toNat : Int) else (x.toUInt64.toNat : Int) - 2 ^ 64 := by
  have h : x.toInt = x.toBitVec.toInt := rfl
  have hX : x.toBitVec.toNat = x.toUInt64.toNat := rfl
  rw [h, BitVec.toInt_eq_toNat_cond, hX]
  split_ifs <;> omega

/-- What comes back for `x`: its zigzag code loses bit 63, which moves an `x` with
    `|x| ≥ 2^62` by `2^62` towards zero. -/
theorem readVarInt_writeVarInt (x : Int64) {s : ReadBuffer} {l : List UInt8} (h : s.bytes = writeVarInt x ++ l) :
    ∃ v s', readVarInt s = .ok (v, s') ∧ s'.bytes = l ∧
      v.toInt = if x.toInt < -2 ^ 62 then x.toInt + 2 ^ 62 else if x.toInt < 2 ^ 62 then x.toInt else x.toInt - 2 ^ 62 := by
  obtain ⟨u, s', h1, h2, h3⟩ := readVarUInt_writeVarUInt (zigzag x) h
  refine ⟨unzigzag u, s', ?_, h3, ?_⟩
  · unfold readVarInt
    rw [bind_of_ok h1]
    rfl
  · have hlt := x.toUInt64.toNat_lt
    rw [toInt_unzigzag, h2, toNat_zigzag, toInt_eq_toUInt64]
    split_ifs <;> omega

/-- A signed value comes back from its VarInt exactly when `-2^62 ≤ x < 2^62`. -/
theorem readVarInt_writeVarInt_eq_iff (x : Int64) {s : ReadBuffer} {l : List UInt8} (h : s.bytes = writeVarInt x ++ l) :
    (∃ s', readVarInt s = .ok (x, s')) ↔ -2 ^ 62 ≤ x.toInt ∧ x.toInt < 2 ^ 62 := by
  obtain ⟨v, s', h1, -, hv⟩ := readVarInt_writeVarInt x h
  rw [h1]
  constructor
  · rintro ⟨s'', he⟩
    cases he
    split_ifs at hv <;> omega
  · rintro ⟨hlo, hhi⟩
    rw [if_neg (by omega), if_pos hhi, Int64.toInt_inj] at hv
    exact ⟨s', by rw [hv]⟩


/-- `2^62`, written as nine bytes `0x80` and read from two chunks, comes back as 0. -/
theorem readVarInt_loses_two_pow_62 :
    ¬ ∃ s', readVarInt ⟨[], [[128, 128, 128, 128], [128, 128, 128, 128, 128]], by decide⟩ =
      .ok (4611686018427387904, s') :=
  fun h => absurd ((readVarInt_writeVarInt_eq_iff 4611686018427387904 (l := []) (by decide)).mp h) (by decide)

end ClickHouseGpu.IO
