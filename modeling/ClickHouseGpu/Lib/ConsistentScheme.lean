import Mathlib

/-
  ConsistentScheme — choosing one of `n` buckets by bands of powers of two.

  For `2 ^ (k - 1) < n ≤ 2 ^ k`, `scheme P S n` takes `P k`, a key's bucket among `2 ^ k`, when it
  is below `n`; otherwise a second value `S k (P k) / 2 ^ k + 2 ^ (k - 1)`, when it is below `n`;
  otherwise `P (k - 1)`, its bucket among `2 ^ (k - 1)`. Nothing is asked of `S`.

  `Nested P` says that `P k < 2 ^ k`, and that a bucket among `2 ^ (k + 1)` that is below
  `2 ^ k` is the bucket among `2 ^ k`.

  Proved, for nested `P` and every `S`:
  - `scheme_lt`: the bucket is below `n`.
  - `scheme_succ`: with one more bucket, a key keeps its bucket or moves to the new one, inside a
    band (the first two choices do not depend on `n`) and across one, from `n = 2 ^ j` to
    `2 ^ j + 1` (there the old bucket is `P j`, and a bucket of `P (j + 1)` below `2 ^ j` is it).
-/

namespace ConsistentScheme

/-- `k` with `2 ^ (k - 1) < n ≤ 2 ^ k`, for `n ≥ 2`. -/
def band (n : Nat) : Nat := Nat.log2 (n - 1) + 1

/-- The bucket of a key among `n`, from its buckets `P k` among powers of two. -/
def scheme (P : Nat → Nat) (S : Nat → Nat → Nat) (n : Nat) : Nat :=
  if n ≤ 1 then 0
  else if P (band n) < n then P (band n)
  else if S (band n) (P (band n)) / 2 ^ band n + 2 ^ (band n - 1) < n then
    S (band n) (P (band n)) / 2 ^ band n + 2 ^ (band n - 1)
  else P (band n - 1)

/-- The buckets among powers of two: below the power, and nested. -/
structure Nested (P : Nat → Nat) : Prop where
  lt : ∀ k, P k < 2 ^ k
  succ : ∀ k, P (k + 1) < 2 ^ k → P (k + 1) = P k

theorem band_spec {n : Nat} (hn : 2 ≤ n) : 2 ^ (band n - 1) < n ∧ n ≤ 2 ^ band n := by
  have hne : n - 1 ≠ 0 := by omega
  have hle := Nat.log2_self_le hne
  have hlt : n - 1 < 2 ^ (Nat.log2 (n - 1) + 1) := Nat.lt_log2_self
  simp only [band, Nat.add_sub_cancel]
  omega

theorem band_pow {j : Nat} (hj : 1 ≤ j) : band (2 ^ j) = j := by
  have hpos : 2 ^ (j - 1) ≤ 2 ^ j - 1 := by
    have : 2 ^ j = 2 * 2 ^ (j - 1) := by rw [← Nat.pow_succ']; congr 1; omega
    have : 1 ≤ 2 ^ (j - 1) := Nat.one_le_two_pow
    omega
  have hlog : Nat.log2 (2 ^ j - 1) = j - 1 := by
    rw [Nat.log2_eq_iff (by have := Nat.one_le_two_pow (n := j - 1); omega)]
    refine ⟨hpos, ?_⟩
    rw [show j - 1 + 1 = j by omega]
    have := Nat.one_le_two_pow (n := j)
    omega
  rw [band, hlog]
  omega

theorem band_pow_succ (j : Nat) : band (2 ^ j + 1) = j + 1 := by
  simp [band, Nat.log2_two_pow]

/-- One more bucket stays in the band of `n`, unless `n` is a power of two. -/
theorem band_succ {n : Nat} (hn : 2 ≤ n) : band (n + 1) = band n ∨ ∃ j, 1 ≤ j ∧ n = 2 ^ j := by
  have hlo : 2 ^ Nat.log2 n ≤ n := Nat.log2_self_le (by omega)
  have hhi : n < 2 ^ (Nat.log2 n + 1) := Nat.lt_log2_self
  rcases Nat.lt_or_eq_of_le hlo with hlt | heq
  · -- `2 ^ log2 n < n`, so `n - 1` has the same logarithm
    left
    have : Nat.log2 (n - 1) = Nat.log2 n := by
      rw [Nat.log2_eq_iff (by omega)]
      omega
    simp only [band, Nat.add_sub_cancel, this]
  · right
    refine ⟨Nat.log2 n, ?_, heq.symm⟩
    rcases Nat.eq_zero_or_pos (Nat.log2 n) with h | h
    · rw [h] at heq
      omega
    · exact h

variable {P : Nat → Nat} (S : Nat → Nat → Nat)

/-- Inside a band the first two choices do not depend on `n`: one more bucket keeps the bucket,
    or takes the new one. -/
theorem scheme_succ_of_band {n : Nat} (hn : 2 ≤ n) (hband : band (n + 1) = band n) :
    scheme P S (n + 1) = scheme P S n ∨ scheme P S (n + 1) = n := by
  have h₁ : ¬ n + 1 ≤ 1 := by omega
  have h₂ : ¬ n ≤ 1 := by omega
  simp only [scheme, h₁, h₂, if_false, hband]
  generalize P (band n) = large
  generalize S (band n) large / 2 ^ band n + 2 ^ (band n - 1) = large₂
  by_cases hl : large < n
  · simp [hl, Nat.lt_succ_of_lt hl]
  · by_cases hl' : large < n + 1
    · exact .inr (by simp only [hl', if_true]; omega)
    · simp only [hl, hl', if_false]
      by_cases hs : large₂ < n
      · simp [hs, Nat.lt_succ_of_lt hs]
      · by_cases hs' : large₂ < n + 1
        · exact .inr (by simp only [hs', if_true]; omega)
        · simp [hs, hs']

variable (hP : Nested P)
include hP

/-- The bucket is below `n`. -/
theorem scheme_lt {n : Nat} (hn : 1 ≤ n) : scheme P S n < n := by
  unfold scheme
  split
  · omega
  · have hband := band_spec (n := n) (by omega)
    split
    · assumption
    · split
      · assumption
      · exact Nat.lt_of_lt_of_le (hP.lt _) (Nat.le_of_lt hband.1)

/-- From `2 ^ j` buckets to `2 ^ j + 1`: the old bucket is `P j`, and the new band keeps it or
    takes the new bucket. -/
theorem scheme_succ_pow {j : Nat} (hj : 1 ≤ j) :
    scheme P S (2 ^ j + 1) = scheme P S (2 ^ j) ∨ scheme P S (2 ^ j + 1) = 2 ^ j := by
  have hpow : 2 ≤ 2 ^ j := by
    calc 2 = 2 ^ 1 := rfl
      _ ≤ 2 ^ j := Nat.pow_le_pow_right (by decide) hj
  have hold : scheme P S (2 ^ j) = P j := by
    rw [scheme, if_neg (by omega), band_pow hj, if_pos (hP.lt j)]
  rw [hold, scheme, if_neg (by omega), band_pow_succ, Nat.add_sub_cancel]
  by_cases hl : P (j + 1) < 2 ^ j
  · -- below `2 ^ j` the bucket among `2 ^ (j + 1)` is the one among `2 ^ j`
    rw [if_pos (Nat.lt_succ_of_lt hl)]
    exact .inl (hP.succ j hl)
  · by_cases hl' : P (j + 1) < 2 ^ j + 1
    · rw [if_pos hl']
      exact .inr (by omega)
    · rw [if_neg hl']
      split
      · exact .inr (by have := Nat.le_add_left (2 ^ j) (S (j + 1) (P (j + 1)) / 2 ^ (j + 1)); omega)
      · exact .inl rfl

/-- With one more bucket, a key keeps its bucket or moves to the new one. -/
theorem scheme_succ {n : Nat} (hn : 1 ≤ n) : scheme P S (n + 1) = scheme P S n ∨ scheme P S (n + 1) = n := by
  rcases Nat.lt_or_eq_of_le hn with hn | rfl
  · rcases band_succ (n := n) hn with hband | ⟨j, hj, rfl⟩
    · exact scheme_succ_of_band S hn hband
    · exact scheme_succ_pow S hP hj
  · -- from one bucket to two: the bucket among two is below two
    have hone : scheme P S 1 = 0 := by simp [scheme]
    have htwo : scheme P S 2 = P 1 := by
      have : band 2 = 1 := by decide
      have hlt : P 1 < 2 := by simpa using hP.lt 1
      rw [scheme, if_neg (by decide), this]
      simp [hlt]
    have := hP.lt 1
    rw [hone, htwo]
    omega

end ConsistentScheme
