import Mathlib

/-
  EvenSplit — `n` items cut into `T` parts as a parallel loop shares out its work: part `i`
  is the items `[i * n / T, (i + 1) * n / T)`.

  The starts grow with `i` (`splitStart_mono`), part 0 starts at 0 and part `T` at `n`, so every
  item below `n` lies in a part below `T` (`exists_part`), and in one part only
  (`part_unique`).
-/

namespace EvenSplit

/-- Where part `i` of `n` items cut into `T` parts starts. -/
def splitStart (n T i : Nat) : Nat := i * n / T

theorem splitStart_mono (n T : Nat) {i j : Nat} (h : i ≤ j) : splitStart n T i ≤ splitStart n T j :=
  Nat.div_le_div_right (Nat.mul_le_mul_right n h)

@[simp] theorem splitStart_zero (n T : Nat) : splitStart n T 0 = 0 := by
  simp [splitStart]

theorem splitStart_self (n : Nat) {T : Nat} (hT : 0 < T) : splitStart n T T = n :=
  Nat.mul_div_cancel_left n hT

theorem splitStart_le (n : Nat) {T i : Nat} (hT : 0 < T) (hi : i ≤ T) : splitStart n T i ≤ n :=
  (splitStart_mono n T hi).trans (splitStart_self n hT).le

/-- Every item lies in some part: the first whose end lies past it. -/
theorem exists_part {n T k : Nat} (hT : 0 < T) (hk : k < n) :
    ∃ i, i < T ∧ splitStart n T i ≤ k ∧ k < splitStart n T (i + 1) := by
  have hlast : k < splitStart n T (T - 1 + 1) := by
    rw [Nat.sub_add_cancel hT, splitStart_self n hT]
    exact hk
  have hex : ∃ i, k < splitStart n T (i + 1) := ⟨T - 1, hlast⟩
  refine ⟨Nat.find hex, ?_, ?_, Nat.find_spec hex⟩
  · have hle : Nat.find hex ≤ T - 1 := Nat.find_min' hex hlast
    omega
  · rcases Nat.eq_zero_or_pos (Nat.find hex) with h0 | hpos
    · rw [h0, splitStart_zero]
      exact Nat.zero_le k
    · -- the part before ends at or before the item
      have hmin := Nat.find_min hex (show Nat.find hex - 1 < Nat.find hex by omega)
      rw [Nat.sub_add_cancel hpos] at hmin
      omega

/-- An item lies in one part only. -/
theorem part_unique {n T k i j : Nat} (hi : splitStart n T i ≤ k ∧ k < splitStart n T (i + 1))
    (hj : splitStart n T j ≤ k ∧ k < splitStart n T (j + 1)) : i = j := by
  by_contra hne
  rcases Nat.lt_or_gt_of_ne hne with hlt | hlt
  · have := splitStart_mono n T (show i + 1 ≤ j by omega)
    omega
  · have := splitStart_mono n T (show j + 1 ≤ i by omega)
    omega

end EvenSplit
