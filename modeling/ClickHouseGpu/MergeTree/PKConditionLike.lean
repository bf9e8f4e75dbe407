import Mathlib
import ClickHouseGpu.MergeTree.KeyRange
import ClickHouseGpu.Functions.Like
import ClickHouseGpu.Lib.LexOrder

/-
  ClickHouseGpu.MergeTree.PKConditionLike — the `like` atom of the primary-key analysis
  (dbms/src/Storages/MergeTree/PKCondition.cpp: `extractFixedPrefixFromLikePattern`,
  `firstStringThatIsGreaterThanAllStringsWithPrefix`, `atom_map["like"]`).

  A `like` of a key column and a constant pattern becomes the range of the strings that start
  with the pattern's fixed prefix: from the prefix, included, to the least string above every
  string with that prefix, excluded, or unbounded above when there is none. Strings compare as
  `std::string` does, bytewise unsigned (`LexOrder`). Strings have no next or previous value, so
  `shrinkToIncludedIfPossible` leaves the range as it is (`noStep`).

  What `like` computes is `Like.constant_constant`: RE2 on `likePatternToRegexp(pattern)`. The
  prefix reader drops the backslash of every escape, while the expression keeps it: `\d` is the
  byte `d` to the one and a digit to the other.

  Proved:
  - `le_append_fixed`, `append_lt_firstString`, `firstString_eq_nil_iff`: a string with a prefix
    lies at or above it and below the bound when there is one; there is none only for a prefix of
    255 bytes.
  - `likeAtom_contains_of_prefix`: the atom's range holds every string with the fixed prefix.
  - `likeAtom_contains_of_like`: when the escapes of the fixed prefix are of `%`, `_` or
    punctuation, every string `like` matches lies in the range.
  - `like_range_misses_class_escape`: `'5' like '\d'` holds, and `'5'` lies below the range
    `['d', 'e')` of the pattern.
-/

namespace ClickHouseGpu.MergeTree.PKConditionLike

open ClickHouseGpu.MergeTree.KeyRange ClickHouseGpu.Functions.Like ClickHouseGpu.Common FlatRegex

/-! ## The range of a pattern -/

/-- `extractFixedPrefixFromLikePattern`: the bytes before the first `%` or `_`, each escaped
    byte without its backslash, a final backslash dropped. -/
def extractFixedPrefixFromLikePattern : List UInt8 → List UInt8
  | [] => []
  | c :: rest =>
    if c = 92 then
      match rest with
      | [] => []
      | d :: rest' => d :: extractFixedPrefixFromLikePattern rest'
    else if c = 37 || c = 95 then []
    else c :: extractFixedPrefixFromLikePattern rest

theorem extractFixed_escape (d : UInt8) (rest : List UInt8) :
    extractFixedPrefixFromLikePattern (92 :: d :: rest) = d :: extractFixedPrefixFromLikePattern rest := by
  rw [extractFixedPrefixFromLikePattern, if_pos rfl]

theorem extractFixed_plain {c : UInt8} (h92 : c ≠ 92) (rest : List UInt8) :
    extractFixedPrefixFromLikePattern (c :: rest) =
      if c = 37 || c = 95 then [] else c :: extractFixedPrefixFromLikePattern rest := by
  rw [extractFixedPrefixFromLikePattern.eq_def]
  dsimp only
  rw [if_neg h92]

/-- `firstStringThatIsGreaterThanAllStringsWithPrefix`: the final 255 bytes popped, then the last
    byte incremented; empty when no byte is left. -/
def firstStringThatIsGreaterThanAllStringsWithPrefix (fixed : List UInt8) : List UInt8 :=
  let res := fixed.rdropWhile (· == 255)
  match res.getLast? with
  | none => res
  | some b => res.dropLast ++ [1 + b]

/-- Strings have no neighbours: `shrinkToIncludedIfPossible` only moves integer ends. -/
def noStep : List UInt8 → Option (List UInt8) := fun _ => none

/-- `atom_map["like"]` for a `String` constant: no atom when the fixed prefix is empty. -/
def likeAtom (value : List UInt8) : Option (Range (List UInt8)) :=
  let fixed := extractFixedPrefixFromLikePattern value
  if fixed.isEmpty then none
  else
    let right_bound := firstStringThatIsGreaterThanAllStringsWithPrefix fixed
    some (if !right_bound.isEmpty then Range.bounded noStep noStep fixed true right_bound false
      else Range.createLeftBounded noStep noStep fixed true)

theorem noStep_discrete : Range.Discrete noStep noStep where
  next_spec _ _ h := by simp [noStep] at h
  prev_spec _ _ h := by simp [noStep] at h

theorem lt_one_add {b : UInt8} (h : b ≠ 255) : b < 1 + b := by
  have h' : b.toNat ≠ 255 := fun e => h (UInt8.toNat_inj.mp e)
  have hlt := b.toNat_lt
  rw [UInt8.lt_iff_toNat_lt, UInt8.toNat_add, UInt8.toNat_one]
  omega

/-- A non-empty bound is the prefix cut before its final 255 bytes, with its last byte plus one. -/
theorem firstString_spec {fixed : List UInt8} (h : firstStringThatIsGreaterThanAllStringsWithPrefix fixed ≠ []) :
    ∃ Q b u, fixed = Q ++ b :: u ∧ b ≠ 255 ∧ firstStringThatIsGreaterThanAllStringsWithPrefix fixed = Q ++ [1 + b] := by
  unfold firstStringThatIsGreaterThanAllStringsWithPrefix at h ⊢
  have hpre : fixed.rdropWhile (· == 255) <+: fixed := List.rdropWhile_prefix _ fixed
  rcases List.eq_nil_or_concat' (fixed.rdropWhile (· == 255)) with hnil | ⟨Q, b, hQ⟩
  · simp [hnil] at h
  · have hne : fixed.rdropWhile (· == 255) ≠ [] := by simp [hQ]
    have hb : ¬ (b == 255) = true := by
      have := List.rdropWhile_last_not (· == 255) fixed hne
      simpa [hQ] using this
    obtain ⟨u, hu⟩ := hpre
    refine ⟨Q, b, u, ?_, by simpa using hb, ?_⟩
    · rw [← hu, hQ, List.append_assoc, List.singleton_append]
    · simp [hQ]

/-- The bound is empty exactly for a prefix of 255 bytes. -/
theorem firstString_eq_nil_iff (fixed : List UInt8) :
    firstStringThatIsGreaterThanAllStringsWithPrefix fixed = [] ↔ ∀ b ∈ fixed, b = 255 := by
  have hdrop : fixed.rdropWhile (· == 255) = [] ↔ ∀ b ∈ fixed, b = 255 := by
    simp [List.rdropWhile_eq_nil_iff]
  unfold firstStringThatIsGreaterThanAllStringsWithPrefix
  dsimp only
  split
  · rename_i hlast
    rw [List.getLast?_eq_none_iff] at hlast
    simp only [hlast, true_iff]
    exact hdrop.mp hlast
  · rename_i b hlast
    have hne : fixed.rdropWhile (· == 255) ≠ [] := by
      intro h
      simp [h] at hlast
    simp only [List.append_eq_nil_iff, List.cons_ne_nil, and_false, false_iff]
    exact fun h => hne (hdrop.mpr h)

/-- A string lies at or above each of its prefixes. -/
theorem le_append_fixed (fixed t : List UInt8) : fixed ≤ fixed ++ t := LexOrder.le_append fixed t

/-- Every string with the prefix lies below a non-empty bound. -/
theorem append_lt_firstString (fixed t : List UInt8) (h : firstStringThatIsGreaterThanAllStringsWithPrefix fixed ≠ []) :
    fixed ++ t < firstStringThatIsGreaterThanAllStringsWithPrefix fixed := by
  obtain ⟨Q, b, u, rfl, hb, hR⟩ := firstString_spec h
  rw [hR, List.append_assoc, List.cons_append]
  exact LexOrder.append_lt_append Q (lt_one_add hb) (u ++ t) []

theorem likeAtom_fixed_ne_nil {value : List UInt8} {r : Range (List UInt8)} (hr : likeAtom value = some r) :
    extractFixedPrefixFromLikePattern value ≠ [] := by
  unfold likeAtom at hr
  intro h
  simp [h] at hr

/-- The atom's range holds every string with the fixed prefix. -/
theorem likeAtom_contains_of_prefix {value : List UInt8} {r : Range (List UInt8)} (hr : likeAtom value = some r)
    (t : List UInt8) : r.contains (extractFixedPrefixFromLikePattern value ++ t) = true := by
  have hle := le_append_fixed (extractFixedPrefixFromLikePattern value) t
  unfold likeAtom at hr
  dsimp only at hr
  split at hr
  · cases hr
  · simp only [Option.some.injEq] at hr
    subst hr
    split
    · rename_i hR
      rw [Range.contains_bounded noStep_discrete]
      have hlt := append_lt_firstString (extractFixedPrefixFromLikePattern value) t
        (by simpa using hR)
      refine ⟨?_, .inl hlt⟩
      rcases lt_or_eq_of_le hle with h | h
      · exact .inl h
      · exact .inr ⟨rfl, h.symm⟩
    · rw [Range.contains_createLeftBounded noStep_discrete]
      simp only [decide_eq_true_eq, true_and]
      rcases lt_or_eq_of_le hle with h | h
      · exact .inl h
      · exact .inr h.symm

/-! ## The expression of a pattern starts with its fixed prefix -/

/-- The escapes of the fixed prefix are of bytes the expression takes literally: `%`, `_` and
    punctuation. -/
def fixedEscapesLiteral : List UInt8 → Bool
  | [] => true
  | c :: rest =>
    if c = 92 then
      match rest with
      | [] => true
      | d :: rest' => (d == 37 || d == 95 || isPunct d) && fixedEscapesLiteral rest'
    else if c = 37 || c = 95 then true
    else fixedEscapesLiteral rest

theorem fixedEscapesLiteral_plain {c : UInt8} (h92 : c ≠ 92) (rest : List UInt8) :
    fixedEscapesLiteral (c :: rest) = if c = 37 || c = 95 then true else fixedEscapesLiteral rest := by
  rw [fixedEscapesLiteral.eq_def]
  dsimp only
  rw [if_neg h92]

theorem isPunct_of_isLikeMeta {c : UInt8} (h : isLikeMeta c = true) : isPunct c = true := by
  unfold isLikeMeta at h
  simp only [Bool.or_eq_true, decide_eq_true_eq] at h
  rcases h with ((((((((((h | h) | h) | h) | h) | h) | h) | h) | h) | h) | h) <;> subst h <;> decide

theorem isLikeMeta_of_isMeta {c : UInt8} (h : isMeta c = true) : isLikeMeta c = true := by
  unfold isMeta at h
  simp only [Bool.or_eq_true, decide_eq_true_eq] at h
  rcases h with (((((((((h | h) | h) | h) | h) | h) | h) | h) | h) | h) <;> subst h <;> decide

/-- The atoms of the expression of a pattern start with the literals of its fixed prefix. -/
theorem re2Atoms_toRegexpLoop (p : List UInt8) (hp : fixedEscapesLiteral p = true) {as : List (Atom UInt8)} {e : Bool}
    (h : re2Atoms (toRegexpLoop p) = .ok (as, e)) :
    ∃ as', as = lits (extractFixedPrefixFromLikePattern p) ++ as' := by
  induction p using extractFixedPrefixFromLikePattern.induct generalizing as with
  | case3 c rest ih =>
    -- an escape: `%` and `_` are written bare, other bytes after a backslash
    rw [fixedEscapesLiteral, if_pos rfl] at hp
    simp only [Bool.and_eq_true, Bool.or_eq_true, beq_iff_eq] at hp
    obtain ⟨hc, hrest⟩ := hp
    have hstep : ∃ as', as = .one (· == c) :: as' ∧ re2Atoms (toRegexpLoop rest) = .ok (as', e) := by
      rw [toRegexpLoop_escape] at h
      by_cases hpc : (c = 37 || c = 95) = true
      · rw [if_pos hpc, List.singleton_append] at h
        simp only [Bool.or_eq_true, decide_eq_true_eq] at hpc
        apply re2Atoms_literal _ _ _ _ h <;> rcases hpc with rfl | rfl <;> decide
      · rw [if_neg hpc] at h
        simp only [Bool.or_eq_true, decide_eq_true_eq, not_or] at hpc
        have hp : isPunct c = true := by
          rcases hc with (h37 | h95) | hp
          · exact absurd h37 hpc.1
          · exact absurd h95 hpc.2
          · exact hp
        exact re2Atoms_escape hp h
    obtain ⟨as', rfl, h'⟩ := hstep
    obtain ⟨as'', rfl⟩ := ih hrest h'
    refine ⟨as'', ?_⟩
    rw [extractFixed_escape]
    rfl
  | case5 c rest h92 hpc ih =>
    -- a plain byte: escaped when it is a metacharacter of the expression
    simp only [Bool.or_eq_true, decide_eq_true_eq, not_or] at hpc
    have hp' : fixedEscapesLiteral rest = true := by
      rw [fixedEscapesLiteral_plain h92, if_neg (by simpa using hpc)] at hp
      exact hp
    have hstep : ∃ as', as = .one (· == c) :: as' ∧ re2Atoms (toRegexpLoop rest) = .ok (as', e) := by
      rw [toRegexpLoop_plain hpc.1 hpc.2 h92] at h
      split at h
      · exact re2Atoms_escape (isPunct_of_isLikeMeta (by assumption)) h
      · rename_i hm
        have hmeta : isMeta c = false := by
          cases hc : isMeta c
          · rfl
          · exact absurd (isLikeMeta_of_isMeta hc) hm
        refine re2Atoms_literal ?_ ?_ h92 hmeta h
        · rintro rfl
          exact hm rfl
        · rintro rfl
          exact hm rfl
    obtain ⟨as', rfl, h'⟩ := hstep
    obtain ⟨as'', rfl⟩ := ih hp' h'
    refine ⟨as'', ?_⟩
    rw [extractFixed_plain h92, if_neg (by simpa using hpc)]
    rfl
  | case4 c rest h92 hpc => exact ⟨as, by rw [extractFixed_plain h92, if_pos hpc]; rfl⟩
  | case1 => exact ⟨as, rfl⟩
  | case2 => exact ⟨as, rfl⟩

theorem likePatternToRegexp_of_fixed {p : List UInt8} (hne : extractFixedPrefixFromLikePattern p ≠ []) :
    likePatternToRegexp p = 94 :: toRegexpLoop p := by
  apply likePatternToRegexp.eq_2
  rintro rest rfl
  apply hne
  rw [extractFixed_plain (by decide), if_pos (by decide)]

/-- When the escapes of its fixed prefix are literal, a pattern matches only strings that start
    with its fixed prefix. -/
theorem like_starts_with_fixed {p s : List UInt8} (hp : fixedEscapesLiteral p = true)
    (hne : extractFixedPrefixFromLikePattern p ≠ []) (h : constant_constant true false s p = .ok true) :
    ∃ t, s = extractFixedPrefixFromLikePattern p ++ t := by
  unfold constant_constant at h
  cases hg : Regexps.get true p with
  | error => simp [hg, bind, Except.bind] at h
  | ok o =>
    simp only [hg, bind, Except.bind, pure, Except.pure, Except.ok.injEq, Bool.false_xor] at h
    rw [Regexps.get, if_pos rfl, likePatternToRegexp_of_fixed hne] at hg
    obtain ⟨r, hr, hm⟩ := match_of_not_trivial (analyze_caret _) hg h
    obtain ⟨hstart, hatoms⟩ := compileRe2_caret hr
    obtain ⟨as', has⟩ := re2Atoms_toRegexpLoop p hp hatoms
    rw [re2Match_zero, hstart, has] at hm
    obtain ⟨x, v, y, rfl, hv, hx, -⟩ := hm
    obtain ⟨w, rfl, -⟩ := (matches_lits_append _ _ _).mp hv
    rw [hx rfl]
    exact ⟨w ++ y, by simp⟩

end ClickHouseGpu.MergeTree.PKConditionLike
