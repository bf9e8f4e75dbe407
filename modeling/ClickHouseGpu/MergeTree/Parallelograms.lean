import Mathlib
import ClickHouseGpu.MergeTree.PKConditionSoundness

/-
  ClickHouseGpu.MergeTree.Parallelograms — the boxes `forAnyParallelogram`
  (dbms/src/Storages/MergeTree/PKCondition.cpp) cuts a lexicographic range of keys into.

  `parallelograms` lists the boxes the search hands to its callback, in order, when every
  answer is `false`; `forAnyParallelogram` is the callback tried on that list until one answer
  is `true` (`forAnyParallelogram_eq_anyM`). Over keys whose columns are ordered, with exact
  steps for the open ends:
  - `frame_parallelograms`: a search leaves the columns before its prefix as they are.
  - `lexLe_of_mem_parallelograms`: every box lies in the range.
  - `exists_mem_parallelograms`: every tuple of the range lies in a box (the cover of
    `PKConditionSoundness`, read off the list).
  - `pairwise_disjoint_parallelograms`: no tuple lies in two boxes.
-/

namespace ClickHouseGpu.MergeTree.Parallelograms

open KeyRange PKCondition PKConditionSoundness

section Boxes

variable {V : Type} [LinearOrder V] [Inhabited V] (key : KeyInfo V)

/-- The boxes `forAnyParallelogram` hands to its callback, in order, when every answer is
    `false`: the same recursion, with each callback call a box of the list. -/
def parallelograms (key_size : Nat) (key_left key_right : Nat → V) (left_bounded right_bounded : Bool)
    (parallelogram : Nat → Range V) (prefix_size : Nat) : List (Nat → Range V) :=
  if !left_bounded && !right_bounded then [parallelogram]
  else
    match hm : matched key_size key_left key_right left_bounded right_bounded parallelogram prefix_size with
    | (start, first) =>
    if key_size ≤ first then [start]
    else if first + 1 = key_size then
      [Function.update start first (lastRange key key_left key_right left_bounded right_bounded first (start first))]
    else
      let box := resetFrom (Function.update start first
        (middleRange key key_left key_right left_bounded right_bounded first (start first))) first
      box :: ((if left_bounded then
          parallelograms key_size key_left key_right true false
            (Function.update box first (Range.point (key_left first))) (first + 1)
        else []) ++
        (if right_bounded then
          parallelograms key_size key_left key_right false true
            (Function.update box first (Range.point (key_right first))) (first + 1)
        else []))
termination_by key_size - prefix_size
decreasing_by
  all_goals
    have h := le_matched key_size key_left key_right left_bounded right_bounded parallelogram prefix_size
    rw [hm] at h
    omega

/-- `parallelograms` past its common prefix, once `matched` has run. -/
theorem parallelograms_of_matched {key_size : Nat} {key_left key_right : Nat → V} {left_bounded right_bounded : Bool}
    {parallelogram start : Nat → Range V} {p first : Nat} (hb : ¬ (!left_bounded && !right_bounded) = true)
    (hm : matched key_size key_left key_right left_bounded right_bounded parallelogram p = (start, first)) :
    parallelograms key key_size key_left key_right left_bounded right_bounded parallelogram p =
      if key_size ≤ first then [start]
      else if first + 1 = key_size then
        [Function.update start first (lastRange key key_left key_right left_bounded right_bounded first (start first))]
      else
        let box := resetFrom (Function.update start first
          (middleRange key key_left key_right left_bounded right_bounded first (start first))) first
        box :: ((if left_bounded then
            parallelograms key key_size key_left key_right true false
              (Function.update box first (Range.point (key_left first))) (first + 1)
          else []) ++
          (if right_bounded then
            parallelograms key key_size key_left key_right false true
              (Function.update box first (Range.point (key_right first))) (first + 1)
          else [])) := by
  rw [parallelograms, if_neg hb]
  split
  next start' first' hm' =>
  rw [hm] at hm'
  cases hm'
  rfl

omit [LinearOrder V] [Inhabited V] in
theorem anyM_append {m : Type → Type} [Monad m] [LawfulMonad m] {α : Type} (p : α → m Bool) (l₁ l₂ : List α) :
    (l₁ ++ l₂).anyM p = l₁.anyM p >>= fun found => if found then pure true else l₂.anyM p := by
  induction l₁ with
  | nil => simp
  | cons a l₁ ih =>
    simp only [List.cons_append, List.anyM_cons, ih, bind_assoc]
    congr 1
    funext found
    cases found <;> simp

omit [LinearOrder V] [Inhabited V] in
theorem anyM_ite {m : Type → Type} [Monad m] {α : Type} (p : α → m Bool) (c : Bool) (l : List α) :
    (if c then l else []).anyM p = if c then l.anyM p else pure false := by
  cases c <;> rfl

omit [LinearOrder V] [Inhabited V] in
theorem anyM_singleton {m : Type → Type} [Monad m] [LawfulMonad m] {α : Type} (p : α → m Bool) (a : α) :
    [a].anyM p = p a := by
  have h : (fun found : Bool => if found then (pure true : m Bool) else pure false) = pure := by
    funext found
    cases found <;> rfl
  simp only [List.anyM_cons, List.anyM_nil, h, bind_pure]

/-- `forAnyParallelogram` tries its callback on the boxes of `parallelograms` in order and
    stops at the first `true`. -/
theorem forAnyParallelogram_eq_anyM (key_size : Nat) (key_left key_right : Nat → V)
    (callback : (Nat → Range V) → Except String Bool) (left_bounded right_bounded : Bool)
    (parallelogram : Nat → Range V) (p : Nat) :
    forAnyParallelogram key key_size key_left key_right callback left_bounded right_bounded parallelogram p =
      (parallelograms key key_size key_left key_right left_bounded right_bounded parallelogram p).anyM callback := by
  fun_induction forAnyParallelogram key key_size key_left key_right callback left_bounded right_bounded parallelogram p
  case case1 parallelogram hb =>
    rw [parallelograms, if_pos hb, anyM_singleton]
  case case2 left_bounded right_bounded parallelogram p hb start first hm hle =>
    rw [parallelograms_of_matched key hb hm, if_pos hle, anyM_singleton]
  case case3 left_bounded right_bounded parallelogram p hb start first hm hlt hlast =>
    rw [parallelograms_of_matched key hb hm, if_neg hlt, if_pos hlast, anyM_singleton]
  case case4 left_bounded right_bounded parallelogram p hb start first hm hlt hnlast box ih2 ih1 =>
    rw [parallelograms_of_matched key hb hm, if_neg hlt, if_neg hnlast]
    simp only [box] at ih1 ih2 ⊢
    simp only [List.anyM_cons, anyM_append, anyM_ite, ← ih1, ← ih2]

omit [Inhabited V] in
/-- The `while` loop turns the columns `p ..` where both ends agree into points and leaves the
    others as they are; it stops at the first column where the ends differ. -/
theorem matchPrefix_points (key_left key_right : Nat → V) :
    ∀ (fuel : Nat) (parallelogram : Nat → Range V) (p : Nat),
      (∀ i, (i < p ∨ (matchPrefix key_left key_right fuel parallelogram p).2 ≤ i) →
        (matchPrefix key_left key_right fuel parallelogram p).1 i = parallelogram i) ∧
      (∀ i, p ≤ i → i < (matchPrefix key_left key_right fuel parallelogram p).2 →
        key_left i = key_right i ∧ (matchPrefix key_left key_right fuel parallelogram p).1 i = Range.point (key_left i)) ∧
      (matchPrefix key_left key_right fuel parallelogram p).2 ≤ p + fuel ∧
      ((matchPrefix key_left key_right fuel parallelogram p).2 < p + fuel →
        key_left (matchPrefix key_left key_right fuel parallelogram p).2 ≠
          key_right (matchPrefix key_left key_right fuel parallelogram p).2)
  | 0, parallelogram, p => by
    rw [matchPrefix.eq_1]
    exact ⟨fun _ _ => rfl, fun i h1 h2 => absurd h2 (by omega), by omega, fun h => absurd h (by omega)⟩
  | fuel + 1, parallelogram, p => by
    unfold matchPrefix
    split
    · next heq =>
      have hle := le_matchPrefix key_left key_right fuel
        (Function.update parallelogram p (Range.point (key_left p))) (p + 1)
      obtain ⟨hframe, hpoints, hfuel, hne⟩ := matchPrefix_points key_left key_right fuel
        (Function.update parallelogram p (Range.point (key_left p))) (p + 1)
      refine ⟨fun i hi => ?_, fun i hi1 hi2 => ?_, by omega, fun hlt => hne (by omega)⟩
      · rw [hframe i (by omega), Function.update_of_ne (by omega)]
      · rcases Nat.lt_or_eq_of_le hi1 with hi1 | hip
        · exact hpoints i hi1 hi2
        · rw [← hip, hframe p (by omega), Function.update_self]
          exact ⟨heq, rfl⟩
    · next hne =>
      exact ⟨fun _ _ => rfl, fun i h1 h2 => absurd h2 (by omega), by omega, fun _ => hne⟩

omit [Inhabited V] in
/-- What the prefix loop leaves: the columns before `p` and from `first` on as they were, the
    columns between points where both ends agree, and the ends differing at `first`. Without
    both ends the loop does not run. -/
theorem matched_points {key_size : Nat} {key_left key_right : Nat → V} {left_bounded right_bounded : Bool}
    {parallelogram start : Nat → Range V} {p first : Nat}
    (hm : matched key_size key_left key_right left_bounded right_bounded parallelogram p = (start, first)) :
    (∀ i, (i < p ∨ first ≤ i) → start i = parallelogram i) ∧
      (∀ i, p ≤ i → i < first → key_left i = key_right i ∧ start i = Range.point (key_left i)) ∧
      p ≤ first ∧ first ≤ p + (key_size - p) ∧
      (left_bounded = true → right_bounded = true → first < key_size → key_left first ≠ key_right first) ∧
      ((left_bounded && right_bounded) = false → first = p) := by
  have hle := le_matched key_size key_left key_right left_bounded right_bounded parallelogram p
  rw [hm] at hle
  unfold matched at hm
  split at hm
  · next hb =>
    obtain ⟨hframe, hpoints, hfuel, hne⟩ := matchPrefix_points key_left key_right (key_size - p) parallelogram p
    rw [hm] at hframe hpoints hfuel hne
    exact ⟨hframe, hpoints, hle, hfuel, fun _ _ hlt => hne (by omega), fun h => absurd hb (by simp [h])⟩
  · next hb =>
    cases hm
    refine ⟨fun _ _ => rfl, fun i h1 h2 => absurd h2 (by omega), hle, by omega,
      fun hl hr _ => absurd (by simp [hl, hr]) hb, fun _ => rfl⟩

omit [LinearOrder V] in
theorem resetFrom_of_le {parallelogram : Nat → Range V} {p i : Nat} (h : i ≤ p) :
    resetFrom parallelogram p i = parallelogram i := by
  rw [resetFrom, if_neg (by omega)]

omit [LinearOrder V] in
theorem resetFrom_of_lt {parallelogram : Nat → Range V} {p i : Nat} (h : p < i) :
    resetFrom parallelogram p i = Range.whole := by
  rw [resetFrom, if_pos h]

omit [Inhabited V] in
theorem mem_ite_nil {α : Type} {c : Bool} {l : List α} {a : α} (h : a ∈ (if c then l else [])) :
    c = true ∧ a ∈ l := by
  cases c
  · simp at h
  · exact ⟨rfl, h⟩

/-- A search leaves the columns before its prefix as they are. -/
theorem frame_parallelograms (key_size : Nat) (key_left key_right : Nat → V) (left_bounded right_bounded : Bool)
    (parallelogram : Nat → Range V) (p : Nat) :
    ∀ box ∈ parallelograms key key_size key_left key_right left_bounded right_bounded parallelogram p,
      ∀ i < p, box i = parallelogram i := by
  fun_induction parallelograms key key_size key_left key_right left_bounded right_bounded parallelogram p
  case case1 parallelogram _ =>
    intro box hbox i _
    rw [List.mem_singleton.mp hbox]
  case case2 left_bounded right_bounded parallelogram p _ start first hm _ =>
    intro box hbox i hi
    rw [List.mem_singleton.mp hbox]
    exact (matched_points hm).1 i (.inl hi)
  case case3 left_bounded right_bounded parallelogram p _ start first hm _ _ =>
    intro box hbox i hi
    obtain ⟨hframe, -, hpf, -⟩ := matched_points hm
    rw [List.mem_singleton.mp hbox, Function.update_of_ne (by omega)]
    exact hframe i (.inl hi)
  case case4 left_bounded right_bounded parallelogram p _ start first hm _ _ box ih1 ih2 =>
    obtain ⟨hframe, -, hpf, -⟩ := matched_points hm
    -- the middle box keeps the columns before `first`, and so does each search after it
    have hbox : ∀ i < p, box i = parallelogram i := by
      intro i hi
      simp only [box]
      rw [resetFrom_of_le (by omega), Function.update_of_ne (by omega)]
      exact hframe i (.inl hi)
    intro b hb i hi
    rcases List.mem_cons.mp hb with rfl | hb
    · exact hbox i hi
    rcases List.mem_append.mp hb with hb | hb
    · rw [ih1 b (mem_ite_nil hb).2 i (by omega), Function.update_of_ne (by omega)]
      exact hbox i hi
    · rw [ih2 b (mem_ite_nil hb).2 i (by omega), Function.update_of_ne (by omega)]
      exact hbox i hi

omit [Inhabited V] in
/-- Over columns where two tuples agree, the lexicographic comparison moves on. -/
theorem lexLe_prefix_iff {a b : Nat → V} :
    ∀ (j k p : Nat), (∀ i, p ≤ i → i < p + j → a i = b i) → (lexLe a b (j + k) p ↔ lexLe a b k (p + j))
  | 0, k, p, _ => by simp
  | j + 1, k, p, h => by
    have hp : a p = b p := h p le_rfl (by omega)
    rw [show j + 1 + k = (j + k) + 1 by omega, lexLe,
      lexLe_prefix_iff j k (p + 1) (fun i h1 h2 => h i (by omega) (by omega)), show p + 1 + j = p + (j + 1) by omega]
    constructor
    · rintro (hlt | ⟨-, hrest⟩)
      · exact absurd hlt (by rw [hp]; exact lt_irrefl _)
      · exact hrest
    · intro hrest
      exact .inr ⟨hp, hrest⟩

omit [Inhabited V] in
theorem lexLe_of_lt {a b : Nat → V} {k p : Nat} (h : a p < b p) : lexLe a b (k + 1) p := .inl h

omit [Inhabited V] in
theorem lexLe_one_iff {a b : Nat → V} {p : Nat} : lexLe a b 1 p ↔ a p ≤ b p := by
  simp only [lexLe, and_true]
  constructor
  · rintro (h | h)
    · exact h.le
    · exact h.le
  · intro h
    exact h.lt_or_eq

theorem lastRange_bounds (hd : Range.Discrete key.next key.prev) {key_left key_right : Nat → V}
    {left_bounded right_bounded : Bool} {first : Nat} (whole : Range V) {x : V}
    (hb : ¬ (!left_bounded && !right_bounded) = true)
    (h : (lastRange key key_left key_right left_bounded right_bounded first whole).contains x = true) :
    (left_bounded = true → key_left first ≤ x) ∧ (right_bounded = true → x ≤ key_right first) := by
  unfold lastRange at h
  cases left_bounded <;> cases right_bounded
  · simp at hb
  · simp [Range.contains_createRightBounded hd] at h
    exact ⟨nofun, fun _ => h.elim le_of_lt le_of_eq⟩
  · simp [Range.contains_createLeftBounded hd] at h
    exact ⟨fun _ => h.elim le_of_lt ge_of_eq, nofun⟩
  · simp [Range.contains_bounded hd] at h
    exact ⟨fun _ => h.1.elim le_of_lt ge_of_eq, fun _ => h.2.elim le_of_lt le_of_eq⟩

theorem middleRange_bounds (hd : Range.Discrete key.next key.prev) {key_left key_right : Nat → V}
    {left_bounded right_bounded : Bool} {first : Nat} (whole : Range V) {x : V}
    (hb : ¬ (!left_bounded && !right_bounded) = true)
    (h : (middleRange key key_left key_right left_bounded right_bounded first whole).contains x = true) :
    (left_bounded = true → key_left first < x) ∧ (right_bounded = true → x < key_right first) := by
  unfold middleRange at h
  cases left_bounded <;> cases right_bounded
  · simp at hb
  · simp [Range.contains_createRightBounded hd] at h
    exact ⟨nofun, fun _ => h⟩
  · simp [Range.contains_createLeftBounded hd] at h
    exact ⟨fun _ => h, nofun⟩
  · simp [Range.contains_bounded hd] at h
    exact ⟨fun _ => h.1, fun _ => h.2⟩

omit [Inhabited V] in
/-- A tuple in a box whose columns `p .. first` are the points where both ends agree agrees
    with both ends there. -/
theorem agree_of_points {key_left key_right t : Nat → V} {start box : Nat → Range V} {p first : Nat}
    (hpoints : ∀ i, p ≤ i → i < first → key_left i = key_right i ∧ start i = Range.point (key_left i))
    (hbox : ∀ i, p ≤ i → i < first → box i = start i) (ht : InBox box t) :
    ∀ i, p ≤ i → i < first → t i = key_left i ∧ key_left i = key_right i := by
  intro i h1 h2
  obtain ⟨heq, hpoint⟩ := hpoints i h1 h2
  have hti := ht i
  rw [hbox i h1 h2, hpoint, Range.contains_point, decide_eq_true_eq] at hti
  exact ⟨hti, heq⟩

omit [Inhabited V] in
/-- Both comparisons with the ends carry back over the common prefix. -/
theorem lexLe_extend {key_left key_right t : Nat → V} {p first : Nat} (hpf : p ≤ first)
    (hagree : ∀ i, p ≤ i → i < first → t i = key_left i ∧ key_left i = key_right i) (k : Nat) :
    (lexLe key_left t k first → lexLe key_left t (first - p + k) p) ∧
      (lexLe t key_right k first → lexLe t key_right (first - p + k) p) := by
  have e : p + (first - p) = first := by omega
  constructor
  · intro h
    rw [lexLe_prefix_iff (first - p) k p (fun i h1 h2 => ((hagree i h1 (by omega)).1).symm), e]
    exact h
  · intro h
    rw [lexLe_prefix_iff (first - p) k p (fun i h1 h2 => by
      obtain ⟨ht, hlr⟩ := hagree i h1 (by omega)
      rw [ht, hlr]), e]
    exact h

omit [Inhabited V] in
theorem lt_of_lexLe_of_ne {a b : Nat → V} {k first : Nat} (h : lexLe a b (k + 1) first) (hne : a first ≠ b first) :
    a first < b first := by
  rcases h with hlt | ⟨heq, -⟩
  · exact hlt
  · exact absurd heq hne

/-- The boxes of a search started on one end at column `first` keep the columns before it
    and hold that end's point there. -/
theorem mem_parallelograms_on_end {key_size : Nat} {key_left key_right : Nat → V} {left_bounded right_bounded : Bool}
    {box b : Nat → Range V} {first : Nat} {x : V}
    (hmem : b ∈ parallelograms key key_size key_left key_right left_bounded right_bounded
      (Function.update box first (Range.point x)) (first + 1)) :
    (∀ i < first, b i = box i) ∧ b first = Range.point x := by
  have hframe := frame_parallelograms key key_size key_left key_right left_bounded right_bounded _ (first + 1) b hmem
  refine ⟨fun i hi => ?_, ?_⟩
  · rw [hframe i (by omega), Function.update_of_ne (by omega)]
  · rw [hframe first (by omega), Function.update_self]

omit [Inhabited V] in
theorem eq_of_inBox_point {b : Nat → Range V} {t : Nat → V} {first : Nat} {x : V} (ht : InBox b t)
    (hpt : b first = Range.point x) : t first = x := by
  have htf := ht first
  rw [hpt, Range.contains_point, decide_eq_true_eq] at htf
  exact htf

/-- Every box of the search lies between the ends: by induction along the recursion, a box
    agrees with both ends over the common prefix and, at the first column where they differ,
    lies strictly between them (the middle box), on one of them (the searches after it, whose
    boxes hold that column at a point), or between them inclusive (the last column). -/
theorem lexLe_of_mem_parallelograms (hd : Range.Discrete key.next key.prev) (key_size : Nat)
    (key_left key_right : Nat → V) (left_bounded right_bounded : Bool) (parallelogram : Nat → Range V) (p : Nat) :
    (left_bounded = true → right_bounded = true → lexLe key_left key_right (key_size - p) p) →
    ∀ box ∈ parallelograms key key_size key_left key_right left_bounded right_bounded parallelogram p,
      ∀ t, InBox box t →
        (left_bounded = true → lexLe key_left t (key_size - p) p) ∧
          (right_bounded = true → lexLe t key_right (key_size - p) p) := by
  fun_induction parallelograms key key_size key_left key_right left_bounded right_bounded parallelogram p
  case case1 left_bounded right_bounded _ _ hb =>
    intro _ _ _ _ _
    simp only [Bool.and_eq_true, Bool.not_eq_true'] at hb
    exact ⟨fun h => absurd h (by simp [hb.1]), fun h => absurd h (by simp [hb.2])⟩
  case case2 left_bounded right_bounded parallelogram p _ start first hm hle =>
    intro _ box hbox t ht
    rw [List.mem_singleton.mp hbox] at ht
    obtain ⟨-, hpoints, hpf, hfuel, -, -⟩ := matched_points hm
    have hagree := agree_of_points hpoints (fun _ _ _ => rfl) ht
    -- the prefix takes every column left
    rw [show key_size - p = first - p + 0 by omega]
    exact ⟨fun _ => (lexLe_extend hpf hagree 0).1 trivial, fun _ => (lexLe_extend hpf hagree 0).2 trivial⟩
  case case3 left_bounded right_bounded parallelogram p hb start first hm hlt hlast =>
    intro _ box hbox t ht
    rw [List.mem_singleton.mp hbox] at ht
    obtain ⟨-, hpoints, hpf, -, -, -⟩ := matched_points hm
    have hagree := agree_of_points hpoints (fun i _ hi => Function.update_of_ne (by omega) _ _) ht
    have hlast' := ht first
    rw [Function.update_self] at hlast'
    obtain ⟨hl, hr⟩ := lastRange_bounds key hd _ hb hlast'
    rw [show key_size - p = first - p + 1 by omega]
    exact ⟨fun hlb => (lexLe_extend hpf hagree 1).1 (lexLe_one_iff.mpr (hl hlb)),
      fun hrb => (lexLe_extend hpf hagree 1).2 (lexLe_one_iff.mpr (hr hrb))⟩
  case case4 left_bounded right_bounded parallelogram p hb start first hm hlt hnlast box ih1 ih2 =>
    intro hlr b hb' t ht
    obtain ⟨-, hpoints, hpf, -, hdiff, -⟩ := matched_points hm
    have hk : key_size - p = first - p + (key_size - (first + 1) + 1) := by omega
    -- the middle box and every box after it agree with `start` before `first`
    have hbox : ∀ i, p ≤ i → i < first → box i = start i := by
      intro i _ hi
      simp only [box]
      rw [resetFrom_of_le (by omega), Function.update_of_ne (by omega)]
    have hbox_first : box first =
        middleRange key key_left key_right left_bounded right_bounded first (start first) := by
      simp only [box]
      rw [resetFrom_of_le le_rfl, Function.update_self]
    -- the ends differ at `first`, so when both are bounded the left one is below
    have hends : left_bounded = true → right_bounded = true → key_left first < key_right first := by
      intro hlb hrb
      have hlr' := hlr hlb hrb
      rw [hk, lexLe_prefix_iff (first - p) _ p (fun i h1 h2 => (hpoints i h1 (by omega)).1),
        show p + (first - p) = first by omega] at hlr'
      exact lt_of_lexLe_of_ne hlr' (hdiff hlb hrb (by omega))
    rw [hk]
    rcases List.mem_cons.mp hb' with rfl | hb'
    · -- the middle box: strictly between the ends at `first`
      have hagree := agree_of_points hpoints hbox ht
      have hmid := ht first
      rw [hbox_first] at hmid
      obtain ⟨hl, hr⟩ := middleRange_bounds key hd _ hb hmid
      exact ⟨fun hlb => (lexLe_extend hpf hagree _).1 (lexLe_of_lt (hl hlb)),
        fun hrb => (lexLe_extend hpf hagree _).2 (lexLe_of_lt (hr hrb))⟩
    rcases List.mem_append.mp hb' with hb' | hb'
    · -- a box of the search on the left end: at the left end in column `first`
      obtain ⟨hlb, hmem⟩ := mem_ite_nil hb'
      obtain ⟨hbefore, hpt⟩ := mem_parallelograms_on_end key hmem
      have hagree := agree_of_points hpoints (fun i h1 h2 => (hbefore i h2).trans (hbox i h1 h2)) ht
      have htf := eq_of_inBox_point ht hpt
      have hrest := (ih1 nofun b hmem t ht).1 rfl
      exact ⟨fun _ => (lexLe_extend hpf hagree _).1 (.inr ⟨htf.symm, hrest⟩),
        fun hrb => (lexLe_extend hpf hagree _).2 (lexLe_of_lt (htf ▸ hends hlb hrb))⟩
    · -- a box of the search on the right end
      obtain ⟨hrb, hmem⟩ := mem_ite_nil hb'
      obtain ⟨hbefore, hpt⟩ := mem_parallelograms_on_end key hmem
      have hagree := agree_of_points hpoints (fun i h1 h2 => (hbefore i h2).trans (hbox i h1 h2)) ht
      have htf := eq_of_inBox_point ht hpt
      have hrest := (ih2 nofun b hmem t ht).2 rfl
      exact ⟨fun hlb => (lexLe_extend hpf hagree _).1 (lexLe_of_lt (htf ▸ hends hlb hrb)),
        fun _ => (lexLe_extend hpf hagree _).2 (.inr ⟨htf, hrest⟩)⟩

omit [Inhabited V] in
theorem pairwise_ite_nil {α : Type} {R : α → α → Prop} {c : Bool} {l : List α} (h : c = true → l.Pairwise R) :
    (if c then l else []).Pairwise R := by
  cases c
  · exact List.Pairwise.nil
  · exact h rfl

/-- No tuple lies in two boxes of the search: at the first column where the ends differ, the
    middle box lies strictly between them and the searches after it hold one end each. -/
theorem pairwise_disjoint_parallelograms (hd : Range.Discrete key.next key.prev) (key_size : Nat)
    (key_left key_right : Nat → V) (left_bounded right_bounded : Bool) (parallelogram : Nat → Range V) (p : Nat) :
    (parallelograms key key_size key_left key_right left_bounded right_bounded parallelogram p).Pairwise
      (fun b b' => ∀ t, InBox b t → ¬ InBox b' t) := by
  fun_induction parallelograms key key_size key_left key_right left_bounded right_bounded parallelogram p
  case case1 => exact List.pairwise_singleton _ _
  case case2 => exact List.pairwise_singleton _ _
  case case3 => exact List.pairwise_singleton _ _
  case case4 left_bounded right_bounded parallelogram p hb start first hm hlt hnlast box ih1 ih2 =>
    obtain ⟨-, -, -, -, hdiff, -⟩ := matched_points hm
    have hbox_first : box first =
        middleRange key key_left key_right left_bounded right_bounded first (start first) := by
      simp only [box]
      rw [resetFrom_of_le le_rfl, Function.update_self]
    -- a tuple of the middle box is strictly between the ends at `first`
    have hmid : ∀ t, InBox box t →
        (left_bounded = true → key_left first < t first) ∧ (right_bounded = true → t first < key_right first) := by
      intro t ht
      have htf := ht first
      rw [hbox_first] at htf
      exact middleRange_bounds key hd _ hb htf
    refine List.pairwise_cons.mpr ⟨fun b' hb' t ht ht' => ?_,
      List.pairwise_append.mpr ⟨pairwise_ite_nil fun _ => ih1, pairwise_ite_nil fun _ => ih2, ?_⟩⟩
    · rcases List.mem_append.mp hb' with hb' | hb'
      · obtain ⟨hlb, hmem⟩ := mem_ite_nil hb'
        have htf := eq_of_inBox_point ht' (mem_parallelograms_on_end key hmem).2
        exact lt_irrefl _ (htf ▸ (hmid t ht).1 hlb)
      · obtain ⟨hrb, hmem⟩ := mem_ite_nil hb'
        have htf := eq_of_inBox_point ht' (mem_parallelograms_on_end key hmem).2
        exact lt_irrefl _ (htf ▸ (hmid t ht).2 hrb)
    · -- the two searches hold the two ends, which differ at `first`
      intro b hb b' hb' t ht ht'
      obtain ⟨hlb, hmem⟩ := mem_ite_nil hb
      obtain ⟨hrb, hmem'⟩ := mem_ite_nil hb'
      have htl := eq_of_inBox_point ht (mem_parallelograms_on_end key hmem).2
      have htr := eq_of_inBox_point ht' (mem_parallelograms_on_end key hmem').2
      exact hdiff hlb hrb (by omega) (htl.symm.trans htr)

omit [LinearOrder V] [Inhabited V] in
theorem anyM_of_forall_false {α : Type} {p : α → Except String Bool} :
    ∀ {l : List α}, (∀ a ∈ l, p a = .ok false) → l.anyM p = .ok false
  | [], _ => rfl
  | a :: l, h => by
    rw [List.anyM_cons, h a List.mem_cons_self, anyM_of_forall_false (fun b hb => h b (List.mem_cons_of_mem a hb))]
    rfl

/-- Every tuple between the ends lies in a box of the search: the cover of
    `forAnyParallelogram_cover`, run with a callback that answers `false` on the boxes of the
    list and fails elsewhere. -/
theorem exists_mem_parallelograms (hd : Range.Discrete key.next key.prev) (key_size : Nat)
    (key_left key_right t : Nat → V) (left_bounded right_bounded : Bool) (parallelogram : Nat → Range V) (p : Nat)
    (hP : Prefixed parallelogram t p) (hl : left_bounded = true → lexLe key_left t (key_size - p) p)
    (hr : right_bounded = true → lexLe t key_right (key_size - p) p) :
    ∃ box ∈ parallelograms key key_size key_left key_right left_bounded right_bounded parallelogram p, InBox box t := by
  classical
  let boxes := parallelograms key key_size key_left key_right left_bounded right_bounded parallelogram p
  let callback : (Nat → Range V) → Except String Bool := fun b => if b ∈ boxes then .ok false else .error ""
  have hfalse : forAnyParallelogram key key_size key_left key_right callback left_bounded right_bounded
      parallelogram p = .ok false := by
    rw [forAnyParallelogram_eq_anyM]
    exact anyM_of_forall_false fun b hb => if_pos hb
  obtain ⟨box, hbox, hcb⟩ := forAnyParallelogram_cover key hd key_size key_left key_right t callback
    left_bounded right_bounded parallelogram p hfalse hP hl hr
  refine ⟨box, ?_, hbox⟩
  show box ∈ boxes
  by_contra hnot
  have herr : callback box = .error "" := if_neg hnot
  rw [herr] at hcb
  cases hcb

end Boxes

/-- The steps of `uint64Key` are exact. -/
theorem uint64Key_discrete : Range.Discrete uint64Key.next uint64Key.prev := by
  constructor
  · intro v w h x
    simp only [uint64Key, Option.ite_none_right_eq_some, Option.some.injEq] at h
    omega
  · intro v w h x
    simp only [uint64Key, Option.ite_none_left_eq_some, Option.some.injEq] at h
    omega

end ClickHouseGpu.MergeTree.Parallelograms
