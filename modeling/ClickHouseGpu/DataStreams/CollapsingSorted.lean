import ClickHouseGpu.DataStreams.MergingSorted
import Mathlib.Data.List.Chain

/-
  ClickHouseGpu.DataStreams.CollapsingSorted — `CollapsingSortedBlockInputStream`, the merge of
  the sorted parts of a `CollapsingMergeTree` (DataStreams/CollapsingSortedBlockInputStream.cpp).

  A row is a value of `ρ`, with its sort key `key : ρ → κ` and its `Int8` sign. The queue pops the
  rows of the parts in the order of the k-way merge (`KMerge.kmerge`, ties by part), each with the
  number of its part. For the rows of one key `merge` counts the positive and the negative rows
  and keeps the first negative, the last positive and whether the last row was positive;
  `insertRows` writes, when the key changes and after the last row, the rows that the class
  comment lists (`collapseKey`). When every key collapsed and nothing was written, the last call
  writes the last positive and the last negative row of the stream instead. A sign other than 1
  and -1 throws. A block full at a new key (`merged_rows >= max_block_size`) is returned with
  that row left in the queue, and the key's state stays for the next `readImpl`. With
  `out_row_sources_buf`, each row of a key gets a `RowSourcePart` with the skip flag set, and
  `insertRows` clears the flag of each row it writes before it writes them out.

  The abstract model: `collapseKey` collapses the rows of one key as the class comment says. On a
  key whose rows alternate in sign it keeps the first row if negative and the last if positive
  (`collapseKey_of_alternating`). `Reduces rows out` says that `out` stands for the run `rows` when
  runs are collapsed; it is kept by concatenation (`Reduces.flatten`), so collapsing the collapsed
  runs of a key is collapsing its rows (`collapseKey_flatMap`).

  Proved:
  - `collapse_collapsed`: on sorted parts of signs 1 and -1 the stream gives `Collapsed`: in key
    order, for each key what `collapseKey` keeps of its rows in the order of the merge, or, when
    every key collapsed, the last positive and the last negative row. `Collapsed.unique`: that
    determines the output.
  - `collapse_flatten`: collapsing the results of groups of the parts is collapsing all of them,
    when each key's rows alternate in sign and some key keeps a row; a group that collapsed
    entirely gives a pair that stands for its last key (`Collapsed.reduces`).
  - `collapsing_regrouped_keeps_other_row`: counts that differ by at most one in every group do
    not suffice.
-/

namespace ClickHouseGpu.DataStreams

open KMerge

namespace CollapsingSorted

/-! ## The rows of one key -/

section Key

variable {α : Type} (pos : α → Bool)

/-- The first negative row. -/
def firstNegative (rows : List α) : Option α := rows.find? (!pos ·)

/-- The last positive row. -/
def lastPositive (rows : List α) : Option α := rows.reverse.find? pos

/-- The last negative row. -/
def lastNegative (rows : List α) : Option α := rows.reverse.find? (!pos ·)

/-- The rows of one key, collapsed as the class comment says: as many positive as negative rows
    give the first negative and the last positive row when the last row is positive, and nothing
    when it is negative; one more positive row gives the last positive, one more negative row the
    first negative. Beyond that (the "logical error" of the comment, which the stream reports)
    the side with more rows gives its row. -/
def collapseKey (rows : List α) : List α :=
  if rows.countP pos = rows.countP (!pos ·) then
    if rows.getLast?.any pos then (firstNegative pos rows).toList ++ (lastPositive pos rows).toList else []
  else if rows.countP pos < rows.countP (!pos ·) then (firstNegative pos rows).toList
  else (lastPositive pos rows).toList

/-- Consecutive rows have opposite signs. -/
def Alternating (rows : List α) : Prop := rows.IsChain fun a b => pos a ≠ pos b

/-- The first row, if negative. -/
def headNeg (rows : List α) : Option α := rows.head?.filter (!pos ·)

/-- The last row, if positive. -/
def lastPos (rows : List α) : Option α := rows.getLast?.filter pos

end Key

section Ends

variable {α : Type} {pos : α → Bool}

theorem firstNegative_concat (l : List α) (x : α) :
    firstNegative pos (l ++ [x]) = (firstNegative pos l).or (if pos x then none else some x) := by
  cases hx : pos x <;> simp [firstNegative, List.find?_append, hx]

theorem lastPositive_concat (l : List α) (x : α) :
    lastPositive pos (l ++ [x]) = if pos x then some x else lastPositive pos l := by
  cases hx : pos x <;> simp [lastPositive, hx]

theorem lastNegative_concat (l : List α) (x : α) :
    lastNegative pos (l ++ [x]) = if pos x then lastNegative pos l else some x := by
  cases hx : pos x <;> simp [lastNegative, hx]

theorem lastPositive_append (l l' : List α) :
    lastPositive pos (l ++ l') = (lastPositive pos l').or (lastPositive pos l) := by
  simp [lastPositive, List.find?_append]

theorem firstNegative_isSome {l : List α} : (firstNegative pos l).isSome ↔ 0 < l.countP (!pos ·) := by
  rw [firstNegative, List.find?_isSome, List.countP_pos_iff]

theorem lastPositive_isSome {l : List α} : (lastPositive pos l).isSome ↔ 0 < l.countP pos := by
  rw [lastPositive, List.find?_isSome, List.countP_pos_iff]
  simp

variable (pos) in
/-- Every row has one of the two signs. -/
theorem countP_add_countP_neg (l : List α) : l.countP pos + l.countP (!pos ·) = l.length := by
  rw [List.length_eq_countP_add_countP pos]
  simp

/-- A key's rows collapse away when there are as many positive as negative rows and the last is
    negative. -/
theorem collapseKey_eq_nil_iff {l : List α} (hne : l ≠ []) :
    collapseKey pos l = [] ↔ l.countP pos = l.countP (!pos ·) ∧ l.getLast?.any pos = false := by
  have hlen := countP_add_countP_neg pos l
  have hpos := List.length_pos_of_ne_nil hne
  have hneg : l.countP pos ≤ l.countP (!pos ·) → (firstNegative pos l).toList ≠ [] := fun h => by
    simpa [Option.isSome_iff_ne_none] using firstNegative_isSome.mpr (by omega)
  have hposi : l.countP (!pos ·) ≤ l.countP pos → (lastPositive pos l).toList ≠ [] := fun h => by
    simpa [Option.isSome_iff_ne_none] using lastPositive_isSome.mpr (by omega)
  unfold collapseKey
  split_ifs with h₁ h₂ h₃
  · exact iff_of_false (fun h => hneg h₁.le (List.append_eq_nil_iff.mp h).1) fun h => by simp [h₂] at h
  · exact iff_of_true rfl ⟨h₁, by simpa using h₂⟩
  · exact iff_of_false (hneg h₃.le) fun h => h₁ h.1
  · exact iff_of_false (hposi (by omega)) fun h => h₁ h.1

/-- Unless it collapses away, a key keeps its first negative row when it has at least as many
    negative rows, and its last positive row when it has at least as many positive rows. -/
theorem collapseKey_eq_kept {l : List α} (hk : ¬ (l.countP pos = l.countP (!pos ·) ∧ l.getLast?.any pos = false)) :
    collapseKey pos l =
      (if l.countP pos ≤ l.countP (!pos ·) then (firstNegative pos l).toList else []) ++
        (if l.countP pos ≥ l.countP (!pos ·) then (lastPositive pos l).toList else []) := by
  unfold collapseKey
  rcases lt_trichotomy (l.countP pos) (l.countP (!pos ·)) with h | h | h
  · rw [if_neg h.ne, if_pos h, if_pos h.le, if_neg (not_le.mpr h), List.append_nil]
  · have hlast : l.getLast?.any pos = true := by simpa [h] using hk
    rw [if_pos h, if_pos hlast, if_pos h.le, if_pos h.ge]
  · rw [if_neg h.ne', if_neg (not_lt.mpr h.le), if_neg (not_le.mpr h), if_pos h.le, List.nil_append]

end Ends

section Alternating

variable {α : Type} {pos : α → Bool}

theorem headNeg_append (l l' : List α) :
    headNeg pos (l ++ l') = if l = [] then headNeg pos l' else headNeg pos l := by
  cases l <;> simp [headNeg]

theorem lastPos_append (l l' : List α) :
    lastPos pos (l ++ l') = if l' = [] then lastPos pos l else lastPos pos l' := by
  rcases List.eq_nil_or_concat' l' with rfl | ⟨L, b, rfl⟩
  · simp
  · simp [lastPos, List.getLast?_append]

theorem headNeg_eq_none_iff {l : List α} : headNeg pos l = none ↔ ∀ a ∈ l.head?, pos a = true := by
  cases l <;> simp [headNeg]

theorem lastPos_eq_none_iff {l : List α} : lastPos pos l = none ↔ ∀ b ∈ l.getLast?, pos b = false := by
  rcases List.eq_nil_or_concat' l with rfl | ⟨L, b, rfl⟩ <;> simp [lastPos]

/-- In an alternating run the counts of the signs differ by the signs of its ends. -/
theorem count_of_alternating : ∀ {l : List α} {a b : α}, Alternating pos l → l.head? = some a →
    l.getLast? = some b →
    (l.countP pos : Int) - l.countP (!pos ·) = (if pos a then 1 else 0) + (if pos b then 1 else 0) - 1
  | [], _, _, _, ha, _ => by cases ha
  | [x], a, b, _, ha, hb => by
    simp only [List.head?_cons, Option.some.injEq, List.getLast?_singleton] at ha hb
    subst ha hb
    cases hx : pos x <;> simp [hx]
  | x :: y :: l, a, b, halt, ha, hb => by
    obtain ⟨hxy, hrest⟩ := List.isChain_cons_cons.mp halt
    simp only [List.head?_cons, Option.some.injEq] at ha
    subst ha
    have ih := count_of_alternating hrest rfl (by rwa [List.getLast?_cons_cons] at hb)
    simp only [List.countP_cons] at ih ⊢
    -- `x` and `y` have opposite signs
    cases hx : pos x <;> cases hy : pos y <;> simp [hx, hy] at hxy ih ⊢ <;> omega

/-- An alternating run collapses to its first row if negative and its last row if positive. -/
theorem collapseKey_of_alternating {l : List α} (h : Alternating pos l) :
    collapseKey pos l = (headNeg pos l).toList ++ (lastPos pos l).toList := by
  rcases List.eq_nil_or_concat' l with rfl | ⟨L, b, rfl⟩
  · simp [collapseKey, headNeg, lastPos]
  obtain ⟨a, ha⟩ : ∃ a, (L ++ [b]).head? = some a := Option.ne_none_iff_exists'.mp (by simp)
  have hcount := count_of_alternating h ha (List.getLast?_concat)
  obtain ⟨t, ht⟩ : ∃ t, L ++ [b] = a :: t := by
    cases hL : L ++ [b] with
    | nil => simp at hL
    | cons x t => rw [hL] at ha; cases ha; exact ⟨t, rfl⟩
  have hfirst : pos a = false → firstNegative pos (L ++ [b]) = some a := fun hpa => by
    simp [firstNegative, ht, hpa]
  have hlast : pos b = true → lastPositive pos (L ++ [b]) = some b := fun hpb => by
    simp [lastPositive, hpb]
  have hhead : headNeg pos (L ++ [b]) = if pos a then none else some a := by
    rw [headNeg, ha]
    cases hpa : pos a <;> simp [hpa]
  have hlastPos : lastPos pos (L ++ [b]) = if pos b then some b else none := by
    simp only [lastPos, List.getLast?_concat]
    cases hpb : pos b <;> simp [hpb]
  rw [hhead, hlastPos, collapseKey]
  -- the four cases of the ends' signs
  cases hpa : pos a <;> cases hpb : pos b <;>
    simp only [hpa, hpb, Bool.false_eq_true, if_true, if_false] at hcount
  · rw [if_neg (by omega), if_pos (by omega), hfirst hpa]
    rfl
  · rw [if_pos (by omega), List.getLast?_concat, Option.any_some, hpb, if_pos rfl, hfirst hpa, hlast hpb]
    rfl
  · rw [if_pos (by omega), List.getLast?_concat, Option.any_some, hpb]
    rfl
  · rw [if_neg (by omega), if_neg (by omega), hlast hpb]
    rfl

/-- What an alternating run collapses to starts and ends as the run does. -/
theorem headNeg_collapseKey {l : List α} (h : Alternating pos l) :
    headNeg pos (collapseKey pos l) = headNeg pos l := by
  rw [collapseKey_of_alternating h]
  cases hh : headNeg pos l with
  | some a =>
    have ha : pos a = false := by
      simp only [headNeg, Option.filter_eq_some_iff, Bool.not_eq_eq_eq_not, Bool.not_true] at hh
      exact hh.2
    simp [headNeg, ha]
  | none =>
    cases hl : lastPos pos l with
    | none => rfl
    | some b =>
      have hb : pos b = true := by
        simp only [lastPos, Option.filter_eq_some_iff] at hl
        exact hl.2
      simp [headNeg, hb]

theorem lastPos_collapseKey {l : List α} (h : Alternating pos l) :
    lastPos pos (collapseKey pos l) = lastPos pos l := by
  rw [collapseKey_of_alternating h]
  cases hl : lastPos pos l with
  | some b =>
    have hb : pos b = true := by
      simp only [lastPos, Option.filter_eq_some_iff] at hl
      exact hl.2
    cases headNeg pos l <;> simp [lastPos, hb]
  | none =>
    cases hh : headNeg pos l with
    | none => rfl
    | some a =>
      have ha : pos a = false := by
        simp only [headNeg, Option.filter_eq_some_iff, Bool.not_eq_eq_eq_not, Bool.not_true] at hh
        exact hh.2
      simp [lastPos, ha]

theorem alternating_collapseKey {l : List α} (h : Alternating pos l) : Alternating pos (collapseKey pos l) := by
  rw [collapseKey_of_alternating h]
  cases hh : headNeg pos l with
  | none => cases lastPos pos l <;> simp [Alternating]
  | some a =>
    cases hl : lastPos pos l with
    | none => simp [Alternating]
    | some b =>
      -- a negative first row and a positive last row
      have ha : pos a = false := by
        simp only [headNeg, Option.filter_eq_some_iff, Bool.not_eq_eq_eq_not, Bool.not_true] at hh
        exact hh.2
      have hb : pos b = true := by
        simp only [lastPos, Option.filter_eq_some_iff] at hl
        exact hl.2
      simp [Alternating, ha, hb]

variable (pos) in
/-- `out` stands for the run `rows` when runs are collapsed: it alternates, it starts on the run's
    first row if that is negative (and on a positive row otherwise), it ends on the run's last row
    if that is positive (and on a negative row otherwise), and it is empty when the run is. -/
structure Reduces (rows out : List α) : Prop where
  alternating : Alternating pos out
  headNeg_eq : headNeg pos out = headNeg pos rows
  lastPos_eq : lastPos pos out = lastPos pos rows
  nil : rows = [] → out = []

/-- An alternating run stands for itself, and so does what it collapses to. -/
theorem reduces_collapseKey {l : List α} (h : Alternating pos l) : Reduces pos l (collapseKey pos l) where
  alternating := alternating_collapseKey h
  headNeg_eq := headNeg_collapseKey h
  lastPos_eq := lastPos_collapseKey h
  nil hl := by
    subst hl
    simp [collapseKey]

/-- An alternating run that collapses away starts positive and ends negative. -/
theorem ends_of_collapseKey_eq_nil {l : List α} (h : Alternating pos l) (hc : collapseKey pos l = []) :
    headNeg pos l = none ∧ lastPos pos l = none := by
  rw [collapseKey_of_alternating h, List.append_eq_nil_iff] at hc
  exact ⟨Option.toList_eq_nil_iff.mp hc.1, Option.toList_eq_nil_iff.mp hc.2⟩

/-- A run that collapses away stands for nothing. -/
theorem reduces_nil {l : List α} (hh : headNeg pos l = none) (hl : lastPos pos l = none) : Reduces pos l [] where
  alternating := List.isChain_nil
  headNeg_eq := hh.symm
  lastPos_eq := hl.symm
  nil _ := rfl

/-- The last row of what stands for a run has the sign of the run's last row. -/
theorem Reduces.getLast_sign {l o : List α} (h : Reduces pos l o) {x : α} (hx : x ∈ o.getLast?) :
    ∃ u ∈ l.getLast?, pos u = pos x := by
  cases hpx : pos x
  · -- a negative end: the run does not end on a positive row, and is not empty
    have hl : lastPos pos l = none := by
      rw [← h.lastPos_eq, lastPos_eq_none_iff]
      intro b hb
      rw [Option.mem_def, Option.mem_def.mp hx, Option.some.injEq] at hb
      rw [← hb, hpx]
    cases hu : l.getLast? with
    | none =>
      rw [h.nil (List.getLast?_eq_none_iff.mp hu)] at hx
      cases hx
    | some u => exact ⟨u, rfl, lastPos_eq_none_iff.mp hl u hu⟩
  · -- a positive end is the run's last row
    have hl : lastPos pos l = some x := by
      rw [← h.lastPos_eq, lastPos, Option.mem_def.mp hx]
      simp [hpx]
    simp only [lastPos, Option.filter_eq_some_iff] at hl
    exact ⟨x, hl.1, hpx⟩

/-- The first row of what stands for a run has the sign of the run's first row. -/
theorem Reduces.head_sign {l o : List α} (h : Reduces pos l o) {y : α} (hy : y ∈ o.head?) :
    ∃ v ∈ l.head?, pos v = pos y := by
  cases hpy : pos y
  · -- a negative start is the run's first row
    have hh : headNeg pos l = some y := by
      rw [← h.headNeg_eq, headNeg, Option.mem_def.mp hy]
      simp [hpy]
    simp only [headNeg, Option.filter_eq_some_iff] at hh
    exact ⟨y, hh.1, hpy⟩
  · -- a positive start: the run does not start on a negative row, and is not empty
    have hh : headNeg pos l = none := by
      rw [← h.headNeg_eq, headNeg_eq_none_iff]
      intro a ha
      rw [Option.mem_def, Option.mem_def.mp hy, Option.some.injEq] at ha
      rw [← ha, hpy]
    cases hv : l.head? with
    | none =>
      rw [h.nil (List.head?_eq_none_iff.mp hv)] at hy
      cases hy
    | some v => exact ⟨v, rfl, headNeg_eq_none_iff.mp hh v hv⟩

section Junction

variable {l₁ l₂ : List α} (hj : ∀ x ∈ l₁.getLast?, ∀ y ∈ l₂.head?, pos x ≠ pos y)
include hj

/-- After a run that ends on a negative row, the next run starts on a positive one. -/
theorem headNeg_eq_none_of_junction (hl : lastPos pos l₁ = none) (hne : l₁ ≠ []) : headNeg pos l₂ = none := by
  rw [headNeg_eq_none_iff]
  intro v hv
  obtain ⟨u, hu⟩ := Option.ne_none_iff_exists'.mp (mt List.getLast?_eq_none_iff.mp hne)
  have hsign := hj u hu v hv
  rw [lastPos_eq_none_iff.mp hl u hu] at hsign
  simpa using hsign.symm

/-- Before a run that starts on a positive row, the run ends on a negative one. -/
theorem lastPos_eq_none_of_junction (hh : headNeg pos l₂ = none) (hne : l₂ ≠ []) : lastPos pos l₁ = none := by
  rw [lastPos_eq_none_iff]
  intro u hu
  obtain ⟨v, hv⟩ := Option.ne_none_iff_exists'.mp (mt List.head?_eq_none_iff.mp hne)
  have hsign := hj u hu v hv
  rw [headNeg_eq_none_iff.mp hh v hv] at hsign
  simpa using hsign

/-- What stands for two runs, one after the other, stands for the two. -/
theorem Reduces.append {o₁ o₂ : List α} (h₁ : Reduces pos l₁ o₁) (h₂ : Reduces pos l₂ o₂) :
    Reduces pos (l₁ ++ l₂) (o₁ ++ o₂) where
  alternating := by
    refine List.IsChain.append h₁.alternating h₂.alternating fun x hx y hy => ?_
    obtain ⟨u, hu, hux⟩ := h₁.getLast_sign hx
    obtain ⟨v, hv, hvy⟩ := h₂.head_sign hy
    rw [← hux, ← hvy]
    exact hj u hu v hv
  headNeg_eq := by
    rw [headNeg_append, headNeg_append]
    by_cases ho : o₁ = []
    · -- the first run collapsed away, so the second starts positive
      rw [if_pos ho, h₂.headNeg_eq]
      by_cases hl : l₁ = []
      · rw [if_pos hl]
      · have hh₁ : headNeg pos l₁ = none := by rw [← h₁.headNeg_eq, ho]; rfl
        have hl₁ : lastPos pos l₁ = none := by rw [← h₁.lastPos_eq, ho]; rfl
        rw [if_neg hl, hh₁, headNeg_eq_none_of_junction hj hl₁ hl]
    · rw [if_neg ho, if_neg (mt h₁.nil ho), h₁.headNeg_eq]
  lastPos_eq := by
    rw [lastPos_append, lastPos_append]
    by_cases ho : o₂ = []
    · -- the second run collapsed away, so the first ends negative
      rw [if_pos ho, h₁.lastPos_eq]
      by_cases hl : l₂ = []
      · rw [if_pos hl]
      · have hh₂ : headNeg pos l₂ = none := by rw [← h₂.headNeg_eq, ho]; rfl
        have hl₂ : lastPos pos l₂ = none := by rw [← h₂.lastPos_eq, ho]; rfl
        rw [if_neg hl, hl₂, lastPos_eq_none_of_junction hj hh₂ hl]
    · rw [if_neg ho, if_neg (mt h₂.nil ho), h₂.lastPos_eq]
  nil hl := by
    obtain ⟨hl₁, hl₂⟩ := List.append_eq_nil_iff.mp hl
    rw [h₁.nil hl₁, h₂.nil hl₂, List.append_nil]

end Junction

/-- Runs that alternate when put one after another, each stood for: what stands for them, one after
    another, stands for their concatenation. -/
theorem Reduces.flatten : ∀ {ls os : List (List α)}, List.Forall₂ (Reduces pos) ls os → Alternating pos ls.flatten →
    Reduces pos ls.flatten os.flatten
  | [], [], .nil, _ => reduces_nil rfl rfl
  | l :: ls, o :: os, .cons h hs, halt => by
    rw [List.flatten_cons] at halt
    obtain ⟨-, hrest, hj⟩ := List.isChain_append.mp halt
    rw [List.flatten_cons, List.flatten_cons]
    exact Reduces.append hj h (Reduces.flatten hs hrest)

/-- What stands for an alternating run collapses as the run does. -/
theorem Reduces.collapseKey_eq {l o : List α} (h : Reduces pos l o) (hl : Alternating pos l) :
    collapseKey pos o = collapseKey pos l := by
  rw [collapseKey_of_alternating h.alternating, collapseKey_of_alternating hl, h.headNeg_eq, h.lastPos_eq]

/-- A run of runs that alternate one after another alternates. -/
theorem alternating_of_mem_flatten {gs : List (List α)} (h : Alternating pos gs.flatten) {g : List α}
    (hg : g ∈ gs) : Alternating pos g := by
  obtain ⟨s, t, rfl⟩ := List.append_of_mem hg
  exact List.IsChain.infix h ⟨s.flatten, t.flatten, by simp⟩

/-- Collapsing the collapsed runs of one key is collapsing the key's rows, when they alternate. -/
theorem collapseKey_flatMap {gs : List (List α)} (h : Alternating pos gs.flatten) :
    collapseKey pos (gs.flatMap (collapseKey pos)) = collapseKey pos gs.flatten := by
  have hruns : List.Forall₂ (Reduces pos) gs (gs.map (collapseKey pos)) := by
    rw [List.forall₂_map_right_iff]
    apply List.forall₂_same.mpr
    intro g hg
    exact reduces_collapseKey (alternating_of_mem_flatten h hg)
  rw [List.flatMap_def]
  exact (Reduces.flatten hruns h).collapseKey_eq h

/-- A collapsed row is a row of the key. -/
theorem mem_of_mem_collapseKey {l : List α} {x : α} (hx : x ∈ collapseKey pos l) : x ∈ l := by
  unfold collapseKey firstNegative lastPositive at hx
  split_ifs at hx <;> simp only [List.mem_append, Option.mem_toList, List.not_mem_nil] at hx
  all_goals first
    | exact List.mem_of_find?_eq_some hx
    | exact List.mem_reverse.mp (List.mem_of_find?_eq_some hx)
    | rcases hx with hx | hx
      · exact List.mem_of_find?_eq_some hx
      · exact List.mem_reverse.mp (List.mem_of_find?_eq_some hx)

end Alternating

/-! ## The stream -/

variable {ρ κ : Type}

/-- The arguments of `CollapsingSortedBlockInputStream`. -/
structure Params (ρ κ : Type) where
  /-- The sort description. -/
  key : ρ → κ
  /-- The `Int8` of `sign_column`. -/
  sign : ρ → Int8
  max_block_size : Nat
  /-- Whether `out_row_sources_buf` is given. -/
  out_row_sources : Bool

/-- The state of the stream between two rows. The row references `first_negative`,
    `last_positive` and `last_negative` are empty before their first row. -/
structure State (ρ κ : Type) where
  /-- `current_key`, empty before the first row. -/
  current_key : Option κ
  first_negative : Option ρ
  last_positive : Option ρ
  last_negative : Option ρ
  count_positive : Nat
  count_negative : Nat
  last_is_positive : Bool
  blocks_written : Nat
  current_pos : Nat
  first_negative_pos : Nat
  last_positive_pos : Nat
  last_negative_pos : Nat
  current_row_sources : List RowSourcePart
  /-- What `out_row_sources_buf` holds. -/
  row_sources : List RowSourcePart
  finished : Bool

/-- The stream before its first `read()`. -/
def State.init : State ρ κ := ⟨none, none, none, none, 0, 0, false, 0, 0, 0, 0, 0, [], [], false⟩

section Stream

variable [LinearOrder κ] (p : Params ρ κ)

/-- `sign == 1`. -/
def positive (r : ρ) : Bool := p.sign r == 1

/-- `current_row_sources[pos].setSkipFlag(false)`, with `out_row_sources_buf`. -/
def unskip (s : State ρ κ) (pos : Nat) : State ρ κ :=
  if p.out_row_sources then { s with current_row_sources := s.current_row_sources.modify pos (·.setSkipFlag false) }
  else s

/-- `insertRows(merged_columns, merged_rows, last_in_stream)`: the rows the current key keeps,
    their skip flags cleared, and the key's row sources written out. -/
def insertRows (s : State ρ κ) (merged : List ρ) (merged_rows : Nat) (last_in_stream : Bool) :
    State ρ κ × List ρ × Nat :=
  if s.count_positive = 0 ∧ s.count_negative = 0 then (s, merged, merged_rows)
  else
    let (s, merged, merged_rows) :=
      if s.count_positive = s.count_negative ∧ !s.last_is_positive then
        -- all the rows of the stream collapsed: still give one block
        if last_in_stream ∧ merged_rows = 0 ∧ s.blocks_written = 0 then
          (unskip p (unskip p s s.last_positive_pos) s.last_negative_pos,
            merged ++ s.last_positive.toList ++ s.last_negative.toList, merged_rows + 2)
        else (s, merged, merged_rows)
      else
        let (s, merged, merged_rows) :=
          if s.count_positive ≤ s.count_negative then
            (unskip p s s.first_negative_pos, merged ++ s.first_negative.toList, merged_rows + 1)
          else (s, merged, merged_rows)
        if s.count_positive ≥ s.count_negative then
          (unskip p s s.last_positive_pos, merged ++ s.last_positive.toList, merged_rows + 1)
        else (s, merged, merged_rows)
    (if p.out_row_sources then { s with row_sources := s.row_sources ++ s.current_row_sources } else s,
      merged, merged_rows)

/-- `key_differs`: `next_key != current_key`, where `current_key` is set to the row's own key on
    the first row. -/
def keyDiffers (s : State ρ κ) (current : ρ) : Bool := p.key current != s.current_key.getD (p.key current)

/-- The row `current` of part `order` joins the rows of its key: its row source with the skip
    flag set, and the counters and row references of its sign; a sign other than 1 and -1 throws. -/
def takeRow (s : State ρ κ) (merged_rows order : Nat) (current : ρ) : Except String (State ρ κ) :=
  -- `current_key.swap(next_key)` on a new key; otherwise `current_key` already equals the row's
  let s := { s with current_key := some (p.key current) }
  let s :=
    if p.out_row_sources then { s with current_row_sources := s.current_row_sources ++ [.ofSource order true] }
    else s
  if p.sign current = 1 then
    .ok { s with
      count_positive := s.count_positive + 1
      last_is_positive := true
      last_positive := some current
      last_positive_pos := s.current_pos
      current_pos := s.current_pos + 1 }
  else if p.sign current = -1 then
    let s := if s.count_negative = 0 then { s with first_negative := some current, first_negative_pos := s.current_pos } else s
    let s :=
      if s.blocks_written = 0 ∧ merged_rows = 0 then
        { s with last_negative := some current, last_negative_pos := s.current_pos }
      else s
    .ok { s with
      count_negative := s.count_negative + 1
      last_is_positive := false
      current_pos := s.current_pos + 1 }
  else .error ("Incorrect data: Sign = " ++ toString (p.sign current) ++ " (must be 1 or -1).")

/-- The state of a new key after `insertRows` of the previous one. -/
def resetKey (s : State ρ κ) : State ρ κ :=
  { s with
    count_negative := 0
    count_positive := 0
    current_pos := 0
    first_negative_pos := 0
    last_positive_pos := 0
    last_negative_pos := 0
    current_row_sources := [] }

/-- The body of `merge`'s loop for a row popped: a new key writes the previous key's rows out,
    then the row joins its key. -/
def mergeRow (s : State ρ κ) (merged : List ρ) (merged_rows order : Nat) (current : ρ) :
    Except String (State ρ κ × List ρ × Nat) :=
  if keyDiffers p s current then
    let (s, merged, merged_rows) := insertRows p s merged merged_rows false
    (takeRow p (resetKey s) merged_rows order current).map fun s => (s, merged, merged_rows)
  else (takeRow p s merged_rows order current).map fun s => (s, merged, merged_rows)

/-- `merge`: the rows the queue pops, each with the number of its part, until the queue is empty
    (the last key's rows are written, and the stream is finished) or the block is full at a new
    key (the row stays in the queue, and `blocks_written` counts the block). -/
def merge (s : State ρ κ) (merged : List ρ) (merged_rows : Nat) :
    List (Nat × ρ) → Except String (State ρ κ × List ρ × List (Nat × ρ))
  | [] =>
    let (s, merged, _) := insertRows p s merged merged_rows true
    .ok ({ s with finished := true }, merged, [])
  | (order, current) :: queue =>
    if keyDiffers p s current && decide (p.max_block_size ≤ merged_rows) then
      .ok ({ s with blocks_written := s.blocks_written + 1 }, merged, (order, current) :: queue)
    else
      match mergeRow p s merged merged_rows order current with
      | .error e => .error e
      | .ok (s, merged, merged_rows) => merge s merged merged_rows queue

/-- `readImpl`: the next block, or `none` for the empty block that ends the stream; also when no
    part has a row (`merged_columns.empty()`). -/
def readImpl (s : State ρ κ) (queue : List (Nat × ρ)) :
    Except String (Option (List ρ) × State ρ κ × List (Nat × ρ)) :=
  if s.finished then .ok (none, s, queue)
  else if queue = [] then .ok (none, s, queue)
  else (merge p s [] 0 queue).map fun (s, merged, queue) => (some merged, s, queue)

/-- The rows of the blocks of `n` reads, or of the reads up to the end of the stream. -/
def readAll : Nat → State ρ κ → List (Nat × ρ) → Except String (List ρ × State ρ κ)
  | 0, s, _ => .ok ([], s)
  | n + 1, s, queue =>
    match readImpl p s queue with
    | .error e => .error e
    | .ok (none, s, _) => .ok ([], s)
    | .ok (some block, s, queue) => (readAll n s queue).map fun (rest, s) => (block ++ rest, s)

/-- The stream on the parts `parts`, read to its end: every block but the last holds a row. -/
def readParts (parts : List (List ρ)) : Except String (List ρ × State ρ κ) :=
  readAll p ((kmerge p.key parts).length + 1) State.init (kmerge p.key parts)

/-- The rows of `CollapsingSorted` on the parts `parts`. -/
def collapse (parts : List (List ρ)) : Except String (List ρ) := (readParts p parts).map Prod.fst

end Stream

/-! ## What each step does to the state -/

section Fields

variable {p : Params ρ κ} {s : State ρ κ} {merged : List ρ} {merged_rows order : Nat} {last_in_stream : Bool}
  {x : ρ}

/-- `insertRows` changes only the row sources. -/
theorem insertRows_frame : ∃ crs rs, (insertRows p s merged merged_rows last_in_stream).1 =
    { s with current_row_sources := crs, row_sources := rs } := by
  unfold insertRows unskip
  dsimp only
  split_ifs <;> cases p.out_row_sources <;> exact ⟨_, _, rfl⟩

theorem insertRows_of_nil (h : s.count_positive = 0 ∧ s.count_negative = 0) :
    insertRows p s merged merged_rows last_in_stream = (s, merged, merged_rows) := by
  rw [insertRows, if_pos h]

/-- Every key collapsed and nothing was given: the last positive and the last negative row. -/
theorem insertRows_all_collapsed (hne : ¬ (s.count_positive = 0 ∧ s.count_negative = 0))
    (hc : s.count_positive = s.count_negative ∧ s.last_is_positive = false)
    (hs : last_in_stream = true ∧ merged_rows = 0 ∧ s.blocks_written = 0) :
    (insertRows p s merged merged_rows last_in_stream).2 =
      (merged ++ s.last_positive.toList ++ s.last_negative.toList, merged_rows + 2) := by
  have hc' : s.count_positive = s.count_negative ∧ (!s.last_is_positive) = true := ⟨hc.1, by rw [hc.2]; rfl⟩
  unfold insertRows unskip
  rw [if_neg hne, if_pos hc', if_pos hs]

theorem insertRows_of_collapsed (hc : s.count_positive = s.count_negative ∧ s.last_is_positive = false)
    (hs : ¬ (last_in_stream = true ∧ merged_rows = 0 ∧ s.blocks_written = 0)) :
    (insertRows p s merged merged_rows last_in_stream).2 = (merged, merged_rows) := by
  have hc' : s.count_positive = s.count_negative ∧ (!s.last_is_positive) = true := ⟨hc.1, by rw [hc.2]; rfl⟩
  unfold insertRows
  by_cases hne : s.count_positive = 0 ∧ s.count_negative = 0
  · rw [if_pos hne]
  · rw [if_neg hne, if_pos hc', if_neg hs]

theorem insertRows_of_kept (hne : ¬ (s.count_positive = 0 ∧ s.count_negative = 0))
    (hk : ¬ (s.count_positive = s.count_negative ∧ s.last_is_positive = false)) :
    (insertRows p s merged merged_rows last_in_stream).2 =
      (merged ++ (if s.count_positive ≤ s.count_negative then s.first_negative.toList else []) ++
          (if s.count_positive ≥ s.count_negative then s.last_positive.toList else []),
        merged_rows + (if s.count_positive ≤ s.count_negative then 1 else 0) +
          (if s.count_positive ≥ s.count_negative then 1 else 0)) := by
  have hk' : ¬ (s.count_positive = s.count_negative ∧ (!s.last_is_positive) = true) := by simpa using hk
  unfold insertRows unskip
  simp only [if_neg hne, if_neg hk']
  by_cases h₁ : s.count_positive ≤ s.count_negative <;> by_cases h₂ : s.count_negative ≤ s.count_positive <;>
    cases p.out_row_sources <;> simp [h₁, h₂]

theorem takeRow_of_positive (h : p.sign x = 1) :
    takeRow p s merged_rows order x = .ok { s with
      current_key := some (p.key x)
      current_row_sources :=
        if p.out_row_sources then s.current_row_sources ++ [.ofSource order true] else s.current_row_sources
      count_positive := s.count_positive + 1
      last_is_positive := true
      last_positive := some x
      last_positive_pos := s.current_pos
      current_pos := s.current_pos + 1 } := by
  unfold takeRow
  rw [if_pos h]
  cases p.out_row_sources <;> rfl

theorem takeRow_of_negative (h : p.sign x = -1) :
    takeRow p s merged_rows order x = .ok { s with
      current_key := some (p.key x)
      current_row_sources :=
        if p.out_row_sources then s.current_row_sources ++ [.ofSource order true] else s.current_row_sources
      first_negative := if s.count_negative = 0 then some x else s.first_negative
      first_negative_pos := if s.count_negative = 0 then s.current_pos else s.first_negative_pos
      last_negative := if s.blocks_written = 0 ∧ merged_rows = 0 then some x else s.last_negative
      last_negative_pos := if s.blocks_written = 0 ∧ merged_rows = 0 then s.current_pos else s.last_negative_pos
      count_negative := s.count_negative + 1
      last_is_positive := false
      current_pos := s.current_pos + 1 } := by
  unfold takeRow
  rw [if_neg (by rw [h]; decide), if_pos h]
  cases p.out_row_sources <;> dsimp only <;> split_ifs <;> rfl

/-- A sign other than 1 and -1 throws, and the message names the sign. -/
theorem takeRow_of_incorrect (h₁ : p.sign x ≠ 1) (h₂ : p.sign x ≠ -1) :
    takeRow p s merged_rows order x =
      .error ("Incorrect data: Sign = " ++ toString (p.sign x) ++ " (must be 1 or -1).") := by
  unfold takeRow
  rw [if_neg h₁, if_neg h₂]

theorem takeRow_ok (h : p.sign x = 1 ∨ p.sign x = -1) : ∃ s', takeRow p s merged_rows order x = .ok s' := by
  rcases h with h | h
  · exact ⟨_, takeRow_of_positive h⟩
  · exact ⟨_, takeRow_of_negative h⟩

/-- A row taken sets the current key and leaves the blocks, the end and the row sources written. -/
theorem takeRow_frame {s' : State ρ κ} (hs' : takeRow p s merged_rows order x = .ok s') :
    s'.current_key = some (p.key x) ∧ s'.blocks_written = s.blocks_written ∧ s'.finished = s.finished := by
  by_cases h₁ : p.sign x = 1
  · rw [takeRow_of_positive h₁, Except.ok.injEq] at hs'
    subst hs'
    exact ⟨rfl, rfl, rfl⟩
  by_cases h₂ : p.sign x = -1
  · rw [takeRow_of_negative h₂, Except.ok.injEq] at hs'
    subst hs'
    exact ⟨rfl, rfl, rfl⟩
  · rw [takeRow_of_incorrect h₁ h₂] at hs'
    cases hs'

theorem positive_of_sign_one (h : p.sign x = 1) : positive p x = true := by
  rw [positive, h]
  rfl

theorem positive_of_sign_neg (h : p.sign x = -1) : positive p x = false := by
  rw [positive, h]
  rfl

end Fields

/-! ## What the stream gives -/

section Spec

variable [LinearOrder κ] (p : Params ρ κ)

/-- After the rows `done`, all written out, the stream has given `out`: in key order, for each key
    the rows `collapseKey` keeps of its rows. -/
structure Flushed (done : List (Nat × ρ)) (out : List ρ) : Prop where
  sorted : SortedKey p.key out
  keys : ∀ k, out.filter (fun x => p.key x = k) =
    collapseKey (positive p) ((done.map Prod.snd).filter fun x => p.key x = k)

/-- What the stream gives on the rows `rows` of the merge: in key order, for each key the rows
    `collapseKey` keeps of its rows; but when there are rows and no key keeps one, the last positive
    and the last negative row of all. -/
structure Collapsed (out rows : List ρ) : Prop where
  sorted : SortedKey p.key out
  keys : (∃ r ∈ rows, collapseKey (positive p) (rows.filter fun x => p.key x = p.key r) ≠ []) →
    ∀ k, out.filter (fun x => p.key x = k) = collapseKey (positive p) (rows.filter fun x => p.key x = k)
  all_collapsed : (∀ r ∈ rows, collapseKey (positive p) (rows.filter fun x => p.key x = p.key r) = []) →
    out = (lastPositive (positive p) rows).toList ++ (lastNegative (positive p) rows).toList

variable {p}

/-- A row given out is a row of its key. -/
theorem Flushed.mem {done : List (Nat × ρ)} {out : List ρ} (h : Flushed p done out) {x : ρ} (hx : x ∈ out) :
    x ∈ (done.map Prod.snd).filter (fun y => p.key y = p.key x) := by
  have hmem : x ∈ out.filter (fun y => p.key y = p.key x) := List.mem_filter.mpr ⟨hx, by simp⟩
  rw [h.keys] at hmem
  exact mem_of_mem_collapseKey hmem

/-- Once a row was given out, the output is the rows each key keeps. -/
theorem Flushed.collapsed {done : List (Nat × ρ)} {out : List ρ} (h : Flushed p done out) (hne : out ≠ []) :
    Collapsed p out (done.map Prod.snd) where
  sorted := h.sorted
  keys _ := h.keys
  all_collapsed hall := by
    obtain ⟨x, hx⟩ := List.exists_mem_of_ne_nil out hne
    have hmem : x ∈ out.filter (fun y => p.key y = p.key x) := List.mem_filter.mpr ⟨hx, by simp⟩
    rw [h.keys, hall x (List.mem_filter.mp (h.mem hx)).1] at hmem
    cases hmem

theorem collapsed_nil : Collapsed p [] [] where
  sorted := .nil
  keys hkeep := absurd hkeep (by simp)
  all_collapsed _ := rfl

/-- The output on given rows is determined by them. -/
theorem Collapsed.unique {out out' rows : List ρ} (h : Collapsed p out rows) (h' : Collapsed p out' rows) :
    out = out' := by
  by_cases hkeep : ∃ r ∈ rows, collapseKey (positive p) (rows.filter fun x => p.key x = p.key r) ≠ []
  · exact SortedKey.eq_of_filter_key_eq h.sorted h'.sorted fun k => (h.keys hkeep k).trans (h'.keys hkeep k).symm
  · have hall : ∀ r ∈ rows, collapseKey (positive p) (rows.filter fun x => p.key x = p.key r) = [] :=
      fun r hr => not_not.mp fun hne => hkeep ⟨r, hr, hne⟩
    rw [h.all_collapsed hall, h'.all_collapsed hall]

end Spec

/-! ## The invariant -/

section Invariant

variable {p : Params ρ κ}

variable (p) in
/-- What the counters and the row references say of the rows `cur` of the current key, after the
    rows `done`, with `out` given so far. `last_negative` is kept only while nothing was given. -/
structure Counters (s : State ρ κ) (done cur : List (Nat × ρ)) (out : List ρ) : Prop where
  count_positive : s.count_positive = (cur.map Prod.snd).countP (positive p)
  count_negative : s.count_negative = (cur.map Prod.snd).countP (!positive p ·)
  last_is_positive : ∀ x ∈ (cur.map Prod.snd).getLast?, s.last_is_positive = positive p x
  first_negative : ∀ x ∈ firstNegative (positive p) (cur.map Prod.snd), s.first_negative = some x
  last_positive : s.last_positive = lastPositive (positive p) ((done ++ cur).map Prod.snd)
  last_negative : s.blocks_written = 0 → out = [] →
    s.last_negative = lastNegative (positive p) ((done ++ cur).map Prod.snd)
  not_finished : s.finished = false

variable {s : State ρ κ} {done cur : List (Nat × ρ)} {out : List ρ}

theorem Counters.first_negative_eq (h : Counters p s done cur out) (hn : 0 < s.count_negative) :
    s.first_negative = firstNegative (positive p) (cur.map Prod.snd) := by
  rw [h.count_negative, ← firstNegative_isSome] at hn
  obtain ⟨y, hy⟩ := Option.isSome_iff_exists.mp hn
  rw [hy, h.first_negative y hy]

theorem Counters.last_positive_eq (h : Counters p s done cur out) (hp : 0 < s.count_positive) :
    s.last_positive = lastPositive (positive p) (cur.map Prod.snd) := by
  rw [h.count_positive, ← lastPositive_isSome] at hp
  obtain ⟨y, hy⟩ := Option.isSome_iff_exists.mp hp
  rw [h.last_positive, List.map_append, lastPositive_append, hy]
  rfl

/-- The last row's sign, as `last_is_positive` keeps it. -/
theorem Counters.getLast_any (h : Counters p s done cur out) (hne : cur ≠ []) :
    (cur.map Prod.snd).getLast?.any (positive p) = s.last_is_positive := by
  have hne' : cur.map Prod.snd ≠ [] := by simpa using hne
  obtain ⟨y, hy⟩ := Option.ne_none_iff_exists'.mp (mt List.getLast?_eq_none_iff.mp hne')
  rw [hy, h.last_is_positive y hy]
  rfl

/-- A row of sign 1 or -1 joins the rows of the current key. `last_negative` follows the row when
    nothing was given yet. -/
theorem Counters.takeRow (h : Counters p s done cur out) {merged_rows order : Nat} {x : ρ}
    (hsign : p.sign x = 1 ∨ p.sign x = -1) (hcut : s.blocks_written = 0 → out = [] → merged_rows = 0)
    {s' : State ρ κ} (hs' : takeRow p s merged_rows order x = .ok s') :
    Counters p s' done (cur ++ [(order, x)]) out := by
  have hcur : (cur ++ [(order, x)]).map Prod.snd = cur.map Prod.snd ++ [x] := by simp
  have hall : (done ++ (cur ++ [(order, x)])).map Prod.snd = (done ++ cur).map Prod.snd ++ [x] := by simp
  rcases hsign with hx | hx
  · rw [takeRow_of_positive hx, Except.ok.injEq] at hs'
    subst hs'
    have hpx : positive p x = true := positive_of_sign_one hx
    refine ⟨?_, ?_, ?_, ?_, ?_, ?_, h.not_finished⟩
    · simp [h.count_positive, hpx]
    · simp [h.count_negative, hpx]
    · simp [hpx]
    · rw [hcur, firstNegative_concat, hpx]
      simpa using h.first_negative
    · rw [hall, lastPositive_concat, hpx]
      rfl
    · rw [hall, lastNegative_concat, hpx]
      exact h.last_negative
  · rw [takeRow_of_negative hx, Except.ok.injEq] at hs'
    subst hs'
    have hpx : positive p x = false := positive_of_sign_neg hx
    refine ⟨?_, ?_, ?_, ?_, ?_, ?_, h.not_finished⟩
    · simp [h.count_positive, hpx]
    · simp [h.count_negative, hpx]
    · simp [hpx]
    · -- the first negative row, unless the key already had one
      rw [hcur, firstNegative_concat, hpx]
      intro y hy
      by_cases hn : s.count_negative = 0
      · have hnone : firstNegative (positive p) (cur.map Prod.snd) = none := by
          rw [← Option.not_isSome_iff_eq_none, firstNegative_isSome, ← h.count_negative, hn]
          exact Nat.lt_irrefl 0
        rw [hnone] at hy
        simpa [hn] using hy
      · obtain ⟨z, hz⟩ := Option.isSome_iff_exists.mp
          (firstNegative_isSome.mpr (h.count_negative ▸ Nat.pos_of_ne_zero hn))
        rw [hz, Option.some_or, Option.mem_def, Option.some.injEq] at hy
        rw [if_neg hn, h.first_negative z hz, hy]
    · rw [hall, lastPositive_concat, hpx, h.last_positive]
      rfl
    · -- with nothing given yet, `merged_rows` is 0 and the row is the last negative one
      intro hb ho
      have hb' : s.blocks_written = 0 := hb
      rw [hall, lastNegative_concat, hpx]
      simp [hb', hcut hb' ho]

section Key

variable [LinearOrder κ]

variable (p) in
/-- Between two rows: of the rows popped, `done` are written out and `cur` are those of the
    current key. -/
structure Inv (s : State ρ κ) (done cur : List (Nat × ρ)) (out : List ρ) : Prop
    extends Flushed p done out, Counters p s done cur out where
  current_key : ∀ e ∈ cur, s.current_key = some (p.key e.2)
  cur_nil : cur = [] → done = [] ∧ s.current_key = none
  done_lt : ∀ e ∈ done, ∀ e' ∈ cur, p.key e.2 < p.key e'.2

theorem inv_init : Inv p State.init [] [] [] where
  sorted := .nil
  keys _ := by simp [collapseKey]
  count_positive := rfl
  count_negative := rfl
  last_is_positive := nofun
  first_negative := nofun
  last_positive := rfl
  last_negative _ _ := rfl
  not_finished := rfl
  current_key := nofun
  cur_nil _ := ⟨rfl, rfl⟩
  done_lt := nofun

/-- A row of the current key's. -/
theorem keyDiffers_eq_false (h : Inv p s done cur out) {x : ρ} (hx : keyDiffers p s x = false) :
    ∀ e ∈ cur, p.key e.2 = p.key x := by
  intro e he
  have hk := h.current_key e he
  simp only [keyDiffers, hk, Option.getD_some, bne_eq_false_iff_eq] at hx
  exact hx.symm

/-- A row of a new key: the current key has rows, none of the row's key. -/
theorem keyDiffers_eq_true (h : Inv p s done cur out) {x : ρ} (hx : keyDiffers p s x = true) :
    cur ≠ [] ∧ ∀ e ∈ cur, p.key e.2 ≠ p.key x := by
  refine ⟨fun hnil => ?_, fun e he => ?_⟩
  · simp [keyDiffers, (h.cur_nil hnil).2] at hx
  · have hk := h.current_key e he
    simp only [keyDiffers, hk, Option.getD_some, bne_iff_ne, ne_eq] at hx
    exact fun heq => hx heq.symm

/-- A row of the current key joins it. -/
theorem Inv.takeRow_same (h : Inv p s done cur out) {merged_rows order : Nat} {x : ρ}
    (hk : ∀ e ∈ cur, p.key e.2 = p.key x) (hsign : p.sign x = 1 ∨ p.sign x = -1)
    (hcut : s.blocks_written = 0 → out = [] → merged_rows = 0) {s' : State ρ κ}
    (hs' : takeRow p s merged_rows order x = .ok s') : Inv p s' done (cur ++ [(order, x)]) out where
  toFlushed := h.toFlushed
  toCounters := h.toCounters.takeRow hsign hcut hs'
  current_key e he := by
    rw [(takeRow_frame hs').1]
    rcases List.mem_append.mp he with he | he
    · rw [hk e he]
    · rw [List.mem_singleton.mp he]
  cur_nil hnil := absurd hnil (by simp)
  done_lt d hd e he := by
    rcases List.mem_append.mp he with he | he
    · exact h.done_lt d hd e he
    · rw [List.mem_singleton.mp he]
      by_cases hcur : cur = []
      · rw [(h.cur_nil hcur).1] at hd
        cases hd
      · obtain ⟨e', he'⟩ := List.exists_mem_of_ne_nil _ hcur
        rw [← hk e' he']
        exact h.done_lt d hd e' he'

/-- The first row of a key, after all the rows written out. -/
theorem Counters.takeRow_start (h : Counters p s done [] out) (hf : Flushed p done out) {merged_rows order : Nat}
    {x : ρ} (hlt : ∀ e ∈ done, p.key e.2 < p.key x) (hsign : p.sign x = 1 ∨ p.sign x = -1)
    (hcut : s.blocks_written = 0 → out = [] → merged_rows = 0) {s' : State ρ κ}
    (hs' : CollapsingSorted.takeRow p s merged_rows order x = .ok s') : Inv p s' done [(order, x)] out where
  toFlushed := hf
  toCounters := h.takeRow hsign hcut hs'
  current_key e he := by rw [List.mem_singleton.mp he, (takeRow_frame hs').1]
  cur_nil hnil := absurd hnil (by simp)
  done_lt d hd e he := by
    rw [List.mem_singleton.mp he]
    exact hlt d hd

/-- A new block: the counters stay, and `last_negative` is no longer followed. -/
theorem Inv.cut (h : Inv p s done cur out) : Inv p { s with blocks_written := s.blocks_written + 1 } done cur out where
  toFlushed := h.toFlushed
  count_positive := h.count_positive
  count_negative := h.count_negative
  last_is_positive := h.last_is_positive
  first_negative := h.first_negative
  last_positive := h.last_positive
  last_negative hb := absurd hb (Nat.succ_ne_zero _)
  not_finished := h.not_finished
  current_key := h.current_key
  cur_nil := h.cur_nil
  done_lt := h.done_lt

/-- Writing the current key out: what it keeps comes after what was given. -/
theorem Inv.flushed (h : Inv p s done cur out) :
    Flushed p (done ++ cur) (out ++ collapseKey (positive p) (cur.map Prod.snd)) := by
  cases cur with
  | nil => simpa [collapseKey] using h.toFlushed
  | cons e₀ cur' =>
    -- the current key's rows are all of the key of the first, after those written out
    have hkey : ∀ e ∈ e₀ :: cur', p.key e.2 = p.key e₀.2 := fun e he => by
      have hk := h.current_key e he
      rw [h.current_key e₀ List.mem_cons_self, Option.some.injEq] at hk
      exact hk.symm
    have hkept : ∀ y ∈ collapseKey (positive p) ((e₀ :: cur').map Prod.snd), p.key y = p.key e₀.2 := by
      intro y hy
      obtain ⟨e, he, rfl⟩ := List.mem_map.mp (mem_of_mem_collapseKey hy)
      exact hkey e he
    have hout : ∀ y ∈ out, p.key y < p.key e₀.2 := by
      intro y hy
      obtain ⟨e, he, hey⟩ := List.mem_map.mp (List.mem_filter.mp (h.mem hy)).1
      rw [← hey]
      exact h.done_lt e he e₀ List.mem_cons_self
    refine ⟨List.pairwise_append.mpr ⟨h.sorted, ?_, ?_⟩, fun k => ?_⟩
    · exact List.pairwise_of_forall_mem_list fun a ha b hb => ((hkept a ha).trans (hkept b hb).symm).le
    · intro a ha b hb
      rw [hkept b hb]
      exact (hout a ha).le
    · rw [List.filter_append, h.keys, List.map_append, List.filter_append]
      by_cases hk : k = p.key e₀.2
      · -- the key of the current rows: none before, all of them now
        subst hk
        have hdone : (done.map Prod.snd).filter (fun x => p.key x = p.key e₀.2) = [] := by
          rw [List.filter_eq_nil_iff]
          intro y hy hyk
          obtain ⟨e, he, rfl⟩ := List.mem_map.mp hy
          exact absurd (of_decide_eq_true hyk) (h.done_lt e he e₀ List.mem_cons_self).ne
        have hcur : ((e₀ :: cur').map Prod.snd).filter (fun x => p.key x = p.key e₀.2) = (e₀ :: cur').map Prod.snd := by
          rw [List.filter_eq_self]
          intro y hy
          obtain ⟨e, he, rfl⟩ := List.mem_map.mp hy
          simpa using hkey e he
        have hkeptall : (collapseKey (positive p) ((e₀ :: cur').map Prod.snd)).filter (fun x => p.key x = p.key e₀.2) =
            collapseKey (positive p) ((e₀ :: cur').map Prod.snd) := by
          rw [List.filter_eq_self]
          intro y hy
          simpa using hkept y hy
        rw [hdone, hcur, hkeptall, List.nil_append]
        simp [collapseKey]
      · -- another key: the current rows hold none of it
        have hcur : ((e₀ :: cur').map Prod.snd).filter (fun x => p.key x = k) = [] := by
          rw [List.filter_eq_nil_iff]
          intro y hy hyk
          obtain ⟨e, he, rfl⟩ := List.mem_map.mp hy
          exact hk ((of_decide_eq_true hyk).symm.trans (hkey e he))
        have hkeptnone : (collapseKey (positive p) ((e₀ :: cur').map Prod.snd)).filter (fun x => p.key x = k) = [] := by
          rw [List.filter_eq_nil_iff]
          intro y hy hyk
          exact hk ((of_decide_eq_true hyk).symm.trans (hkept y hy))
        rw [hcur, hkeptnone, List.append_nil, List.append_nil]

/-- Writing the current key out gives what `collapseKey` keeps of its rows, unless it is the end of
    a stream that gave nothing and every key collapsed. -/
theorem Inv.insertRows_eq (h : Inv p s done cur out) {merged : List ρ} {merged_rows : Nat} {last_in_stream : Bool}
    (hs : last_in_stream = true ∧ merged_rows = 0 ∧ s.blocks_written = 0 → cur ≠ [] →
      collapseKey (positive p) (cur.map Prod.snd) ≠ []) :
    (insertRows p s merged merged_rows last_in_stream).2 =
      (merged ++ collapseKey (positive p) (cur.map Prod.snd),
        merged_rows + (collapseKey (positive p) (cur.map Prod.snd)).length) := by
  by_cases hcur : cur = []
  · subst hcur
    rw [insertRows_of_nil ⟨h.count_positive, h.count_negative⟩]
    simp [collapseKey]
  have hne : cur.map Prod.snd ≠ [] := by simpa using hcur
  have hlen := countP_add_countP_neg (positive p) (cur.map Prod.snd)
  have hlen0 := List.length_pos_of_ne_nil hne
  rw [← h.count_positive, ← h.count_negative] at hlen
  have hzero : ¬ (s.count_positive = 0 ∧ s.count_negative = 0) := by omega
  by_cases hk : collapseKey (positive p) (cur.map Prod.snd) = []
  · -- the key collapses away: nothing is written
    have hc := (collapseKey_eq_nil_iff hne).mp hk
    rw [h.getLast_any hcur, ← h.count_positive, ← h.count_negative] at hc
    have hs' : ¬ (last_in_stream = true ∧ merged_rows = 0 ∧ s.blocks_written = 0) := fun hl => hs hl hcur hk
    rw [insertRows_of_collapsed hc hs', hk]
    simp
  · -- the key keeps its first negative and its last positive row, as the counts say
    have hc := mt (collapseKey_eq_nil_iff hne).mpr hk
    rw [collapseKey_eq_kept hc]
    rw [h.getLast_any hcur, ← h.count_positive, ← h.count_negative] at hc
    rw [insertRows_of_kept hzero hc, ← h.count_positive, ← h.count_negative]
    have hfn : 0 < s.count_negative → ∃ y, s.first_negative = some y ∧
        firstNegative (positive p) (cur.map Prod.snd) = some y := fun hn => by
      obtain ⟨y, hy⟩ := Option.isSome_iff_exists.mp (firstNegative_isSome.mpr (h.count_negative ▸ hn))
      exact ⟨y, h.first_negative y hy, hy⟩
    have hlp : 0 < s.count_positive → ∃ y, s.last_positive = some y ∧
        lastPositive (positive p) (cur.map Prod.snd) = some y := fun hp => by
      obtain ⟨y, hy⟩ := Option.isSome_iff_exists.mp (lastPositive_isSome.mpr (h.count_positive ▸ hp))
      exact ⟨y, (h.last_positive_eq hp).trans hy, hy⟩
    by_cases h₁ : s.count_positive ≤ s.count_negative <;> by_cases h₂ : s.count_negative ≤ s.count_positive
    · obtain ⟨y, hy, hy'⟩ := hfn (by omega)
      obtain ⟨z, hz, hz'⟩ := hlp (by omega)
      simp [h₁, h₂, hy, hy', hz, hz']
    · obtain ⟨y, hy, hy'⟩ := hfn (by omega)
      simp [h₁, h₂, hy, hy']
    · obtain ⟨z, hz, hz'⟩ := hlp (by omega)
      simp [h₁, h₂, hz, hz']
    · omega

/-- After the current key is written out and the counters are reset, no row is of the next key. -/
theorem Inv.counters_reset (h : Inv p s done cur out) {merged : List ρ} {merged_rows : Nat} :
    Counters p (resetKey (insertRows p s merged merged_rows false).1) (done ++ cur) []
      (out ++ collapseKey (positive p) (cur.map Prod.snd)) := by
  obtain ⟨crs, rs, hs₁⟩ : ∃ crs rs, (insertRows p s merged merged_rows false).1 =
      { s with current_row_sources := crs, row_sources := rs } := insertRows_frame
  rw [hs₁]
  exact {
    count_positive := rfl
    count_negative := rfl
    last_is_positive := nofun
    first_negative := nofun
    last_positive := by
      rw [List.append_nil]
      exact h.last_positive
    last_negative := fun hb ho => by
      rw [List.append_nil]
      exact h.last_negative hb (List.append_eq_nil_iff.mp ho).1
    not_finished := h.not_finished }

/-- The end of the stream: every key is written out; when every key collapsed and nothing was
    given, the last positive and the last negative row instead. -/
theorem Inv.finish (h : Inv p s done cur out) {pre merged : List ρ} {merged_rows : Nat}
    (hout : out = pre ++ merged) (hm : merged_rows = merged.length) (hb : s.blocks_written = 0 ↔ pre = [])
    (hsorted : SortedKey p.key ((done ++ cur).map Prod.snd)) :
    Collapsed p (pre ++ (insertRows p s merged merged_rows true).2.1) ((done ++ cur).map Prod.snd) := by
  have hnil_iff : s.blocks_written = 0 ∧ merged_rows = 0 ↔ out = [] := by
    rw [hout, hb, hm, List.length_eq_zero_iff, List.append_eq_nil_iff]
  by_cases hspecial : s.blocks_written = 0 ∧ merged_rows = 0 ∧ cur ≠ [] ∧
      collapseKey (positive p) (cur.map Prod.snd) = []
  · obtain ⟨hb0, hm0, hcur, hk⟩ := hspecial
    have ho : out = [] := hnil_iff.mp ⟨hb0, hm0⟩
    obtain ⟨rfl, rfl⟩ := List.append_eq_nil_iff.mp (hout ▸ ho)
    have hne : cur.map Prod.snd ≠ [] := by simpa using hcur
    have hc := (collapseKey_eq_nil_iff hne).mp hk
    rw [h.getLast_any hcur, ← h.count_positive, ← h.count_negative] at hc
    have hzero : ¬ (s.count_positive = 0 ∧ s.count_negative = 0) := by
      have hlen := countP_add_countP_neg (positive p) (cur.map Prod.snd)
      have hlen0 := List.length_pos_of_ne_nil hne
      rw [← h.count_positive, ← h.count_negative] at hlen
      omega
    rw [insertRows_all_collapsed hzero hc ⟨rfl, hm0, hb0⟩, h.last_positive, h.last_negative hb0 ho]
    -- no key keeps a row: the written keys gave nothing, and the current one collapses
    have hall : ∀ k, collapseKey (positive p) (((done ++ cur).map Prod.snd).filter fun x => p.key x = k) = [] := by
      intro k
      have hf := h.flushed.keys k
      rw [ho, hk, List.nil_append, List.filter_nil] at hf
      exact hf.symm
    -- the stream ends on a negative row, the last negative one, and the last positive row is before it
    obtain ⟨b, hb⟩ := Option.ne_none_iff_exists'.mp (mt List.getLast?_eq_none_iff.mp hne)
    have hpb : positive p b = false := (h.last_is_positive b hb).symm.trans hc.2
    have hlast : ((done ++ cur).map Prod.snd).getLast? = some b := by
      rw [List.map_append, List.getLast?_append, hb]
      rfl
    have hneg : lastNegative (positive p) ((done ++ cur).map Prod.snd) = some b := by
      obtain ⟨l', hl'⟩ := List.getLast?_eq_some_iff.mp hlast
      rw [hl', lastNegative_concat, hpb]
      rfl
    refine ⟨?_, fun ⟨r, _, hr⟩ => absurd (hall _) hr, fun _ => by simp⟩
    rw [hneg]
    cases hpos : lastPositive (positive p) ((done ++ cur).map Prod.snd) with
    | none => simp [SortedKey]
    | some a =>
      have ha : a ∈ (done ++ cur).map Prod.snd := by
        rw [lastPositive] at hpos
        exact List.mem_reverse.mp (List.mem_of_find?_eq_some hpos)
      simpa [SortedKey] using hsorted.le_getLast hlast ha
  · -- otherwise the current key is written as any other
    have hs : true = true ∧ merged_rows = 0 ∧ s.blocks_written = 0 → cur ≠ [] →
        collapseKey (positive p) (cur.map Prod.snd) ≠ [] :=
      fun ⟨_, hm0, hb0⟩ hcur hk => hspecial ⟨hb0, hm0, hcur, hk⟩
    rw [h.insertRows_eq hs, ← List.append_assoc, ← hout]
    by_cases hne : out ++ collapseKey (positive p) (cur.map Prod.snd) = []
    · -- nothing at all: then there were no rows
      obtain ⟨ho, hk⟩ := List.append_eq_nil_iff.mp hne
      obtain ⟨hb0, hm0⟩ := hnil_iff.mpr ho
      have hcur : cur = [] := not_not.mp fun hcur => hspecial ⟨hb0, hm0, hcur, hk⟩
      obtain ⟨rfl, -⟩ := h.cur_nil hcur
      subst hcur
      rw [hne]
      exact collapsed_nil
    · exact h.flushed.collapsed hne

/-- One row popped: it joins the current key's rows, or the current key is written out and the row
    starts the next. -/
theorem Inv.mergeRow {pre merged : List ρ} {merged_rows : Nat} (h : Inv p s done cur (pre ++ merged))
    (hm : merged_rows = merged.length) (order : Nat) {x : ρ} (hx : ∀ e ∈ done ++ cur, p.key e.2 ≤ p.key x)
    (hsign : p.sign x = 1 ∨ p.sign x = -1) :
    ∃ s' merged', CollapsingSorted.mergeRow p s merged merged_rows order x = .ok (s', merged', merged'.length) ∧
      s'.blocks_written = s.blocks_written ∧
      ∃ done' cur', done' ++ cur' = done ++ cur ++ [(order, x)] ∧ Inv p s' done' cur' (pre ++ merged') := by
  -- nothing given yet means no row in this block
  have hcut : ∀ ys : List ρ, pre ++ (merged ++ ys) = [] → merged_rows + ys.length = 0 := fun ys hnil => by
    obtain ⟨-, hnil⟩ := List.append_eq_nil_iff.mp hnil
    obtain ⟨hm0, hy0⟩ := List.append_eq_nil_iff.mp hnil
    rw [hm, hm0, hy0]
    rfl
  cases hd : keyDiffers p s x
  · obtain ⟨s', hs'⟩ : ∃ s', takeRow p s merged_rows order x = .ok s' := takeRow_ok hsign
    refine ⟨s', merged, ?_, (takeRow_frame hs').2.1, done, cur ++ [(order, x)], by simp, ?_⟩
    · rw [CollapsingSorted.mergeRow, hd, if_neg Bool.false_ne_true, hs', hm]
      rfl
    · exact h.takeRow_same (keyDiffers_eq_false h hd) hsign
        (fun _ ho => by simpa using hcut [] (by simpa using ho)) hs'
  · -- a new key: the current key is written out, and `x` starts its key
    obtain ⟨hne, hk⟩ := keyDiffers_eq_true h hd
    have hrows : (insertRows p s merged merged_rows false).2 =
        (merged ++ collapseKey (positive p) (cur.map Prod.snd),
          merged_rows + (collapseKey (positive p) (cur.map Prod.snd)).length) := h.insertRows_eq nofun
    obtain ⟨s₁, hs₁⟩ : ∃ s₁, insertRows p s merged merged_rows false =
        (s₁, merged ++ collapseKey (positive p) (cur.map Prod.snd),
          merged_rows + (collapseKey (positive p) (cur.map Prod.snd)).length) := ⟨_, Prod.ext rfl hrows⟩
    have hc : Counters p (resetKey (insertRows p s merged merged_rows false).1) (done ++ cur) []
        (pre ++ merged ++ collapseKey (positive p) (cur.map Prod.snd)) := h.counters_reset
    rw [hs₁] at hc
    dsimp only at hc
    obtain ⟨s', hs'⟩ : ∃ s', takeRow p (resetKey s₁)
        (merged_rows + (collapseKey (positive p) (cur.map Prod.snd)).length) order x = .ok s' := takeRow_ok hsign
    have hbw : s'.blocks_written = s.blocks_written := by
      obtain ⟨crs, rs, hs₁'⟩ : ∃ crs rs, (insertRows p s merged merged_rows false).1 =
          { s with current_row_sources := crs, row_sources := rs } := insertRows_frame
      rw [hs₁] at hs₁'
      dsimp only at hs₁'
      rw [(takeRow_frame hs').2.1, hs₁']
      rfl
    refine ⟨s', merged ++ collapseKey (positive p) (cur.map Prod.snd), ?_, hbw, done ++ cur, [(order, x)], rfl, ?_⟩
    · rw [CollapsingSorted.mergeRow, if_pos hd, hs₁]
      dsimp only
      rw [hs', List.length_append, hm]
      rfl
    · have hlt : ∀ e ∈ done ++ cur, p.key e.2 < p.key x := by
        intro e he
        rcases List.mem_append.mp he with hd' | hc'
        · obtain ⟨e', he'⟩ := List.exists_mem_of_ne_nil _ hne
          exact lt_of_lt_of_le (h.done_lt e hd' e' he') (hx e' (List.mem_append_right _ he'))
        · exact lt_of_le_of_ne (hx e he) (hk e hc')
      rw [← List.append_assoc]
      exact hc.takeRow_start (List.append_assoc pre merged _ ▸ h.flushed) hlt hsign
        (fun _ ho => hcut _ (List.append_assoc pre merged _ ▸ ho)) hs'

/-- `merge` on the rows `queue`: it takes some of them (at least one, if the block is not full
    yet), and either it has taken them all and the output is complete, or the invariant holds. -/
theorem Inv.merge (hblock : 0 < p.max_block_size) {pre : List ρ} :
    ∀ (queue : List (Nat × ρ)) {s : State ρ κ} {done cur : List (Nat × ρ)} {merged : List ρ},
      Inv p s done cur (pre ++ merged) → (s.blocks_written = 0 ↔ pre = []) →
      SortedKey p.key ((done ++ cur ++ queue).map Prod.snd) → (∀ e ∈ queue, p.sign e.2 = 1 ∨ p.sign e.2 = -1) →
      ∃ s' merged' rest, CollapsingSorted.merge p s merged merged.length queue = .ok (s', merged', rest) ∧
        ∃ consumed, queue = consumed ++ rest ∧ (queue ≠ [] → merged.length < p.max_block_size → consumed ≠ []) ∧
          (rest = [] → Collapsed p (pre ++ merged') ((done ++ cur ++ queue).map Prod.snd) ∧ s'.finished = true) ∧
          (rest ≠ [] → (s'.blocks_written = 0 ↔ pre ++ merged' = []) ∧
            ∃ done' cur', done' ++ cur' = done ++ cur ++ consumed ∧ Inv p s' done' cur' (pre ++ merged'))
  | [], s, done, cur, merged, h, hb, hsorted, _ => by
    -- the last key is written out and the stream is finished
    refine ⟨{ (insertRows p s merged merged.length true).1 with finished := true },
      (insertRows p s merged merged.length true).2.1, [], rfl, [], rfl, nofun, fun _ => ⟨?_, rfl⟩, nofun⟩
    rw [List.append_nil] at hsorted ⊢
    exact h.finish rfl rfl hb hsorted
  | (order, x) :: queue, s, done, cur, merged, h, hb, hsorted, hsign => by
    by_cases hcut : (keyDiffers p s x && decide (p.max_block_size ≤ merged.length)) = true
    · -- the block is full at a new key: `x` stays in the queue
      simp only [Bool.and_eq_true, decide_eq_true_eq] at hcut
      have hne : pre ++ merged ≠ [] := fun hnil => by
        have hlen := hcut.2
        rw [(List.append_eq_nil_iff.mp hnil).2, List.length_nil] at hlen
        omega
      refine ⟨{ s with blocks_written := s.blocks_written + 1 }, merged, (order, x) :: queue, ?_, [], rfl,
        fun _ hlt => absurd hcut.2 (Nat.not_le.mpr hlt), nofun,
        fun _ => ⟨iff_of_false (Nat.succ_ne_zero _) hne, done, cur, by simp, h.cut⟩⟩
      rw [CollapsingSorted.merge, if_pos (by simp [hcut])]
    · -- `x` is taken, and the loop goes on with the rest
      have hx : ∀ e ∈ done ++ cur, p.key e.2 ≤ p.key x := by
        intro e he
        unfold SortedKey at hsorted
        rw [List.map_append, List.pairwise_append] at hsorted
        exact hsorted.2.2 e.2 (List.mem_map_of_mem he) x (by simp)
      obtain ⟨s₁, merged₁, hrow, hbw, done₁, cur₁, heq, h₁⟩ :=
        h.mergeRow rfl order hx (hsign (order, x) List.mem_cons_self)
      have hall : done₁ ++ cur₁ ++ queue = done ++ cur ++ (order, x) :: queue := by
        rw [heq]
        simp
      obtain ⟨s', merged', rest, hm, consumed, hq, -, hfin, hinv⟩ := Inv.merge hblock queue h₁ (hbw ▸ hb)
        (hall ▸ hsorted) fun e he => hsign e (List.mem_cons_of_mem _ he)
      refine ⟨s', merged', rest, ?_, (order, x) :: consumed, by rw [hq]; rfl, fun _ _ => by simp,
        fun hrest => hall ▸ hfin hrest, fun hrest => ?_⟩
      · rw [CollapsingSorted.merge, if_neg hcut, hrow]
        exact hm
      · obtain ⟨hb', done', cur', heq', hinv'⟩ := hinv hrest
        exact ⟨hb', done', cur', by rw [heq', heq]; simp, hinv'⟩

/-- A finished stream gives nothing more. -/
theorem readAll_of_finished (hs : s.finished = true) (n : Nat) (queue : List (Nat × ρ)) :
    readAll p n s queue = .ok ([], s) := by
  cases n with
  | zero => rfl
  | succ n => simp [readAll, readImpl, hs]

/-- Read to its end, the stream gives the rows each key keeps. -/
theorem Inv.readAll (hblock : 0 < p.max_block_size) :
    ∀ (n : Nat) {s : State ρ κ} {done cur queue : List (Nat × ρ)} {pre : List ρ},
      Inv p s done cur pre → (s.blocks_written = 0 ↔ pre = []) → (queue = [] → cur = []) →
      SortedKey p.key ((done ++ cur ++ queue).map Prod.snd) → (∀ e ∈ queue, p.sign e.2 = 1 ∨ p.sign e.2 = -1) →
      queue.length ≤ n →
      ∃ out s', CollapsingSorted.readAll p n s queue = .ok (out, s') ∧
        Collapsed p (pre ++ out) ((done ++ cur ++ queue).map Prod.snd)
  | n, s, done, cur, [], pre, h, _, hq, _, _, _ => by
    -- no row at all: nothing was given
    have hcur := hq rfl
    obtain ⟨rfl, -⟩ := h.cur_nil hcur
    subst hcur
    have hpre : pre = [] := List.eq_nil_iff_forall_not_mem.mpr fun x hx => by simpa using h.mem hx
    refine ⟨[], s, ?_, by simpa [hpre] using collapsed_nil⟩
    cases n with
    | zero => rfl
    | succ n => simp [CollapsingSorted.readAll, readImpl, h.not_finished]
  | 0, _, _, _, _ :: _, _, _, _, _, _, _, hn => absurd hn (by simp)
  | n + 1, s, done, cur, (order, x) :: queue, pre, h, hb, _, hsorted, hsign, hn => by
    have h' : Inv p s done cur (pre ++ []) := by rwa [List.append_nil]
    obtain ⟨s₁, merged, rest, hm, consumed, hq, hprog, hfin, hinv⟩ :=
      Inv.merge hblock ((order, x) :: queue) h' hb hsorted hsign
    have hm' : CollapsingSorted.merge p s [] 0 ((order, x) :: queue) = .ok (s₁, merged, rest) := hm
    have hread : CollapsingSorted.readAll p (n + 1) s ((order, x) :: queue) =
        (CollapsingSorted.readAll p n s₁ rest).map fun r => (merged ++ r.1, r.2) := by
      rw [CollapsingSorted.readAll, readImpl, if_neg (by simp [h.not_finished]), if_neg (List.cons_ne_nil _ _), hm']
      rfl
    rw [hread]
    by_cases hrest : rest = []
    · -- the block took every row: the stream is finished
      subst hrest
      obtain ⟨hc, hdone⟩ := hfin rfl
      rw [readAll_of_finished hdone]
      exact ⟨merged ++ [], s₁, rfl, by simpa using hc⟩
    · obtain ⟨hb', done', cur', heq, hinv'⟩ := hinv hrest
      have hlen : rest.length ≤ n := by
        have hne := List.length_pos_of_ne_nil (hprog (List.cons_ne_nil _ _) hblock)
        have hsplit : ((order, x) :: queue).length = consumed.length + rest.length := by
          rw [hq, List.length_append]
        omega
      have hall : done' ++ cur' ++ rest = done ++ cur ++ (order, x) :: queue := by
        rw [heq, hq]
        simp
      have hsign' : ∀ e ∈ rest, p.sign e.2 = 1 ∨ p.sign e.2 = -1 := fun e he =>
        hsign e (hq ▸ List.mem_append_right _ he)
      obtain ⟨out, s', hout, hc⟩ := Inv.readAll hblock n hinv' hb' (fun h => absurd h hrest) (hall ▸ hsorted)
        hsign' hlen
      refine ⟨merged ++ out, s', by rw [hout]; rfl, ?_⟩
      rw [← List.append_assoc, ← hall]
      exact hc

end Key

end Invariant

/-! ## Collapsing whole parts -/

section Parts

variable [LinearOrder κ] {p : Params ρ κ}

/-- What the stream gives are rows of the merge. -/
theorem Collapsed.subset {out rows : List ρ} (h : Collapsed p out rows) {x : ρ} (hx : x ∈ out) : x ∈ rows := by
  by_cases hkeep : ∃ r ∈ rows, collapseKey (positive p) (rows.filter fun y => p.key y = p.key r) ≠ []
  · have hmem : x ∈ out.filter (fun y => p.key y = p.key x) := List.mem_filter.mpr ⟨hx, by simp⟩
    rw [h.keys hkeep] at hmem
    exact (List.mem_filter.mp (mem_of_mem_collapseKey hmem)).1
  · have hall : ∀ r ∈ rows, collapseKey (positive p) (rows.filter fun y => p.key y = p.key r) = [] :=
      fun r hr => not_not.mp fun hne => hkeep ⟨r, hr, hne⟩
    rw [h.all_collapsed hall, List.mem_append, Option.mem_toList, Option.mem_toList] at hx
    rcases hx with hx | hx
    · exact List.mem_reverse.mp (List.mem_of_find?_eq_some hx)
    · exact List.mem_reverse.mp (List.mem_of_find?_eq_some hx)

/-- On sorted parts of rows of sign 1 or -1, read to its end, the stream gives the rows each key of
    the merge keeps. -/
theorem collapse_collapsed (hblock : 0 < p.max_block_size) {parts : List (List ρ)}
    (hsorted : ∀ s ∈ parts, SortedKey p.key s) (hsign : ∀ r ∈ parts.flatten, p.sign r = 1 ∨ p.sign r = -1) :
    ∃ out, collapse p parts = .ok out ∧ Collapsed p out ((kmerge p.key parts).map Prod.snd) := by
  have hrows : SortedKey p.key (([] ++ [] ++ kmerge p.key parts).map Prod.snd) := by
    simpa using sortedKey_kmerge hsorted
  have hsign' : ∀ e ∈ kmerge p.key parts, p.sign e.2 = 1 ∨ p.sign e.2 = -1 :=
    fun e he => hsign e.2 ((perm_kmerge parts).subset (List.mem_map_of_mem he))
  obtain ⟨out, s', hread, hc⟩ := inv_init.readAll hblock ((kmerge p.key parts).length + 1) (by simp [State.init])
    (fun _ => rfl) hrows hsign' (Nat.le_succ _)
  refine ⟨out, ?_, by simpa using hc⟩
  rw [collapse, readParts, hread]
  rfl

/-- Each group of parts collapsed, one after another. -/
theorem mapM_collapse (hblock : 0 < p.max_block_size) :
    ∀ {groups : List (List (List ρ))}, (∀ g ∈ groups, ∀ s ∈ g, SortedKey p.key s) →
      (∀ g ∈ groups, ∀ r ∈ g.flatten, p.sign r = 1 ∨ p.sign r = -1) →
      ∃ outs, groups.mapM (collapse p) = .ok outs ∧
        List.Forall₂ (fun g out => Collapsed p out ((kmerge p.key g).map Prod.snd)) groups outs
  | [], _, _ => ⟨[], rfl, .nil⟩
  | g :: groups, hsorted, hsign => by
    obtain ⟨out, hout, hc⟩ := collapse_collapsed hblock (hsorted g List.mem_cons_self) (hsign g List.mem_cons_self)
    obtain ⟨outs, houts, hcs⟩ := mapM_collapse hblock (fun g' hg' => hsorted g' (List.mem_cons_of_mem _ hg'))
      (fun g' hg' => hsign g' (List.mem_cons_of_mem _ hg'))
    exact ⟨out :: outs, by rw [List.mapM_cons, hout, houts]; rfl, .cons hc hcs⟩

/-- Something related to each element of a list's image is related to an element of the list. -/
theorem exists_of_mem_forall₂ {α β : Type} {R : α → β → Prop} :
    ∀ {l : List α} {l' : List β}, List.Forall₂ R l l' → ∀ {b : β}, b ∈ l' → ∃ a ∈ l, R a b
  | _, _, .nil, _, hb => absurd hb List.not_mem_nil
  | a :: _, _ :: _, .cons hab hrest, _, hb => by
    rcases List.mem_cons.mp hb with rfl | hb
    · exact ⟨a, List.mem_cons_self, hab⟩
    · obtain ⟨a', ha', h'⟩ := exists_of_mem_forall₂ hrest hb
      exact ⟨a', List.mem_cons_of_mem _ ha', h'⟩

/-- When every key of sorted rows collapses, the last positive row is of the last row's key. -/
theorem key_lastPositive {rows : List ρ} (hsorted : SortedKey p.key rows) {b : ρ} (hb : rows.getLast? = some b)
    {z : ρ} (hz : z ∈ rows) (hzb : p.key z = p.key b) (hpz : positive p z = true) :
    ∃ a, lastPositive (positive p) rows = some a ∧ positive p a = true ∧ p.key a = p.key b := by
  obtain ⟨a, ha⟩ := Option.isSome_iff_exists.mp (lastPositive_isSome.mpr (List.countP_pos_iff.mpr ⟨z, hz, hpz⟩))
  obtain ⟨hpa, as, bs, hrev, has⟩ := List.find?_eq_some_iff_append.mp ha
  have hrows : rows = bs.reverse ++ a :: as.reverse := by
    rw [← List.reverse_reverse rows, hrev]
    simp
  -- `z` is positive, so it is not after `a`; and `a` is not after the last row
  have hza : p.key z ≤ p.key a := by
    rw [hrows] at hz hsorted
    rcases List.mem_append.mp hz with hz | hz
    · exact (List.pairwise_append.mp hsorted).2.2 z hz a List.mem_cons_self
    · rcases List.mem_cons.mp hz with rfl | hz
      · exact le_rfl
      · have := has z (List.mem_reverse.mp hz)
        rw [hpz] at this
        cases this
  have hab : p.key a ≤ p.key b := hsorted.le_getLast hb (List.mem_reverse.mp (List.mem_of_find?_eq_some ha))
  exact ⟨a, ha, hpa, le_antisymm hab (hzb ▸ hza)⟩

/-- Each key's rows in what the stream gives stand for the key's rows, when those alternate. -/
theorem Collapsed.reduces {out rows : List ρ} (h : Collapsed p out rows) (hsorted : SortedKey p.key rows)
    (halt : ∀ k, Alternating (positive p) (rows.filter fun x => p.key x = k)) (k : κ) :
    Reduces (positive p) (rows.filter fun x => p.key x = k) (out.filter fun x => p.key x = k) := by
  by_cases hkeep : ∃ r ∈ rows, collapseKey (positive p) (rows.filter fun y => p.key y = p.key r) ≠ []
  · rw [h.keys hkeep k]
    exact reduces_collapseKey (halt k)
  have hcol : ∀ k, collapseKey (positive p) (rows.filter fun x => p.key x = k) = [] := fun k => by
    by_cases hk : ∃ r ∈ rows, p.key r = k
    · obtain ⟨r, hr, rfl⟩ := hk
      exact not_not.mp fun hne => hkeep ⟨r, hr, hne⟩
    · rw [List.filter_eq_nil_iff.mpr fun r hr hrk => hk ⟨r, hr, by simpa using hrk⟩]
      simp [collapseKey]
  have hends := fun k => ends_of_collapseKey_eq_nil (halt k) (hcol k)
  rw [h.all_collapsed fun r _ => hcol _]
  rcases List.eq_nil_or_concat' rows with rfl | ⟨L, b, rfl⟩
  · exact reduces_nil rfl rfl
  -- every key starts positive and ends negative; the pair given is the last key's last two signs
  have hlastK : ((L ++ [b]).filter fun x => p.key x = p.key b).getLast? = some b := by simp
  have hpb : positive p b = false := lastPos_eq_none_iff.mp (hends (p.key b)).2 b hlastK
  obtain ⟨z, hz⟩ : ∃ z, ((L ++ [b]).filter fun x => p.key x = p.key b).head? = some z :=
    Option.ne_none_iff_exists'.mp (by simp)
  have hzmem := List.mem_filter.mp (List.mem_of_mem_head? hz)
  obtain ⟨a, ha, hpa, hka⟩ := key_lastPositive hsorted (List.getLast?_concat) hzmem.1 (by simpa using hzmem.2)
    (headNeg_eq_none_iff.mp (hends (p.key b)).1 z hz)
  rw [ha, lastNegative_concat, hpb]
  by_cases hk : k = p.key b
  · subst hk
    have hpair : ([a, b] : List ρ).filter (fun x => p.key x = p.key b) = [a, b] := by simp [hka]
    simp only [Option.toList_some, List.singleton_append, if_false, Bool.false_eq_true]
    rw [hpair]
    refine ⟨by simp [Alternating, hpa, hpb], ?_, ?_, fun hnil => by simp at hnil⟩
    · rw [(hends _).1]
      simp [headNeg, hpa]
    · rw [(hends _).2]
      simp [lastPos, hpb]
  · have hpair : ([a, b] : List ρ).filter (fun x => p.key x = k) = [] := by
      simp [hka, Ne.symm hk]
    simp only [Option.toList_some, List.singleton_append, if_false, Bool.false_eq_true]
    rw [hpair]
    exact reduces_nil (hends k).1 (hends k).2

/-- Collapsing the groups' results is collapsing all the parts, when each key's rows alternate in
    sign in the merge of all the parts, and some key keeps a row unless there are no rows. -/
theorem collapse_flatten (hblock : 0 < p.max_block_size) {groups : List (List (List ρ))}
    (hsorted : ∀ s ∈ groups.flatten, SortedKey p.key s)
    (hsign : ∀ r ∈ groups.flatten.flatten, p.sign r = 1 ∨ p.sign r = -1)
    (halt : ∀ k, Alternating (positive p) (((kmerge p.key groups.flatten).map Prod.snd).filter fun r => p.key r = k))
    (hkeep : groups.flatten.flatten = [] ∨ ∃ r ∈ groups.flatten.flatten,
      collapseKey (positive p) (((kmerge p.key groups.flatten).map Prod.snd).filter fun x => p.key x = p.key r) ≠ []) :
    (groups.mapM (collapse p) >>= collapse p) = collapse p groups.flatten := by
  have hgsorted : ∀ g ∈ groups, ∀ s ∈ g, SortedKey p.key s :=
    fun g hg s hs => hsorted s (List.mem_flatten.mpr ⟨g, hg, hs⟩)
  have hgrows : ∀ g ∈ groups, ∀ r ∈ g.flatten, r ∈ groups.flatten.flatten := fun g hg r hr => by
    obtain ⟨s, hs, hr⟩ := List.mem_flatten.mp hr
    exact List.mem_flatten.mpr ⟨s, List.mem_flatten.mpr ⟨g, hg, hs⟩, hr⟩
  obtain ⟨outs, houts, hcs⟩ := mapM_collapse hblock hgsorted fun g hg r hr => hsign r (hgrows g hg r hr)
  -- each group's result is sorted and holds rows of the group, so it is a part the outer merge takes
  have hout_rows : ∀ o ∈ outs, ∀ x ∈ o, x ∈ groups.flatten.flatten := fun o ho x hx => by
    obtain ⟨g, hg, hc⟩ := exists_of_mem_forall₂ hcs ho
    exact hgrows g hg x ((perm_kmerge g).subset (hc.subset hx))
  have hosorted : ∀ o ∈ outs, SortedKey p.key o := fun o ho => by
    obtain ⟨g, -, hc⟩ := exists_of_mem_forall₂ hcs ho
    exact hc.sorted
  obtain ⟨out', hout', hc'⟩ := collapse_collapsed hblock hosorted fun x hx => by
    obtain ⟨o, ho, hx⟩ := List.mem_flatten.mp hx
    exact hsign x (hout_rows o ho x hx)
  obtain ⟨out, hout, hc⟩ := collapse_collapsed hblock hsorted hsign
  rw [houts, hout]
  show collapse p outs = .ok out
  rw [hout', hc.unique _]
  -- key by key the rows the outer merge sees stand for the rows of all the parts
  have hreduce : ∀ k, Reduces (positive p) (((kmerge p.key groups.flatten).map Prod.snd).filter fun x => p.key x = k)
      (((kmerge p.key outs).map Prod.snd).filter fun x => p.key x = k) := fun k => by
    have hall := halt k
    rw [filter_kmerge hsorted k, flatMap_flatten] at hall ⊢
    rw [filter_kmerge hosorted k, List.flatMap_def]
    refine Reduces.flatten ?_ hall
    rw [List.forall₂_map_left_iff, List.forall₂_map_right_iff]
    refine ((List.forall₂_and_left (p := fun g => g ∈ groups) groups outs).mpr ⟨fun _ hg => hg, hcs⟩).imp
      fun g o ⟨hg, hc⟩ => ?_
    rw [← filter_kmerge (hgsorted g hg) k]
    refine hc.reduces (sortedKey_kmerge (hgsorted g hg)) (fun k' => ?_) k
    -- a group's rows of a key are a run of all the rows of that key
    have hall' := halt k'
    rw [filter_kmerge hsorted k', flatMap_flatten] at hall'
    rw [filter_kmerge (hgsorted g hg) k']
    exact alternating_of_mem_flatten hall' (List.mem_map_of_mem hg)
  have hkey : ∀ k, collapseKey (positive p) (((kmerge p.key outs).map Prod.snd).filter fun x => p.key x = k) =
      collapseKey (positive p) (((kmerge p.key groups.flatten).map Prod.snd).filter fun x => p.key x = k) :=
    fun k => (hreduce k).collapseKey_eq (halt k)
  refine ⟨hc'.sorted, fun hk => ?_, fun hall => ?_⟩
  · -- a key keeps a row: the outer merge has rows of it, and keeps the same
    obtain ⟨r, -, hne⟩ := hk
    have hne' : ((kmerge p.key outs).map Prod.snd).filter (fun x => p.key x = p.key r) ≠ [] := fun hnil => by
      rw [← hkey, hnil] at hne
      exact hne (by simp [collapseKey])
    obtain ⟨r', hr'⟩ := List.exists_mem_of_ne_nil _ hne'
    have hr'k := List.mem_filter.mp hr'
    have hkr : p.key r' = p.key r := by simpa using hr'k.2
    intro k
    rw [hc'.keys ⟨r', hr'k.1, by rwa [hkr, hkey]⟩ k, hkey k]
  · -- no key keeps a row: then there are no rows, and the outer merge has none either
    have hnil : groups.flatten.flatten = [] := hkeep.resolve_right fun ⟨r, hr, hne⟩ =>
      hne (hall r ((perm_kmerge _).mem_iff.mpr hr))
    have hrows : (kmerge p.key groups.flatten).map Prod.snd = [] := (hnil ▸ perm_kmerge groups.flatten).eq_nil
    have hout'nil : out' = [] := List.eq_nil_iff_forall_not_mem.mpr fun x hx => by
      obtain ⟨o, ho, hxo⟩ := List.mem_flatten.mp ((perm_kmerge outs).subset (hc'.subset hx))
      have := hout_rows o ho x hxo
      rw [hnil] at this
      cases this
    rw [hout'nil, hrows]
    rfl
end Parts


/-- `CollapsingSortedBlockInputStream` on sorted parts whose rows have the sign 1 or -1, in blocks
    of any `max_block_size > 0`: it gives, in key order, for each key what the class comment lists
    for the key's rows in the order of the merge (`collapseKey`), and when every key collapsed the
    last positive and the last negative row of all. Collapsing the results of collapsing adjacent
    groups of the parts gives the same rows as collapsing all the parts when each key's rows
    alternate in sign in the merge and some key keeps a row. -/
theorem collapsing_merge_follows_sign_rules [LinearOrder κ] (p : Params ρ κ) (hblock : 0 < p.max_block_size)
    (parts : List (List ρ)) (hsorted : ∀ s ∈ parts, SortedKey p.key s)
    (hsign : ∀ r ∈ parts.flatten, p.sign r = 1 ∨ p.sign r = -1) :
    (∃ out, collapse p parts = .ok out ∧ Collapsed p out ((kmerge p.key parts).map Prod.snd)) ∧
      ∀ groups : List (List (List ρ)), groups.flatten = parts →
        (∀ k, Alternating (positive p) (((kmerge p.key parts).map Prod.snd).filter fun r => p.key r = k)) →
        (parts.flatten = [] ∨ ∃ r ∈ parts.flatten,
          collapseKey (positive p) (((kmerge p.key parts).map Prod.snd).filter fun x => p.key x = p.key r) ≠ []) →
        (groups.mapM (collapse p) >>= collapse p) = collapse p parts := by
  refine ⟨collapse_collapsed hblock hsorted hsign, fun groups hgroups halt hkeep => ?_⟩
  subst hgroups
  exact collapse_flatten hblock hsorted hsign halt hkeep

/-- Two parts, with key 1 in both, read in blocks of two rows with `out_row_sources_buf`. -/
theorem collapsing_two_parts :
    let p : Params (Nat × Int8 × Nat) Nat := ⟨Prod.fst, fun r => r.2.1, 2, true⟩
    let parts : List (List (Nat × Int8 × Nat)) := [[(1, 1, 0)], [(1, 1, 1), (1, -1, 2), (2, 1, 3)]]
    0 < p.max_block_size ∧ (∀ s ∈ parts, SortedKey p.key s) ∧ (∀ r ∈ parts.flatten, p.sign r = 1 ∨ p.sign r = -1) ∧
      ((∃ out, collapse p parts = .ok out ∧ Collapsed p out ((kmerge p.key parts).map Prod.snd)) ∧
        ∀ groups : List (List (List (Nat × Int8 × Nat))), groups.flatten = parts →
          (∀ k, Alternating (positive p) (((kmerge p.key parts).map Prod.snd).filter fun r => p.key r = k)) →
          (parts.flatten = [] ∨ ∃ r ∈ parts.flatten,
            collapseKey (positive p) (((kmerge p.key parts).map Prod.snd).filter fun x => p.key x = p.key r) ≠ []) →
          (groups.mapM (collapse p) >>= collapse p) = collapse p parts) := by
  intro p parts
  have hblock : 0 < p.max_block_size := by decide
  have hsorted : ∀ s ∈ parts, SortedKey p.key s := by decide
  have hsign : ∀ r ∈ parts.flatten, p.sign r = 1 ∨ p.sign r = -1 := by decide
  exact ⟨hblock, hsorted, hsign, collapsing_merge_follows_sign_rules p hblock parts hsorted hsign⟩

/-- Collapsing is not associative under the counts alone: the part `[(1, +)]` and the part
    `[(1, +), (1, -), (2, +)]` have at most one row more of one sign per key in each part and in both,
    yet collapsing them at once keeps the second part's positive row of key 1, and collapsing the
    results of collapsing each keeps the first part's (the second part alone collapses key 1 away). -/
theorem collapsing_regrouped_keeps_other_row :
    let p : Params (Nat × Int8 × Nat) Nat := ⟨Prod.fst, fun r => r.2.1, 2, false⟩
    let p1 : List (Nat × Int8 × Nat) := [(1, 1, 0)]
    let p2 : List (Nat × Int8 × Nat) := [(1, 1, 1), (1, -1, 2), (2, 1, 3)]
    (∀ s ∈ [p1, p2], SortedKey p.key s) ∧ (∀ r ∈ [p1, p2].flatten, p.sign r = 1 ∨ p.sign r = -1) ∧
      (∀ g ∈ [[p1], [p2], [p1, p2]], ∀ k ∈ [1, 2],
        (g.flatten.filter fun r => p.key r = k).countP (positive p) ≤
            (g.flatten.filter fun r => p.key r = k).countP (!positive p ·) + 1 ∧
          (g.flatten.filter fun r => p.key r = k).countP (!positive p ·) ≤
            (g.flatten.filter fun r => p.key r = k).countP (positive p) + 1) ∧
      collapse p [p1, p2] = .ok [(1, 1, 1), (2, 1, 3)] ∧
      ([[p1], [p2]].mapM (collapse p) >>= collapse p) = .ok [(1, 1, 0), (2, 1, 3)] := by
  intro p p1 p2
  refine ⟨by decide, by decide, by decide, ?_, ?_⟩
  · have e1 : least p.key [p1, p2] = some (0, (1, 1, 0)) := rfl
    have e2 : least p.key [[], p2] = some (1, (1, 1, 1)) := rfl
    have e3 : least p.key [[], [(1, -1, 2), (2, 1, 3)]] = some (1, (1, -1, 2)) := rfl
    have e4 : least p.key [[], [(2, 1, 3)]] = some (1, (2, 1, 3)) := rfl
    rw [collapse, readParts, kmerge_of_least e1]
    rw [show [p1, p2].modify 0 List.tail = [[], p2] from rfl, kmerge_of_least e2]
    rw [show [[], p2].modify 1 List.tail = [[], [(1, -1, 2), (2, 1, 3)]] from rfl, kmerge_of_least e3]
    rw [show ([[], [(1, -1, 2), (2, 1, 3)]] : List (List (Nat × Int8 × Nat))).modify 1 List.tail =
      [[], [(2, 1, 3)]] from rfl, kmerge_of_least e4]
    rw [kmerge_of_forall_nil (by decide)]
    rfl
  · -- the first part alone keeps its row; the second collapses key 1 away
    have h1 : collapse p [p1] = .ok p1 := by
      have e : least p.key [p1] = some (0, (1, 1, 0)) := rfl
      rw [collapse, readParts, kmerge_of_least e, kmerge_of_forall_nil (by decide)]
      rfl
    have h2 : collapse p [p2] = .ok [(2, 1, 3)] := by
      have e1 : least p.key [p2] = some (0, (1, 1, 1)) := rfl
      have e2 : least p.key [[(1, -1, 2), (2, 1, 3)]] = some (0, (1, -1, 2)) := rfl
      have e3 : least p.key [[(2, 1, 3)]] = some (0, (2, 1, 3)) := rfl
      rw [collapse, readParts, kmerge_of_least e1]
      rw [show [p2].modify 0 List.tail = [[(1, -1, 2), (2, 1, 3)]] from rfl, kmerge_of_least e2]
      rw [show ([[(1, -1, 2), (2, 1, 3)]] : List (List (Nat × Int8 × Nat))).modify 0 List.tail =
        [[(2, 1, 3)]] from rfl, kmerge_of_least e3, kmerge_of_forall_nil (by decide)]
      rfl
    have h12 : collapse p [p1, [(2, 1, 3)]] = .ok [(1, 1, 0), (2, 1, 3)] := by
      have e1 : least p.key [p1, [(2, 1, 3)]] = some (0, (1, 1, 0)) := rfl
      have e2 : least p.key [[], [(2, 1, 3)]] = some (1, (2, 1, 3)) := rfl
      rw [collapse, readParts, kmerge_of_least e1]
      rw [show [p1, [(2, 1, 3)]].modify 0 List.tail = [[], [(2, 1, 3)]] from rfl, kmerge_of_least e2,
        kmerge_of_forall_nil (by decide)]
      rfl
    rw [List.mapM_cons, h1, List.mapM_cons, h2, List.mapM_nil]
    exact h12

end CollapsingSorted

end ClickHouseGpu.DataStreams
