import ClickHouseGpu.Lib.Probe

/-
  ClickHouseGpu.AggregateFunctions.UniquesHashSet — the BJKST set behind `uniq`
  (AggregateFunctions/UniquesHashSet.h).

  The set keeps 32-bit hashes in an open-addressing buffer of `2 ^ size_degree` cells (0 is
  an empty cell, the zero hash is the flag `has_zero`), probed linearly from
  `place(x) = (x >> 15) & mask`. A hash is kept only while it divides by `2 ^ skip_degree`
  (`good`). When more than `max_fill` hashes are stored the buffer doubles in place
  (`resize`); past `UNIQUES_HASH_MAX_SIZE = 2 ^ 16` the skip degree grows and `rehash` drops
  the hashes that no longer divide, then moves every cell that is away from its place.

  Cells are naturals below `2 ^ 32`; each loop that the code runs until a cell stops it is
  `LinearProbe.walk`, and a loop that would never stop is `none`. `size()` is left out: past
  skip degree 0 it is a floating-point estimate of `m_size` and `skip_degree`.

  Proved:
  - `rehash_leaves_hole`: `rehash` moves cells in one pass from cell 0 up, with no second
    pass for a chain that wraps past the end, unlike `resize` (its `|| buf[i]` tail). With
    the hashes `w = 14·2^15 + 1`, `z = 14·2^15 + 2`, `x = 15·2^15 + 2` inserted in this
    order (`w`, `z` at cells 14, 15 and `x` wrapped to cell 0), raising the skip degree to 1
    drops the odd `w`, reinserts `x` at cell 0 again and then moves `z` to cell 14, so cell 15,
    the place of `x`, is left empty in front of it.
  - `merge_counts_twice`: `merge` raises the skip degree exactly so when the other state has
    skip degree 1; when that state's first stored hash is `x`, at cell 15, the merge inserts
    `x` a second time at cell 15, and goes on from a state that counts three hashes (`m_size`)
    while it holds two, `z` and `x`.
-/

namespace ClickHouseGpu.AggregateFunctions

open LinearProbe

def UNIQUES_HASH_MAX_SIZE_DEGREE : Nat := 17
def UNIQUES_HASH_MAX_SIZE : Nat := 2 ^ (UNIQUES_HASH_MAX_SIZE_DEGREE - 1)
def UNIQUES_HASH_BITS_FOR_SKIP : Nat := 32 - UNIQUES_HASH_MAX_SIZE_DEGREE
def UNIQUES_HASH_SET_INITIAL_SIZE_DEGREE : Nat := 4

structure UniquesHashSet where
  m_size : Nat
  size_degree : Nat
  skip_degree : Nat
  has_zero : Bool
  /-- Cell `i`, for `i < buf_size`; 0 is an empty cell. -/
  buf : Nat → Nat

namespace UniquesHashSet

/-- The state the constructor builds. -/
def init : UniquesHashSet := ⟨0, UNIQUES_HASH_SET_INITIAL_SIZE_DEGREE, 0, false, fun _ => 0⟩

section Ops

variable (s : UniquesHashSet)

def buf_size : Nat := 2 ^ s.size_degree

def max_fill : Nat := 2 ^ (s.size_degree - 1)

def mask : Nat := s.buf_size - 1

def place (x : Nat) : Nat := (x >>> UNIQUES_HASH_BITS_FOR_SKIP) &&& s.mask

/-- The hash divides by `2 ^ skip_degree`. -/
def good (hash : Nat) : Bool := hash == (hash >>> s.skip_degree) <<< s.skip_degree

def setCell (i v : Nat) : UniquesHashSet := { s with buf := upd s.buf i v }

/-- `while (buf[p] && buf[p] != x) { ++p; p &= mask(); }` from `p`. -/
def findPlace (x p : Nat) : Option Nat := walk s.buf_size (fun j => s.buf j == 0 || s.buf j == x) s.buf_size p

def insertImpl (x : Nat) : Option UniquesHashSet :=
  if x = 0 then some { s with m_size := s.m_size + (if s.has_zero then 0 else 1), has_zero := true }
  else
    match s.findPlace x (s.place x) with
    | none => none
    | some p => if s.buf p = x then some s else some { s.setCell p x with m_size := s.m_size + 1 }

def reinsertImpl (x : Nat) : Option UniquesHashSet :=
  match walk s.buf_size (fun j => s.buf j == 0) s.buf_size (s.place x) with
  | none => none
  | some p => some (s.setCell p x)

end Ops

/-- `rehash`'s first loop at cell `i`: a hash that does not divide by `2 ^ skip_degree` goes. -/
def dropBad (t : UniquesHashSet) (i : Nat) : UniquesHashSet :=
  if t.buf i != 0 && !t.good (t.buf i) then { t.setCell i 0 with m_size := t.m_size - 1 } else t

/-- `rehash`'s second loop at cell `i`: a hash away from its place is taken out and reinserted. -/
def replace (t : UniquesHashSet) (i : Nat) : Option UniquesHashSet :=
  if t.buf i != 0 && i != t.place (t.buf i) then (t.setCell i 0).reinsertImpl (t.buf i) else some t

def rehash (s : UniquesHashSet) : Option UniquesHashSet :=
  let t := (List.range s.buf_size).foldl dropBad s
  (List.range t.buf_size).foldlM replace t

/-- The body of `resize`'s loop at cell `i`. -/
def moveCell (t : UniquesHashSet) (i : Nat) : Option UniquesHashSet :=
  let x := t.buf i
  if x = 0 ∨ t.place x = i then some t
  else
    match t.findPlace x (t.place x) with
    | none => none
    | some q => if t.buf q = x then some t else some ((t.setCell q x).setCell i 0)

/-- `for (i = 0; i < old_size || buf[i]; ++i)`, for at most `fuel` cells; reading past the
    buffer is `none`. -/
def resizeLoop (old_size : Nat) : Nat → Nat → UniquesHashSet → Option UniquesHashSet
  | 0, _, _ => none
  | fuel + 1, i, t =>
    if i < old_size ∨ t.buf i ≠ 0 then
      if t.buf_size ≤ i then none else (moveCell t i).bind (resizeLoop old_size fuel (i + 1))
    else some t

/-- `resize(new_size_degree)`; `0` doubles the buffer. The allocator zeroes the new cells. -/
def resize (s : UniquesHashSet) (new_size_degree : Nat) : Option UniquesHashSet :=
  let old_size := s.buf_size
  let nd := if new_size_degree = 0 then s.size_degree + 1 else new_size_degree
  let t : UniquesHashSet := { s with size_degree := nd, buf := fun j => if j < old_size then s.buf j else 0 }
  resizeLoop old_size (t.buf_size + 1) 0 t

/-- `while (m_size > UNIQUES_HASH_MAX_SIZE) { ++skip_degree; rehash(); }`, for at most `fuel` rounds. -/
def thin : Nat → UniquesHashSet → Option UniquesHashSet
  | 0, _ => none
  | fuel + 1, t =>
    if t.m_size > UNIQUES_HASH_MAX_SIZE then (rehash { t with skip_degree := t.skip_degree + 1 }).bind (thin fuel)
    else some t

/-- Past skip degree 32 no non-zero 32-bit hash is kept, so 33 rounds end the loop. -/
def shrinkIfNeed (s : UniquesHashSet) : Option UniquesHashSet :=
  if s.m_size > s.max_fill then
    if s.m_size > UNIQUES_HASH_MAX_SIZE then thin 33 s else resize s 0
  else some s

def insertHash (s : UniquesHashSet) (hash_value : Nat) : Option UniquesHashSet :=
  if !s.good hash_value then some s else (s.insertImpl hash_value).bind shrinkIfNeed

/-- `insert(x)` hashes `x` with `Hash` (by default `intHash32`) and goes on as `insertHash`. -/
def insert (Hash : Nat → Nat) (s : UniquesHashSet) (x : Nat) : Option UniquesHashSet := s.insertHash (Hash x)

/-- One cell `v` of the other state in `merge`'s loop. -/
def mergeValue (t : UniquesHashSet) (v : Nat) : Option UniquesHashSet :=
  if v != 0 && t.good v then (t.insertImpl v).bind shrinkIfNeed else some t

def merge (s rhs : UniquesHashSet) : Option UniquesHashSet := do
  let t ← if rhs.skip_degree > s.skip_degree then rehash { s with skip_degree := rhs.skip_degree } else some s
  let t ← if !t.has_zero && rhs.has_zero then shrinkIfNeed { t with has_zero := true, m_size := t.m_size + 1 }
    else some t
  ((List.range rhs.buf_size).map rhs.buf).foldlM mergeValue t

/-! ## A chain that wraps past the end -/

/-- The three hashes of the trace: `w` is odd, `w` and `z` have place 14, `x` place 15. -/
def w : Nat := 14 * 2 ^ 15 + 1
def z : Nat := 14 * 2 ^ 15 + 2
def x : Nat := 15 * 2 ^ 15 + 2

/-- `insertHash(w); insertHash(z); insertHash(x)` from the empty set. -/
def s3 : Option UniquesHashSet := (init.insertHash w).bind (·.insertHash z) |>.bind (·.insertHash x)

theorem s3_cells :
    s3.map (fun t => (t.buf 14, t.buf 15, t.buf 0, t.m_size, t.size_degree, t.skip_degree)) = some (w, z, x, 3, 4, 0) := by
  decide

theorem rehash_leaves_hole :
    (s3.bind fun t => rehash { t with skip_degree := 1 }).map
      (fun r => (r.buf 0, r.place x, r.buf 15, r.buf 14, r.m_size)) = some (x, 15, 0, z, 2) := by
  decide

/-- The merge of the rehashed `s3` after other cells `0, …, 0, x`. -/
def afterFirstCells : Option UniquesHashSet :=
  (s3.bind fun t => rehash { t with skip_degree := 1 }).bind fun r => (List.replicate 15 0 ++ [x]).foldlM mergeValue r

theorem afterFirstCells_cells :
    afterFirstCells.map (fun t => (t.m_size, t.buf 0, t.buf 15, t.buf 14, t.skip_degree)) = some (3, x, x, z, 1) := by
  decide

/-- Merging a state of skip degree 1 whose first cells are `0, …, 0, x` (cell 15) into `s3`
    reaches, after those 16 cells, a state with `x` in cells 0 and 15, `z` in cell 14 and
    `m_size = 3`; the merge then goes on with the other cells from there. -/
theorem merge_counts_twice (rhs : UniquesHashSet) (hskip : rhs.skip_degree = 1) (hzero : rhs.has_zero = false)
    (hdeg : UNIQUES_HASH_SET_INITIAL_SIZE_DEGREE ≤ rhs.size_degree)
    (hlow : ∀ i < 15, rhs.buf i = 0) (hx : rhs.buf 15 = x) :
    ∃ t, (s3.bind fun s => merge s rhs) =
        ((List.range' 16 (rhs.buf_size - 16)).map rhs.buf).foldlM mergeValue t ∧
      t.m_size = 3 ∧ t.buf 0 = x ∧ t.buf 15 = x ∧ t.buf 14 = z ∧ t.skip_degree = 1 := by
  obtain ⟨k, hk⟩ : ∃ k, rhs.buf_size = 16 + k := by
    have : 2 ^ UNIQUES_HASH_SET_INITIAL_SIZE_DEGREE ≤ 2 ^ rhs.size_degree := Nat.pow_le_pow_right (by decide) hdeg
    simp only [UNIQUES_HASH_SET_INITIAL_SIZE_DEGREE] at this
    exact ⟨rhs.buf_size - 16, by simp only [buf_size]; omega⟩
  have hfirst : (List.range 16).map rhs.buf = List.replicate 15 0 ++ [x] := by
    apply List.ext_getElem (by simp)
    intro i h1 h2
    simp only [List.getElem_map, List.getElem_range]
    by_cases hi : i < 15
    · rw [hlow i hi, List.getElem_append_left (by simpa using hi), List.getElem_replicate]
    · have : i = 15 := by simp at h1; omega
      subst this
      rw [hx]
      rfl
  have hrange : (List.range rhs.buf_size).map rhs.buf =
      (List.replicate 15 0 ++ [x]) ++ (List.range' 16 (rhs.buf_size - 16)).map rhs.buf := by
    rw [hk, List.range_add, List.map_append, hfirst, Nat.add_sub_cancel_left, List.range_eq_range',
      List.map_add_range']
  obtain ⟨s, hs⟩ : ∃ s, s3 = some s := by
    cases h : s3 with
    | none => have := s3_cells; rw [h] at this; cases this
    | some s => exact ⟨s, rfl⟩
  have hs0 : s.skip_degree = 0 := by
    have := s3_cells; rw [hs] at this; simp only [Option.map_some, Option.some.injEq, Prod.mk.injEq] at this
    exact this.2.2.2.2.2
  obtain ⟨t, ht⟩ : ∃ t, afterFirstCells = some t := by
    cases h : afterFirstCells with
    | none => have := afterFirstCells_cells; rw [h] at this; cases this
    | some t => exact ⟨t, rfl⟩
  have hcells := afterFirstCells_cells
  rw [ht] at hcells
  simp only [Option.map_some, Option.some.injEq, Prod.mk.injEq] at hcells
  obtain ⟨h1, h2, h3, h4, h5⟩ := hcells
  refine ⟨t, ?_, h1, h2, h3, h4, h5⟩
  -- `merge` rehashes at skip degree 1, skips the zero flag, then folds over the cells.
  have hmerge : merge s rhs = (rehash { s with skip_degree := 1 }).bind fun r =>
      ((List.replicate 15 0 ++ [x]) ++ (List.range' 16 (rhs.buf_size - 16)).map rhs.buf).foldlM mergeValue r := by
    simp only [merge, hskip, hs0, hzero, Nat.zero_lt_one, if_true, Bool.and_false,
      Bool.false_eq_true, if_false, hrange]
    rfl
  have hfold : afterFirstCells = (rehash { s with skip_degree := 1 }).bind fun r =>
      (List.replicate 15 0 ++ [x]).foldlM mergeValue r := by
    simp only [afterFirstCells, hs, Option.bind_some]
  rw [hs, Option.bind_some, hmerge]
  rw [hfold] at ht
  cases hr : rehash { s with skip_degree := 1 } with
  | none => rw [hr] at ht; cases ht
  | some r =>
    rw [hr, Option.bind_some] at ht
    rw [Option.bind_some, List.foldlM_append, ht]
    rfl

/-- A state of skip degree 1 holding only `x`, at cell 15. -/
def onlyX : UniquesHashSet := ⟨1, 4, 1, false, fun i => if i = 15 then x else 0⟩

theorem merge_counts_twice_onlyX :
    ∃ t, (s3.bind fun s => merge s onlyX) = ((List.range' 16 (onlyX.buf_size - 16)).map onlyX.buf).foldlM mergeValue t ∧
      t.m_size = 3 ∧ t.buf 0 = x ∧ t.buf 15 = x ∧ t.buf 14 = z ∧ t.skip_degree = 1 :=
  merge_counts_twice onlyX rfl rfl (Nat.le_refl _) (fun i hi => by simp only [onlyX]; rw [if_neg (by omega)]) rfl

end UniquesHashSet

end ClickHouseGpu.AggregateFunctions
