import Mathlib.Data.List.Basic
import ClickHouseGpu.Lib.Checked

/-
  ClickHouseGpu.AggregateFunctions.QuantileTiming — the state of `quantileTiming`
  (dbms/src/AggregateFunctions/QuantileTiming.h): a union of three members selected by
  `tiny.count`. Up to 31 values live in `tiny`, an array inside the union; with 32, in `medium`,
  a `PODArray` constructed over the union's first bytes; with 33, in `large`, a pointer to a
  histogram the state owns. `tiny.count` lies past the other members, so it is always there.

  The model keeps the live member as data: `live` is the member last constructed in the union,
  with its contents. Reading another member is a `Fault`: it reads the bytes of the live one
  as another type. Values are naturals (the `UInt64` arguments), stored as `UInt16` once
  clamped to `BIG_THRESHOLD`; histogram counts are naturals. The memory tracker, `prepare`,
  `get`, `getMany` and the serialization are left out.

  `Built st M`: the state `st` is reached from a fresh one by `add`, weighted `add` and `merge`
  with states so built, `M` being the values added, a weight counting as so many copies.

  Proved:
  - `built_inv`, `built_live_member`: every built state keeps its values in the member
    `tiny.count` selects, which is the live one: exactly, clamped, in order, in `tiny` and
    `medium`; as bucket counts in `large` (`Inv`). One lemma per operation (`add_inv`,
    `addWeighted_inv`, `merge_inv`) carries `Inv` across a step.
  - `built_add_total`, `built_merge_total`: `add` and `merge` never fault on built states.
  - `built_addWeighted_faults_iff`: the weighted `add` faults on a built state exactly when it is
    `medium`: it writes through `large`, whose bytes are then `medium`'s.
  - `weighted_add_after_merge_reads_large`: two states of 16 values merge into a `medium`
    state, which the weighted `add` then faults on.
-/

namespace ClickHouseGpu.AggregateFunctions

def TINY_MAX_ELEMS : Nat := 31
def BIG_THRESHOLD : Nat := 30000
def SMALL_THRESHOLD : Nat := 1024
def BIG_PRECISION : Nat := 16
def BIG_SIZE : Nat := (BIG_THRESHOLD - SMALL_THRESHOLD) / BIG_PRECISION

/-- A value as `QuantileTimingTiny::insert` and `QuantileTimingMedium::insert` store it. -/
def clamp (x : Nat) : Nat := if x > BIG_THRESHOLD then BIG_THRESHOLD else x

/-! ## `QuantileTimingLarge` -/

namespace detail

/-- The total and the two histograms: by value below `SMALL_THRESHOLD`, by `BIG_PRECISION`
    wide buckets up to `BIG_THRESHOLD`. -/
structure QuantileTimingLarge where
  count : Nat
  count_small : Nat → Nat
  count_big : Nat → Nat

namespace QuantileTimingLarge

/-- `sizeof(QuantileTimingLarge)`. -/
def size : Nat := (1 + SMALL_THRESHOLD + BIG_SIZE) * 8

/-- The constructor's `memset(this, 0, sizeof(*this))`. -/
def empty : QuantileTimingLarge := ⟨0, fun _ => 0, fun _ => 0⟩

def insertWeighted (l : QuantileTimingLarge) (x weight : Nat) : QuantileTimingLarge :=
  let l := { l with count := l.count + weight }
  if x < SMALL_THRESHOLD then
    { l with count_small := fun j => if j = x then l.count_small j + weight else l.count_small j }
  else if x < BIG_THRESHOLD then
    let i := (x - SMALL_THRESHOLD) / BIG_PRECISION
    { l with count_big := fun j => if j = i then l.count_big j + weight else l.count_big j }
  else l

def insert (l : QuantileTimingLarge) (x : Nat) : QuantileTimingLarge := l.insertWeighted x 1

def merge (l rhs : QuantileTimingLarge) : QuantileTimingLarge :=
  ⟨l.count + rhs.count,
    fun i => if i < SMALL_THRESHOLD then l.count_small i + rhs.count_small i else l.count_small i,
    fun i => if i < BIG_SIZE then l.count_big i + rhs.count_big i else l.count_big i⟩

/-- Below `SMALL_THRESHOLD`, a value is its own bucket. -/
def smallOf (v m : Nat) : Bool := m < SMALL_THRESHOLD && m = v

/-- From `SMALL_THRESHOLD` to `BIG_THRESHOLD`, buckets of `BIG_PRECISION` values. -/
def bigOf (i m : Nat) : Bool :=
  SMALL_THRESHOLD ≤ m && m < BIG_THRESHOLD && (m - SMALL_THRESHOLD) / BIG_PRECISION = i

/-- The histogram of the values `M`. -/
structure Represents (l : QuantileTimingLarge) (M : List Nat) : Prop where
  count : l.count = M.length
  small : ∀ v, l.count_small v = M.countP (smallOf v)
  big : ∀ i, l.count_big i = M.countP (bigOf i)

theorem represents_empty : empty.Represents [] := ⟨rfl, fun _ => rfl, fun _ => rfl⟩

theorem smallOf_of_ge {v x : Nat} (hx : ¬ x < SMALL_THRESHOLD) : smallOf v x = false := by
  simp [smallOf, hx]

theorem bigOf_of_lt {i x : Nat} (hx : x < SMALL_THRESHOLD) : bigOf i x = false := by
  simp only [bigOf, Bool.and_eq_false_iff, decide_eq_false_iff_not]
  omega

theorem bigOf_of_ge {i x : Nat} (hx : ¬ x < BIG_THRESHOLD) : bigOf i x = false := by
  simp [bigOf, hx]

/-- A value above `BIG_THRESHOLD` is in no bucket, as its clamped value is not. -/
theorem smallOf_clamp (v x : Nat) : smallOf v (clamp x) = smallOf v x := by
  unfold clamp
  split
  · rename_i hx
    unfold BIG_THRESHOLD at hx
    rw [smallOf_of_ge (by decide), smallOf_of_ge (by unfold SMALL_THRESHOLD; omega)]
  · rfl

theorem bigOf_clamp (i x : Nat) : bigOf i (clamp x) = bigOf i x := by
  unfold clamp
  split
  · rename_i hx
    rw [bigOf_of_ge (Nat.lt_irrefl _), bigOf_of_ge (by omega)]
  · rfl

theorem Represents.insertWeighted {l : QuantileTimingLarge} {M : List Nat} (h : l.Represents M) (x weight : Nat) :
    (l.insertWeighted x weight).Represents (M ++ List.replicate weight x) := by
  have hsmall : ∀ v, (M ++ List.replicate weight x).countP (smallOf v) =
      M.countP (smallOf v) + if smallOf v x then weight else 0 := by
    intro v
    rw [List.countP_append, List.countP_replicate]
  have hbig : ∀ i, (M ++ List.replicate weight x).countP (bigOf i) =
      M.countP (bigOf i) + if bigOf i x then weight else 0 := by
    intro i
    rw [List.countP_append, List.countP_replicate]
  have hcount : (M ++ List.replicate weight x).length = l.count + weight := by
    simp [h.count]
  unfold QuantileTimingLarge.insertWeighted
  split
  · -- the value's own small bucket
    rename_i hx
    refine ⟨hcount.symm, fun v => ?_, fun i => ?_⟩
    · rw [hsmall, ← h.small]
      by_cases hv : v = x
      · simp [smallOf, hv, hx]
      · simp [smallOf, hv, Ne.symm hv]
    · rw [hbig, ← h.big, bigOf_of_lt hx]
      rfl
  · split
    · -- a big bucket
      rename_i hx hx'
      refine ⟨hcount.symm, fun v => ?_, fun i => ?_⟩
      · rw [hsmall, ← h.small, smallOf_of_ge hx]
        rfl
      · rw [hbig, ← h.big]
        by_cases hi : i = (x - SMALL_THRESHOLD) / BIG_PRECISION
        · simp [bigOf, hi, hx', Nat.le_of_not_lt hx]
        · simp only [bigOf, if_neg hi]
          simp [Ne.symm hi]
    · -- no bucket at or above `BIG_THRESHOLD`
      rename_i hx hx'
      refine ⟨hcount.symm, fun v => ?_, fun i => ?_⟩
      · rw [hsmall, ← h.small, smallOf_of_ge hx]
        rfl
      · rw [hbig, ← h.big, bigOf_of_ge hx']
        rfl

theorem Represents.insert {l : QuantileTimingLarge} {M : List Nat} (h : l.Represents M) (x : Nat) :
    (l.insert x).Represents (M ++ [x]) :=
  h.insertWeighted x 1

/-- Inserting stored values one by one. -/
theorem Represents.insertAll {l : QuantileTimingLarge} {M : List Nat} (h : l.Represents M) :
    ∀ xs : List Nat, (xs.foldl QuantileTimingLarge.insert l).Represents (M ++ xs)
  | [] => by simpa using h
  | x :: xs => by
    rw [List.foldl_cons, ← List.singleton_append, ← List.append_assoc]
    exact (h.insert x).insertAll xs

theorem countP_smallOf_map_clamp (M : List Nat) (v : Nat) : (M.map clamp).countP (smallOf v) = M.countP (smallOf v) := by
  rw [List.countP_map]
  congr 1
  funext x
  exact smallOf_clamp v x

theorem countP_bigOf_map_clamp (M : List Nat) (i : Nat) : (M.map clamp).countP (bigOf i) = M.countP (bigOf i) := by
  rw [List.countP_map]
  congr 1
  funext x
  exact bigOf_clamp i x

/-- The histogram does not tell a value from its clamped value. -/
theorem Represents.of_map_clamp {l : QuantileTimingLarge} {M N : List Nat} (h : l.Represents M)
    (hMN : M.map clamp = N.map clamp) : l.Represents N := by
  have hlen : M.length = N.length := by
    rw [← List.length_map (f := clamp), hMN, List.length_map]
  refine ⟨h.count.trans hlen, fun v => ?_, fun i => ?_⟩
  · rw [h.small, ← countP_smallOf_map_clamp, hMN, countP_smallOf_map_clamp]
  · rw [h.big, ← countP_bigOf_map_clamp, hMN, countP_bigOf_map_clamp]

theorem clamp_clamp (x : Nat) : clamp (clamp x) = clamp x := by
  unfold clamp
  split <;> simp

/-- Inserting the stored values of `N` into the histogram of `M`. -/
theorem Represents.insertElems {l : QuantileTimingLarge} {M N : List Nat} {elems : List UInt16}
    (h : l.Represents M) (helems : elems.map UInt16.toNat = N.map clamp) :
    ((elems.map UInt16.toNat).foldl QuantileTimingLarge.insert l).Represents (M ++ N) := by
  apply (h.insertAll _).of_map_clamp
  simp [helems, clamp_clamp]

/-- Only values below `SMALL_THRESHOLD` have a small bucket, only values below `BIG_THRESHOLD`
    a big one, so the merge's loops over the two arrays cover every count. -/
theorem countP_smallOf_of_ge (M : List Nat) {v : Nat} (hv : ¬ v < SMALL_THRESHOLD) : M.countP (smallOf v) = 0 := by
  rw [List.countP_eq_zero]
  intro m _
  simp only [smallOf, Bool.and_eq_true, decide_eq_true_eq, not_and]
  intro hm hmv
  exact hv (hmv ▸ hm)

theorem countP_bigOf_of_ge (M : List Nat) {i : Nat} (hi : ¬ i < BIG_SIZE) : M.countP (bigOf i) = 0 := by
  rw [List.countP_eq_zero]
  intro m _ hm
  simp only [bigOf, Bool.and_eq_true, decide_eq_true_eq] at hm
  obtain ⟨⟨_, hm⟩, hmi⟩ := hm
  unfold BIG_SIZE BIG_THRESHOLD SMALL_THRESHOLD BIG_PRECISION at *
  omega

theorem Represents.merge {l r : QuantileTimingLarge} {M N : List Nat} (hl : l.Represents M) (hr : r.Represents N) :
    (l.merge r).Represents (M ++ N) := by
  refine ⟨by simp [QuantileTimingLarge.merge, hl.count, hr.count], fun v => ?_, fun i => ?_⟩
  · simp only [QuantileTimingLarge.merge, List.countP_append, hl.small, hr.small]
    split
    · rfl
    · rw [countP_smallOf_of_ge N (by assumption), Nat.add_zero]
  · simp only [QuantileTimingLarge.merge, List.countP_append, hl.big, hr.big]
    split
    · rfl
    · rw [countP_bigOf_of_ge N (by assumption), Nat.add_zero]

end QuantileTimingLarge

end detail

/-! ## The union -/

open detail

namespace QuantileTiming

/-- The members of the union. -/
inductive Member where
  | tiny
  | medium
  | large
  deriving DecidableEq, Repr

/-- The member last constructed in the union, with its contents: the first `tiny.count`
    elements of `tiny.elems`, the elements of `medium.elems`, or the histogram `large` points to. -/
inductive Live where
  | tiny (elems : List UInt16)
  | medium (elems : List UInt16)
  | large (large : QuantileTimingLarge)

def Live.member : Live → Member
  | .tiny _ => .tiny
  | .medium _ => .medium
  | .large _ => .large

end QuantileTiming

open QuantileTiming in
structure QuantileTiming where
  /-- `tiny.count`, at the end of the union's 64 bytes. -/
  count : Nat
  live : Live

namespace QuantileTiming

/-- What `which()` reads from `tiny.count`. -/
inductive Kind where
  | Tiny
  | Medium
  | Large
  deriving DecidableEq, Repr

inductive Fault where
  /-- A member read that is not the live one. -/
  | inactive (member : Member)
  | logicalError
  deriving DecidableEq, Repr

/-- `QuantileTiming()`: `tiny.count = 0`. -/
def fresh : QuantileTiming := ⟨0, .tiny []⟩

def which (st : QuantileTiming) : Kind :=
  if st.count ≤ TINY_MAX_ELEMS then .Tiny
  else if st.count = TINY_MAX_ELEMS + 1 then .Medium
  else .Large

/-- A read of `tiny`. -/
def tiny (st : QuantileTiming) : Except Fault (List UInt16) :=
  match st.live with
  | .tiny elems => .ok elems
  | _ => .error (.inactive .tiny)

/-- A read of `medium`. -/
def medium (st : QuantileTiming) : Except Fault (List UInt16) :=
  match st.live with
  | .medium elems => .ok elems
  | _ => .error (.inactive .medium)

/-- A read of `large`. -/
def large (st : QuantileTiming) : Except Fault QuantileTimingLarge :=
  match st.live with
  | .large l => .ok l
  | _ => .error (.inactive .large)

/-- `tiny.insert(x)`. -/
def tinyInsert (st : QuantileTiming) (x : Nat) : Except Fault QuantileTiming := do
  let elems ← st.tiny
  pure ⟨st.count + 1, .tiny (elems.take st.count ++ [(clamp x).toUInt16])⟩

/-- `medium.insert(x)`. -/
def mediumInsert (st : QuantileTiming) (x : Nat) : Except Fault QuantileTiming := do
  let elems ← st.medium
  pure ⟨st.count, .medium (elems ++ [(clamp x).toUInt16])⟩

/-- `large->insertWeighted(x, weight)`. -/
def largeInsertWeighted (st : QuantileTiming) (x weight : Nat) : Except Fault QuantileTiming := do
  let l ← st.large
  pure ⟨st.count, .large (l.insertWeighted x weight)⟩

/-- `large->insert(x)`. -/
def largeInsert (st : QuantileTiming) (x : Nat) : Except Fault QuantileTiming :=
  st.largeInsertWeighted x 1

def tinyToMedium (st : QuantileTiming) : Except Fault QuantileTiming := do
  let tiny_copy ← st.tiny
  pure ⟨TINY_MAX_ELEMS + 1, .medium (tiny_copy.take st.count)⟩

def mediumToLarge (st : QuantileTiming) : Except Fault QuantileTiming := do
  let elems ← st.medium
  let tmp_large := (elems.map UInt16.toNat).foldl QuantileTimingLarge.insert QuantileTimingLarge.empty
  pure ⟨TINY_MAX_ELEMS + 2, .large tmp_large⟩

def tinyToLarge (st : QuantileTiming) : Except Fault QuantileTiming := do
  let elems ← st.tiny
  let tmp_large := ((elems.take st.count).map UInt16.toNat).foldl QuantileTimingLarge.insert QuantileTimingLarge.empty
  pure ⟨TINY_MAX_ELEMS + 2, .large tmp_large⟩

def mediumIsWorthToConvertToLarge (st : QuantileTiming) : Except Fault Bool := do
  let elems ← st.medium
  pure (decide (elems.length ≥ QuantileTimingLarge.size / 2 / 2))

/-- `add(x)`. -/
def add (st : QuantileTiming) (x : Nat) : Except Fault QuantileTiming :=
  if st.count < TINY_MAX_ELEMS then st.tinyInsert x
  else do
    let st ← if st.count = TINY_MAX_ELEMS then st.tinyToMedium else pure st
    if st.which = .Medium then
      if ← st.mediumIsWorthToConvertToLarge then
        let st ← st.mediumToLarge
        st.largeInsert x
      else st.mediumInsert x
    else st.largeInsert x

/-- `add(x, weight)`: `weight` inserts into `tiny` when they fit, otherwise into `large`,
    converting only from `tiny`. -/
def addWeighted (st : QuantileTiming) (x weight : Nat) : Except Fault QuantileTiming :=
  if weight < TINY_MAX_ELEMS ∧ st.count + weight ≤ TINY_MAX_ELEMS then
    (List.replicate weight x).foldlM tinyInsert st
  else do
    let st ← if st.count ≤ TINY_MAX_ELEMS then st.tinyToLarge else pure st
    st.largeInsertWeighted x weight

/-- The conversions at the start of `merge`: the current state takes the larger member of the
    two, and two `tiny` states that do not fit together become `medium`. -/
def mergeConvert (st : QuantileTiming) (kind rhs_kind : Kind) : Except Fault (QuantileTiming × Kind) :=
  if kind = .Tiny ∧ rhs_kind = .Medium then do pure (← st.tinyToMedium, .Medium)
  else if kind = .Tiny ∧ rhs_kind = .Large then do pure (← st.tinyToLarge, .Large)
  else if kind = .Medium ∧ rhs_kind = .Large then do pure (← st.mediumToLarge, .Large)
  else if kind = .Tiny ∧ rhs_kind = .Tiny then do pure (← st.tinyToMedium, .Medium)
  else pure (st, kind)

/-- The merge proper, once the kinds are in order. -/
def mergeInto (st : QuantileTiming) (kind : Kind) (rhs : QuantileTiming) (rhs_kind : Kind) :
    Except Fault QuantileTiming :=
  if kind = .Medium ∧ rhs_kind = .Medium then do
    let elems ← st.medium
    let rhs_elems ← rhs.medium
    pure ⟨st.count, .medium (elems ++ rhs_elems)⟩
  else if kind = .Large ∧ rhs_kind = .Large then do
    let l ← st.large
    let r ← rhs.large
    pure ⟨st.count, .large (l.merge r)⟩
  else if kind = .Medium ∧ rhs_kind = .Tiny then do
    let elems ← st.medium
    let rhs_elems ← rhs.tiny
    pure ⟨st.count, .medium (elems ++ rhs_elems.take rhs.count)⟩
  else if kind = .Large ∧ rhs_kind = .Tiny then do
    let l ← st.large
    let rhs_elems ← rhs.tiny
    pure ⟨st.count, .large (((rhs_elems.take rhs.count).map UInt16.toNat).foldl QuantileTimingLarge.insert l)⟩
  else if kind = .Large ∧ rhs_kind = .Medium then do
    let l ← st.large
    let rhs_elems ← rhs.medium
    pure ⟨st.count, .large ((rhs_elems.map UInt16.toNat).foldl QuantileTimingLarge.insert l)⟩
  else .error .logicalError

/-- `merge(rhs)`. -/
def merge (st rhs : QuantileTiming) : Except Fault QuantileTiming :=
  if st.count + rhs.count ≤ TINY_MAX_ELEMS then do
    let elems ← st.tiny
    let rhs_elems ← rhs.tiny
    pure ⟨st.count + rhs.count, .tiny (elems.take st.count ++ rhs_elems.take rhs.count)⟩
  else do
    let (st, kind) ← mergeConvert st st.which rhs.which
    let st ← mergeInto st kind rhs rhs.which
    -- for determinism, `medium` converts to `large` at the size `add` converts at
    if kind = .Medium then
      if ← st.mediumIsWorthToConvertToLarge then st.mediumToLarge else pure st
    else pure st

/-! ## The invariant -/

/-- The member each kind reads. -/
def Kind.member : Kind → Member
  | .Tiny => .tiny
  | .Medium => .medium
  | .Large => .large

/-- The state holds the values `M`, clamped, in the member `which()` selects: in order in `tiny`
    (its first `tiny.count` elements) and in `medium`, as bucket counts in `large`. -/
inductive Inv : QuantileTiming → List Nat → Prop
  | tiny {count : Nat} {elems : List UInt16} {M : List Nat} (hcount : count = M.length)
      (hlen : count ≤ TINY_MAX_ELEMS) (helems : elems.map UInt16.toNat = M.map clamp) :
      Inv ⟨count, .tiny elems⟩ M
  | medium {elems : List UInt16} {M : List Nat} (helems : elems.map UInt16.toNat = M.map clamp) :
      Inv ⟨TINY_MAX_ELEMS + 1, .medium elems⟩ M
  | large {l : QuantileTimingLarge} {M : List Nat} (hl : l.Represents M) :
      Inv ⟨TINY_MAX_ELEMS + 2, .large l⟩ M

theorem Inv.fresh : Inv fresh [] := .tiny rfl (Nat.zero_le _) rfl

/-- The member `which()` selects is the live one. -/
theorem Inv.live_member {st : QuantileTiming} {M : List Nat} (h : Inv st M) : st.live.member = st.which.member := by
  cases h with
  | tiny _ hlen _ => simp [Live.member, which, hlen, Kind.member]
  | medium => rfl
  | large => rfl

theorem toNat_toUInt16_clamp (x : Nat) : (clamp x).toUInt16.toNat = clamp x := by
  have h : clamp x ≤ BIG_THRESHOLD := by
    unfold clamp
    split <;> omega
  unfold BIG_THRESHOLD at h
  simp [Nat.toUInt16]
  omega

theorem length_eq_of_map_eq {elems : List UInt16} {M : List Nat} (h : elems.map UInt16.toNat = M.map clamp) :
    elems.length = M.length := by
  simpa using congrArg List.length h

theorem Inv.toLarge {elems : List UInt16} {M : List Nat} (helems : elems.map UInt16.toNat = M.map clamp) :
    Inv ⟨TINY_MAX_ELEMS + 2, .large ((elems.map UInt16.toNat).foldl QuantileTimingLarge.insert QuantileTimingLarge.empty)⟩ M :=
  .large (QuantileTimingLarge.represents_empty.insertElems helems)

theorem Inv.toMedium {count : Nat} {elems : List UInt16} {M : List Nat} (hcount : count = M.length)
    (helems : elems.map UInt16.toNat = M.map clamp) : Inv ⟨TINY_MAX_ELEMS + 1, .medium (elems.take count)⟩ M := by
  rw [hcount, ← length_eq_of_map_eq helems, List.take_length]
  exact .medium helems

/-! ### One operation -/

/-! ### The members' operations on their live member -/

section Live

variable (n : Nat) (elems : List UInt16) (l : QuantileTimingLarge) (x weight : Nat)

@[simp] theorem tiny_tiny : tiny ⟨n, .tiny elems⟩ = .ok elems := rfl

@[simp] theorem medium_medium : medium ⟨n, .medium elems⟩ = .ok elems := rfl

@[simp] theorem large_large : large ⟨n, .large l⟩ = .ok l := rfl

theorem which_tiny {n : Nat} (h : n ≤ TINY_MAX_ELEMS) (live : Live) : which ⟨n, live⟩ = .Tiny :=
  if_pos h

@[simp] theorem which_medium (live : Live) : which ⟨TINY_MAX_ELEMS + 1, live⟩ = .Medium := rfl

@[simp] theorem which_large (live : Live) : which ⟨TINY_MAX_ELEMS + 2, live⟩ = .Large := rfl

@[simp] theorem tinyInsert_tiny :
    tinyInsert ⟨n, .tiny elems⟩ x = .ok ⟨n + 1, .tiny (elems.take n ++ [(clamp x).toUInt16])⟩ := rfl

@[simp] theorem mediumInsert_medium :
    mediumInsert ⟨n, .medium elems⟩ x = .ok ⟨n, .medium (elems ++ [(clamp x).toUInt16])⟩ := rfl

@[simp] theorem largeInsertWeighted_large :
    largeInsertWeighted ⟨n, .large l⟩ x weight = .ok ⟨n, .large (l.insertWeighted x weight)⟩ := rfl

@[simp] theorem tinyToMedium_tiny :
    tinyToMedium ⟨n, .tiny elems⟩ = .ok ⟨TINY_MAX_ELEMS + 1, .medium (elems.take n)⟩ := rfl

@[simp] theorem mediumToLarge_medium :
    mediumToLarge ⟨n, .medium elems⟩ =
      .ok ⟨TINY_MAX_ELEMS + 2, .large ((elems.map UInt16.toNat).foldl QuantileTimingLarge.insert QuantileTimingLarge.empty)⟩ :=
  rfl

@[simp] theorem tinyToLarge_tiny :
    tinyToLarge ⟨n, .tiny elems⟩ =
      .ok ⟨TINY_MAX_ELEMS + 2, .large (((elems.take n).map UInt16.toNat).foldl QuantileTimingLarge.insert QuantileTimingLarge.empty)⟩ :=
  rfl

@[simp] theorem mediumIsWorthToConvertToLarge_medium :
    mediumIsWorthToConvertToLarge ⟨n, .medium elems⟩ = .ok (decide (QuantileTimingLarge.size / 2 / 2 ≤ elems.length)) :=
  rfl

end Live

theorem Inv.tinyInsert {count : Nat} {elems : List UInt16} {M : List Nat}
    (h : Inv ⟨count, .tiny elems⟩ M) (hc : count < TINY_MAX_ELEMS) (x : Nat) :
    Inv ⟨count + 1, .tiny (elems.take count ++ [(clamp x).toUInt16])⟩ (M ++ [x]) := by
  cases h with
  | tiny hcount _ helems =>
    refine .tiny (by simp [hcount]) hc ?_
    rw [hcount, ← length_eq_of_map_eq helems, List.take_length]
    simp only [List.map_append, List.map_cons, List.map_nil, helems, toNat_toUInt16_clamp]

theorem Inv.mediumInsert {elems : List UInt16} {M : List Nat} (h : Inv ⟨TINY_MAX_ELEMS + 1, .medium elems⟩ M)
    (x : Nat) : Inv ⟨TINY_MAX_ELEMS + 1, .medium (elems ++ [(clamp x).toUInt16])⟩ (M ++ [x]) := by
  cases h with
  | medium helems =>
    exact .medium (by simp only [List.map_append, List.map_cons, List.map_nil, helems, toNat_toUInt16_clamp])

theorem Inv.largeInsertWeighted {l : QuantileTimingLarge} {M : List Nat} (h : Inv ⟨TINY_MAX_ELEMS + 2, .large l⟩ M)
    (x weight : Nat) : Inv ⟨TINY_MAX_ELEMS + 2, .large (l.insertWeighted x weight)⟩ (M ++ List.replicate weight x) := by
  cases h with
  | large hl => exact .large (hl.insertWeighted x weight)

theorem Inv.largeInsert {l : QuantileTimingLarge} {M : List Nat} (h : Inv ⟨TINY_MAX_ELEMS + 2, .large l⟩ M)
    (x : Nat) : Inv ⟨TINY_MAX_ELEMS + 2, .large (l.insert x)⟩ (M ++ [x]) :=
  h.largeInsertWeighted x 1

theorem add_inv {st : QuantileTiming} {M : List Nat} (h : Inv st M) (x : Nat) :
    ∃ st', st.add x = .ok st' ∧ Inv st' (M ++ [x]) := by
  cases h with
  | @tiny n elems _ hcount hlen helems =>
    by_cases hc : n < TINY_MAX_ELEMS
    · refine ⟨_, ?_, (Inv.tiny hcount hlen helems).tinyInsert hc x⟩
      rw [add, if_pos hc]
      rfl
    · -- the 32nd value: `tiny` becomes `medium`, far below the size of `large`
      have hc31 : n = TINY_MAX_ELEMS := by omega
      have hw : ¬ QuantileTimingLarge.size / 2 / 2 ≤ (elems.take n).length := by
        have : (elems.take n).length ≤ n := List.length_take_le _ _
        unfold TINY_MAX_ELEMS at hc31
        rw [show QuantileTimingLarge.size / 2 / 2 = 5672 by decide]
        omega
      refine ⟨_, ?_, (Inv.toMedium hcount helems).mediumInsert x⟩
      simp only [add, if_neg hc, if_pos hc31, tinyToMedium_tiny, Checked.ok_bind, which_medium, ↓reduceIte,
        mediumIsWorthToConvertToLarge_medium, hw, decide_false, Bool.false_eq_true, mediumInsert_medium]
  | @medium elems _ helems =>
    have hc : ¬ TINY_MAX_ELEMS + 1 < TINY_MAX_ELEMS := by omega
    have hc31 : ¬ TINY_MAX_ELEMS + 1 = TINY_MAX_ELEMS := by omega
    by_cases hw : QuantileTimingLarge.size / 2 / 2 ≤ elems.length
    · -- `medium` has grown to half the size of `large`: convert, then insert
      refine ⟨_, ?_, (Inv.toLarge helems).largeInsert x⟩
      simp only [add, if_neg hc, if_neg hc31, Checked.pure_eq_ok, Checked.ok_bind, which_medium, ↓reduceIte,
        mediumIsWorthToConvertToLarge_medium, hw, decide_true, mediumToLarge_medium]
      rfl
    · refine ⟨_, ?_, (Inv.medium helems).mediumInsert x⟩
      simp only [add, if_neg hc, if_neg hc31, Checked.pure_eq_ok, Checked.ok_bind, which_medium, ↓reduceIte,
        mediumIsWorthToConvertToLarge_medium, hw, decide_false, Bool.false_eq_true, mediumInsert_medium]
  | large hl =>
    exact ⟨_, rfl, (Inv.large hl).largeInsert x⟩

/-- The weighted `add` into `tiny`: one `tiny.insert` per unit of weight, while they fit. -/
theorem tinyInsert_foldlM {n : Nat} {elems : List UInt16} {M : List Nat} (h : Inv ⟨n, .tiny elems⟩ M) :
    ∀ xs : List Nat, n + xs.length ≤ TINY_MAX_ELEMS →
      ∃ st', xs.foldlM tinyInsert ⟨n, .tiny elems⟩ = .ok st' ∧ Inv st' (M ++ xs)
  | [], _ => ⟨_, rfl, by simpa using h⟩
  | x :: xs, hfit => by
    have hc : n < TINY_MAX_ELEMS := by simp at hfit; omega
    obtain ⟨st', hst', hinv⟩ := tinyInsert_foldlM (h.tinyInsert hc x) xs (by simp at hfit; omega)
    refine ⟨st', ?_, by simpa using hinv⟩
    rw [List.foldlM_cons, tinyInsert_tiny, Checked.ok_bind, hst']

theorem addWeighted_inv {st : QuantileTiming} {M : List Nat} (h : Inv st M) (hst : st.which ≠ .Medium)
    (x weight : Nat) : ∃ st', st.addWeighted x weight = .ok st' ∧ Inv st' (M ++ List.replicate weight x) := by
  cases h with
  | @tiny n elems _ hcount hlen helems =>
    by_cases hfit : weight < TINY_MAX_ELEMS ∧ n + weight ≤ TINY_MAX_ELEMS
    · obtain ⟨st', hst', hinv⟩ := tinyInsert_foldlM (Inv.tiny hcount hlen helems) (List.replicate weight x)
        (by rw [List.length_replicate]; exact hfit.2)
      exact ⟨st', by rw [addWeighted, if_pos hfit, hst'], hinv⟩
    · -- `tiny` goes straight to `large`
      have htake : elems.take n = elems := by
        rw [hcount, ← length_eq_of_map_eq helems, List.take_length]
      refine ⟨_, ?_, (Inv.toLarge helems).largeInsertWeighted x weight⟩
      simp only [addWeighted, if_neg hfit, if_pos hlen, tinyToLarge_tiny, Checked.ok_bind, htake,
        largeInsertWeighted_large]
  | medium => exact absurd (which_medium _) hst
  | large hl =>
    have hfit : ¬ (weight < TINY_MAX_ELEMS ∧ TINY_MAX_ELEMS + 2 + weight ≤ TINY_MAX_ELEMS) := by omega
    have hc : ¬ TINY_MAX_ELEMS + 2 ≤ TINY_MAX_ELEMS := by omega
    refine ⟨_, ?_, (Inv.large hl).largeInsertWeighted x weight⟩
    simp only [addWeighted, if_neg hfit, if_neg hc, Checked.pure_eq_ok, Checked.ok_bind, largeInsertWeighted_large]

/-- The weighted `add` on a `medium` state takes it for `large`: it writes through `large`, whose
    bytes are `medium`'s. -/
theorem addWeighted_medium {st : QuantileTiming} {M : List Nat} (h : Inv st M) (hst : st.which = .Medium)
    (x weight : Nat) : st.addWeighted x weight = .error (.inactive .large) := by
  cases h with
  | tiny _ hlen _ => simp [which_tiny hlen] at hst
  | medium =>
    have hfit : ¬ (weight < TINY_MAX_ELEMS ∧ TINY_MAX_ELEMS + 1 + weight ≤ TINY_MAX_ELEMS) := by omega
    have hc : ¬ TINY_MAX_ELEMS + 1 ≤ TINY_MAX_ELEMS := by omega
    simp only [addWeighted, if_neg hfit, if_neg hc, Checked.pure_eq_ok, Checked.ok_bind]
    rfl
  | large => simp at hst

theorem take_count {n : Nat} {elems : List UInt16} {M : List Nat} (hcount : n = M.length)
    (helems : elems.map UInt16.toNat = M.map clamp) : elems.take n = elems := by
  rw [hcount, ← length_eq_of_map_eq helems, List.take_length]

/-- The end of `merge` on a `medium` result: it becomes `large` at the size `add` converts at. -/
theorem merge_medium_tail {elems : List UInt16} {M : List Nat} (helems : elems.map UInt16.toNat = M.map clamp) :
    ∃ st', (if QuantileTimingLarge.size / 2 / 2 ≤ elems.length then
        Except.ok ⟨TINY_MAX_ELEMS + 2, .large ((elems.map UInt16.toNat).foldl QuantileTimingLarge.insert
          QuantileTimingLarge.empty)⟩
      else .ok ⟨TINY_MAX_ELEMS + 1, .medium elems⟩ : Except Fault QuantileTiming) = .ok st' ∧ Inv st' M := by
  split
  · exact ⟨_, rfl, Inv.toLarge helems⟩
  · exact ⟨_, rfl, .medium helems⟩

/-- `merge` never faults on two states that keep the invariant, and the result holds the values of
    both. One case per pair of live members; in each, `merge` is run through the simp lemmas of the
    members' operations. -/
theorem merge_inv {st rhs : QuantileTiming} {M N : List Nat} (h : Inv st M) (hrhs : Inv rhs N) :
    ∃ st', st.merge rhs = .ok st' ∧ Inv st' (M ++ N) := by
  have hmap : ∀ {e f : List UInt16}, e.map UInt16.toNat = M.map clamp → f.map UInt16.toNat = N.map clamp →
      (e ++ f).map UInt16.toNat = (M ++ N).map clamp := by
    intro e f he hf
    rw [List.map_append, he, hf, List.map_append]
  cases h with
  | @tiny n elems _ hcount hlen helems =>
    cases hrhs with
    | @tiny m rhs_elems _ hcount' hlen' helems' =>
      by_cases hfit : n + m ≤ TINY_MAX_ELEMS
      · -- both fit in `tiny`
        refine ⟨_, ?_, @Inv.tiny (n + m) (elems.take n ++ rhs_elems.take m) (M ++ N)
          (by rw [hcount, hcount', List.length_append]) hfit ?_⟩
        · rw [merge, if_pos hfit]
          rfl
        · rw [take_count hcount helems, take_count hcount' helems']
          exact hmap helems helems'
      · -- two `tiny` states that do not fit together become `medium`
        simp only [if_neg hfit, which_tiny hlen, which_tiny hlen', take_count hcount helems,
          take_count hcount' helems', merge, mergeConvert, mergeInto, tiny_tiny, medium_medium, tinyToMedium_tiny,
          mediumToLarge_medium, mediumIsWorthToConvertToLarge_medium, Checked.ok_bind, Checked.pure_eq_ok,
          reduceCtorEq, and_self, and_true, and_false, ↓reduceIte, decide_eq_true_eq]
        exact merge_medium_tail (hmap helems helems')
    | @medium rhs_elems _ helems' =>
      have hfit : ¬ n + (TINY_MAX_ELEMS + 1) ≤ TINY_MAX_ELEMS := by omega
      simp only [if_neg hfit, which_tiny hlen, take_count hcount helems, merge, mergeConvert, mergeInto,
        tiny_tiny, medium_medium, which_medium, tinyToMedium_tiny, mediumToLarge_medium,
        mediumIsWorthToConvertToLarge_medium, Checked.ok_bind, Checked.pure_eq_ok, reduceCtorEq, and_self,
        and_true, and_false, ↓reduceIte, decide_eq_true_eq]
      exact merge_medium_tail (hmap helems helems')
    | large hr =>
      have hfit : ¬ n + (TINY_MAX_ELEMS + 2) ≤ TINY_MAX_ELEMS := by omega
      simp only [if_neg hfit, which_tiny hlen, take_count hcount helems, merge, mergeConvert, mergeInto,
        tiny_tiny, large_large, which_large, tinyToLarge_tiny, Checked.ok_bind, Checked.pure_eq_ok,
        reduceCtorEq, and_self, and_true, and_false, ↓reduceIte]
      exact ⟨_, rfl, .large ((QuantileTimingLarge.represents_empty.insertElems helems).merge hr)⟩
  | @medium elems _ helems =>
    cases hrhs with
    | @tiny m rhs_elems _ hcount' hlen' helems' =>
      have hfit : ¬ TINY_MAX_ELEMS + 1 + m ≤ TINY_MAX_ELEMS := by omega
      simp only [if_neg hfit, which_tiny hlen', take_count hcount' helems', merge, mergeConvert, mergeInto,
        tiny_tiny, medium_medium, which_medium, mediumToLarge_medium, mediumIsWorthToConvertToLarge_medium,
        Checked.ok_bind, Checked.pure_eq_ok, reduceCtorEq, and_self, and_true, and_false, ↓reduceIte,
        decide_eq_true_eq]
      exact merge_medium_tail (hmap helems helems')
    | @medium rhs_elems _ helems' =>
      have hfit : ¬ TINY_MAX_ELEMS + 1 + (TINY_MAX_ELEMS + 1) ≤ TINY_MAX_ELEMS := by omega
      simp only [if_neg hfit, merge, mergeConvert, mergeInto, medium_medium, which_medium,
        mediumToLarge_medium, mediumIsWorthToConvertToLarge_medium, Checked.ok_bind, Checked.pure_eq_ok,
        reduceCtorEq, and_self, and_true, and_false, ↓reduceIte, decide_eq_true_eq]
      exact merge_medium_tail (hmap helems helems')
    | large hr =>
      have hfit : ¬ TINY_MAX_ELEMS + 1 + (TINY_MAX_ELEMS + 2) ≤ TINY_MAX_ELEMS := by omega
      simp only [if_neg hfit, merge, mergeConvert, mergeInto, large_large, which_medium, which_large,
        mediumToLarge_medium, Checked.ok_bind, Checked.pure_eq_ok, reduceCtorEq, and_self, and_true,
        and_false, ↓reduceIte]
      exact ⟨_, rfl, .large ((QuantileTimingLarge.represents_empty.insertElems helems).merge hr)⟩
  | large hl =>
    cases hrhs with
    | @tiny m rhs_elems _ hcount' hlen' helems' =>
      have hfit : ¬ TINY_MAX_ELEMS + 2 + m ≤ TINY_MAX_ELEMS := by omega
      simp only [if_neg hfit, which_tiny hlen', take_count hcount' helems', merge, mergeConvert, mergeInto,
        tiny_tiny, large_large, which_large, Checked.ok_bind, Checked.pure_eq_ok, reduceCtorEq, and_self,
        and_true, and_false, ↓reduceIte]
      exact ⟨_, rfl, .large (hl.insertElems helems')⟩
    | @medium rhs_elems _ helems' =>
      have hfit : ¬ TINY_MAX_ELEMS + 2 + (TINY_MAX_ELEMS + 1) ≤ TINY_MAX_ELEMS := by omega
      simp only [if_neg hfit, merge, mergeConvert, mergeInto, medium_medium, large_large, which_medium,
        which_large, Checked.ok_bind, Checked.pure_eq_ok, reduceCtorEq, and_self, and_true, and_false,
        ↓reduceIte]
      exact ⟨_, rfl, .large (hl.insertElems helems')⟩
    | large hr =>
      have hfit : ¬ TINY_MAX_ELEMS + 2 + (TINY_MAX_ELEMS + 2) ≤ TINY_MAX_ELEMS := by omega
      simp only [if_neg hfit, merge, mergeConvert, mergeInto, large_large, which_large, Checked.ok_bind,
        Checked.pure_eq_ok, reduceCtorEq, and_self, and_true, and_false, ↓reduceIte]
      exact ⟨_, rfl, .large (hl.merge hr)⟩

/-! ## Runs -/

/-- The states `add`, weighted `add` and `merge` reach from fresh ones, with the values added;
    a weight counts as so many copies. -/
inductive Built : QuantileTiming → List Nat → Prop
  | fresh : Built fresh []
  | add {st st' : QuantileTiming} {M : List Nat} {x : Nat} :
      Built st M → st.add x = .ok st' → Built st' (M ++ [x])
  | addWeighted {st st' : QuantileTiming} {M : List Nat} {x weight : Nat} :
      Built st M → st.addWeighted x weight = .ok st' → Built st' (M ++ List.replicate weight x)
  | merge {st rhs st' : QuantileTiming} {M N : List Nat} :
      Built st M → Built rhs N → st.merge rhs = .ok st' → Built st' (M ++ N)

theorem inv_of_ok {x : Except Fault QuantileTiming} {st : QuantileTiming} {M : List Nat}
    (h : ∃ st', x = .ok st' ∧ Inv st' M) (hx : x = .ok st) : Inv st M := by
  obtain ⟨st', hst', hinv⟩ := h
  rw [hst', Except.ok.injEq] at hx
  exact hx ▸ hinv

/-- Every built state keeps its values in the member `tiny.count` selects. -/
theorem built_inv {st : QuantileTiming} {M : List Nat} (h : Built st M) : Inv st M := by
  induction h with
  | fresh => exact Inv.fresh
  | add _ hst ih => exact inv_of_ok (add_inv ih _) hst
  | @addWeighted st _ _ x weight _ hst ih =>
    by_cases hm : st.which = .Medium
    · -- the weighted `add` on `medium` faults, so it built nothing
      rw [addWeighted_medium ih hm] at hst
      cases hst
    · exact inv_of_ok (addWeighted_inv ih hm x weight) hst
  | merge _ _ hst ih ih' => exact inv_of_ok (merge_inv ih ih') hst

theorem built_live_member {st : QuantileTiming} {M : List Nat} (h : Built st M) :
    st.live.member = st.which.member :=
  (built_inv h).live_member

/-- On a built state, `add` and `merge` never fault; the weighted `add` faults exactly on
    `medium` states. -/
theorem built_add_total {st : QuantileTiming} {M : List Nat} (h : Built st M) (x : Nat) :
    ∃ st', st.add x = .ok st' ∧ Built st' (M ++ [x]) := by
  obtain ⟨st', hst', _⟩ := add_inv (built_inv h) x
  exact ⟨st', hst', .add h hst'⟩

theorem built_add_total_fresh : Built fresh [] ∧ ∃ st', fresh.add 7 = .ok st' ∧ Built st' ([] ++ [7]) :=
  ⟨.fresh, built_add_total .fresh 7⟩

theorem built_merge_total {st rhs : QuantileTiming} {M N : List Nat} (h : Built st M) (hrhs : Built rhs N) :
    ∃ st', st.merge rhs = .ok st' ∧ Built st' (M ++ N) := by
  obtain ⟨st', hst', _⟩ := merge_inv (built_inv h) (built_inv hrhs)
  exact ⟨st', hst', .merge h hrhs hst'⟩

theorem built_merge_total_fresh :
    Built fresh [] ∧ Built fresh [] ∧ ∃ st', fresh.merge fresh = .ok st' ∧ Built st' ([] ++ []) :=
  ⟨.fresh, .fresh, built_merge_total .fresh .fresh⟩

/-- Two states of 16 values each, added with weight 1, merge into a `medium` state; a weighted
    `add` on it writes through `large`, which is not the live member. -/
theorem weighted_add_after_merge_reads_large :
    ∃ a b m, (List.replicate 16 5).foldlM (fun st x => st.addWeighted x 1) fresh = .ok a ∧
      (List.replicate 16 5).foldlM (fun st x => st.addWeighted x 1) fresh = .ok b ∧
      a.merge b = .ok m ∧ m.which = .Medium ∧ m.live.member = .medium ∧
      m.addWeighted 7 2 = .error (.inactive .large) :=
  ⟨_, _, _, rfl, rfl, rfl, rfl, rfl, rfl⟩

end QuantileTiming

end ClickHouseGpu.AggregateFunctions
