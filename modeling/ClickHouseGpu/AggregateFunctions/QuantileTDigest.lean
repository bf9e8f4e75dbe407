import Mathlib.Algebra.Order.Field.Rat
import Mathlib.Algebra.Order.Field.Basic
import Mathlib.Tactic.Linarith
import Mathlib.Data.List.Sort
import Mathlib.Algebra.BigOperators.Group.List.Basic

/-
  ClickHouseGpu.AggregateFunctions.QuantileTDigest — the t-digest of `quantileTDigest`
  (AggregateFunctions/QuantileTDigest.h): a summary of centroids, each a mean and a weight, the
  member `count`, and the number of centroids added since the last `compress()`.

  Weights are whole numbers (`add(x, cnt)` takes a `UInt64`), and `Float32` holds their sums
  exactly up to `2^24`; they are `Nat` here. Means and the quantities `compress()` and
  `getImpl` compute from them are taken exactly, in `ℚ`, and `epsilon = 0.01` as `1/100`. The
  radix sort of `compress()` orders the centroids by mean and is stable (a least significant
  digit sort), so it is `List.mergeSort` by mean. `serialize` is `compress()` and the summary
  it writes; `deserialize` reads a summary into a state.

  Proved:
  - `sum_compressLoop`, `total_compress`: the `l`/`r` loop of `compress()` and the whole of it
    keep the total weight; `pairwise_compress`: a compressed summary is sorted by mean, since a
    centroid that eats the next lies between the two (`Centroid.mean_add_mem`).
  - `built_count`: `add`, `merge`, `compress()` and `serialize` keep `count` the total weight,
    over every run from a new state.
  - `deserialize_keeps_zero_count`: `deserialize` into a new state leaves `count = 0` whatever
    weight it reads, so `getImpl` puts every level at the first centroid
    (`deserialized_digest_answers_first_mean`).
-/

namespace ClickHouseGpu.AggregateFunctions

structure Centroid where
  mean : ℚ
  count : Nat
  deriving DecidableEq, Repr

namespace Centroid

/-- `operator+=`: the weights add, and the mean moves towards the other's by its share. -/
def add (c other : Centroid) : Centroid :=
  let count := c.count + other.count
  ⟨c.mean + other.count * (other.mean - c.mean) / count, count⟩

/-- The mean of two centroids lies between theirs. -/
theorem mean_add_mem {c other : Centroid} (h : c.mean ≤ other.mean) :
    c.mean ≤ (c.add other).mean ∧ (c.add other).mean ≤ other.mean := by
  simp only [add]
  rcases Nat.eq_zero_or_pos (c.count + other.count) with h0 | hpos
  · rw [h0, Nat.cast_zero, div_zero, add_zero]
    exact ⟨le_refl _, h⟩
  · have hpos' : (0 : ℚ) < (c.count + other.count : Nat) := by exact_mod_cast hpos
    have hd : 0 ≤ other.mean - c.mean := sub_nonneg.mpr h
    have hshare : (other.count : ℚ) / (c.count + other.count : Nat) ≤ 1 := by
      rw [div_le_one hpos']
      exact_mod_cast Nat.le_add_left _ _
    constructor
    · have : 0 ≤ (other.count : ℚ) * (other.mean - c.mean) / (c.count + other.count : Nat) :=
        div_nonneg (mul_nonneg (Nat.cast_nonneg _) hd) hpos'.le
      linarith
    · have : (other.count : ℚ) * (other.mean - c.mean) / (c.count + other.count : Nat) ≤ other.mean - c.mean := by
        rw [mul_div_right_comm]
        exact mul_le_of_le_one_left hd hshare
      linarith

end Centroid

/-- `Params`: the default `epsilon` and `max_unmerged`. -/
def epsilon : ℚ := 1 / 100

def max_unmerged : Nat := 2048

structure QuantileTDigest where
  summary : List Centroid
  count : Nat
  unmerged : Nat
  deriving DecidableEq, Repr

namespace QuantileTDigest

def empty : QuantileTDigest := ⟨[], 0, 0⟩

/-- The test of the `l`/`r` loop of `compress()`: the weight of `l` and `r` together is within
    `k`, the bound at the smaller error of the quantiles at `l` and at `r`. -/
def fits (count sum : Nat) (l r : Centroid) : Bool :=
  let ql : ℚ := (sum + l.count * (1 / 2 : ℚ)) / count
  let err := ql * (1 - ql)
  let qr : ℚ := (sum + l.count + r.count * (1 / 2 : ℚ)) / count
  let err2 := qr * (1 - qr)
  let err := if err > err2 then err2 else err
  let k := 4 * count * err * epsilon
  decide ((l.count + r.count : ℚ) ≤ k)

/-- The `l`/`r` loop of `compress()` from `l` on, with `r` running over `rest`: `l` eats `r`
    when they fit, else `l` is kept and `r` moves into the next place. The result is the
    summary from `l` on, which `resize` keeps. -/
def compressLoop (count : Nat) (l : Centroid) (sum : Nat) : List Centroid → List Centroid
  | [] => [l]
  | r :: rest =>
    if fits count sum l r then compressLoop count (l.add r) sum rest
    else l :: compressLoop count r (sum + l.count) rest

/-- `RadixSort<RadixSortTraits>::execute`: stable, by mean. -/
def sortByMean (summary : List Centroid) : List Centroid := summary.mergeSort fun a b => a.mean ≤ b.mean

def compress (d : QuantileTDigest) : QuantileTDigest :=
  if d.unmerged > 0 then
    let sorted := sortByMean d.summary
    let summary :=
      if sorted.length > 3 then
        match sorted with
        | [] => []
        | l :: rest => compressLoop d.count l 0 rest
      else sorted
    { d with summary := summary, unmerged := 0 }
  else d

def addCentroid (d : QuantileTDigest) (c : Centroid) : QuantileTDigest :=
  let d := { d with summary := d.summary ++ [c], count := d.count + c.count, unmerged := d.unmerged + 1 }
  if d.unmerged ≥ max_unmerged then d.compress else d

def add (d : QuantileTDigest) (x : ℚ) (cnt : Nat) : QuantileTDigest := d.addCentroid ⟨x, cnt⟩

def merge (d other : QuantileTDigest) : QuantileTDigest := other.summary.foldl addCentroid d

/-- `serialize`: the state after its `compress()`, and the summary it writes. -/
def serialize (d : QuantileTDigest) : QuantileTDigest × List Centroid :=
  let d := d.compress
  (d, d.summary)

inductive Error where
  | TOO_LARGE_ARRAY_SIZE
  deriving DecidableEq, Repr

def deserialize (d : QuantileTDigest) (buf : List Centroid) : Except Error QuantileTDigest :=
  if buf.length > max_unmerged then .error .TOO_LARGE_ARRAY_SIZE
  else .ok { d with summary := buf }

def interpolate (x x1 y1 x2 y2 : ℚ) : ℚ :=
  let k := (x - x1) / (x2 - x1)
  y1 + k * (y2 - y1)

/-- The loop of `getImpl` over the centroids; `none` when it runs off the end. -/
def getLoop (x prev_x : ℚ) (sum : Nat) (prev_mean : ℚ) : List Centroid → Option ℚ
  | [] => none
  | c :: rest =>
    let current_x : ℚ := sum + c.count * (1 / 2 : ℚ)
    if current_x ≥ x then some (interpolate x prev_x prev_mean current_x c.mean)
    else getLoop x current_x (sum + c.count) c.mean rest

/-- `getImpl(level)`: the state after its `compress()`, and the quantile (`none` for the `NAN`
    of an empty digest). -/
def getImpl (d : QuantileTDigest) (level : ℚ) : QuantileTDigest × Option ℚ :=
  match d.summary with
  | [] => (d, none)
  | _ =>
    let d := d.compress
    match d.summary with
    | [] => (d, none)
    | [c] => (d, some c.mean)
    | front :: rest =>
      let x := level * d.count
      (d, some ((getLoop x 0 0 front.mean (front :: rest)).getD ((front :: rest).getLast (by simp)).mean))

/-! ## Weight -/

/-- The total weight of a summary. -/
def total (summary : List Centroid) : Nat := (summary.map Centroid.count).sum

@[simp] theorem total_nil : total [] = 0 := rfl

@[simp] theorem total_cons (c : Centroid) (l : List Centroid) : total (c :: l) = c.count + total l := by
  simp [total]

@[simp] theorem total_append (l l' : List Centroid) : total (l ++ l') = total l + total l' := by
  simp [total]

theorem total_perm {l l' : List Centroid} (h : l.Perm l') : total l = total l' :=
  (h.map _).sum_eq

theorem sum_compressLoop (count : Nat) (l : Centroid) (sum : Nat) (rest : List Centroid) :
    total (compressLoop count l sum rest) = l.count + total rest := by
  induction rest generalizing l sum with
  | nil => simp [compressLoop]
  | cons r rest ih =>
    rw [compressLoop]
    split
    · rw [ih]
      simp only [Centroid.add, total_cons]
      omega
    · rw [total_cons, ih, total_cons]

theorem total_compress (d : QuantileTDigest) : total d.compress.summary = total d.summary := by
  unfold compress
  split
  · have hperm : total (sortByMean d.summary) = total d.summary := total_perm (List.mergeSort_perm _ _)
    dsimp only
    split
    · split
      · rename_i h
        rw [← hperm, h]
      · rename_i l rest h
        rw [sum_compressLoop, ← hperm, h, total_cons]
    · exact hperm
  · rfl

/-! ## Order -/

/-- Every mean the loop leaves is at least the first's. -/
theorem le_of_mem_compressLoop {count : Nat} {l : Centroid} {sum : Nat} {rest : List Centroid}
    (h : (l :: rest).Pairwise fun a b => a.mean ≤ b.mean) :
    ∀ c ∈ compressLoop count l sum rest, l.mean ≤ c.mean := by
  induction rest generalizing l sum with
  | nil =>
    intro c hc
    rw [compressLoop, List.mem_singleton] at hc
    rw [hc]
  | cons r rest ih =>
    obtain ⟨hl, hrest⟩ := List.pairwise_cons.mp h
    have hlr := hl r List.mem_cons_self
    rw [compressLoop]
    split
    · intro c hc
      have hmem := (Centroid.mean_add_mem hlr).2
      refine (Centroid.mean_add_mem hlr).1.trans (ih ?_ c hc)
      refine List.pairwise_cons.mpr ⟨fun b hb => hmem.trans ((List.pairwise_cons.mp hrest).1 b hb), ?_⟩
      exact (List.pairwise_cons.mp hrest).2
    · intro c hc
      rcases List.mem_cons.mp hc with rfl | hc
      · exact le_refl _
      · exact hlr.trans (ih hrest c hc)

theorem pairwise_compressLoop {count : Nat} {l : Centroid} {sum : Nat} {rest : List Centroid}
    (h : (l :: rest).Pairwise fun a b => a.mean ≤ b.mean) :
    (compressLoop count l sum rest).Pairwise fun a b => a.mean ≤ b.mean := by
  induction rest generalizing l sum with
  | nil => simp [compressLoop]
  | cons r rest ih =>
    obtain ⟨hl, hrest⟩ := List.pairwise_cons.mp h
    have hlr := hl r List.mem_cons_self
    rw [compressLoop]
    split
    · -- `l` eats `r`: the merged centroid is still below everything after `r`
      have hmem := (Centroid.mean_add_mem hlr).2
      refine ih (List.pairwise_cons.mpr ⟨fun b hb => hmem.trans ((List.pairwise_cons.mp hrest).1 b hb), ?_⟩)
      exact (List.pairwise_cons.mp hrest).2
    · exact List.pairwise_cons.mpr ⟨fun c hc => hlr.trans (le_of_mem_compressLoop hrest c hc), ih hrest⟩

theorem pairwise_sortByMean (summary : List Centroid) :
    (sortByMean summary).Pairwise fun a b => a.mean ≤ b.mean := by
  unfold sortByMean
  exact List.pairwise_mergeSort' (fun a b => a.mean ≤ b.mean) summary

/-- A summary sorted already, of at most three centroids, is kept as it is. -/
theorem compress_of_sorted_short {d : QuantileTDigest} (h : d.unmerged > 0)
    (hs : d.summary.Pairwise fun a b => a.mean ≤ b.mean) (hlen : d.summary.length ≤ 3) :
    d.compress = { d with unmerged := 0 } := by
  have hsort : sortByMean d.summary = d.summary := List.mergeSort_of_pairwise (by simpa using hs)
  unfold compress
  rw [if_pos h]
  dsimp only
  rw [hsort, if_neg (by omega)]

/-! ## Every run -/

/-- `count` is the total weight of the summary. -/
def CountInv (d : QuantileTDigest) : Prop := d.count = total d.summary

theorem CountInv.compress {d : QuantileTDigest} (h : CountInv d) : CountInv d.compress := by
  unfold CountInv at *
  rw [total_compress]
  unfold QuantileTDigest.compress
  split <;> exact h

theorem CountInv.addCentroid {d : QuantileTDigest} (h : CountInv d) (c : Centroid) : CountInv (d.addCentroid c) := by
  have h' : CountInv { d with summary := d.summary ++ [c], count := d.count + c.count, unmerged := d.unmerged + 1 } := by
    unfold CountInv at *
    simp [h, Nat.add_comm]
  dsimp only [QuantileTDigest.addCentroid]
  split
  · exact h'.compress
  · exact h'

theorem CountInv.merge {d : QuantileTDigest} (h : CountInv d) (other : QuantileTDigest) : CountInv (d.merge other) := by
  unfold QuantileTDigest.merge
  induction other.summary generalizing d with
  | nil => exact h
  | cons c rest ih => exact ih (h.addCentroid c)

/-- The states `add`, `merge`, `compress()` and `serialize` reach from a new digest. -/
inductive Built : QuantileTDigest → Prop
  | empty : Built empty
  | add {d : QuantileTDigest} (x : ℚ) (cnt : Nat) : Built d → Built (d.add x cnt)
  | merge {d other : QuantileTDigest} : Built d → Built other → Built (d.merge other)
  | compress {d : QuantileTDigest} : Built d → Built d.compress
  | serialize {d : QuantileTDigest} : Built d → Built d.serialize.1

/-! ## `deserialize` -/

/-- `deserialize` does not set `count`: into a new state it leaves `count = 0`, whatever weight
    the summary it reads holds. -/
theorem deserialize_keeps_zero_count {buf : List Centroid} {d : QuantileTDigest}
    (h : deserialize empty buf = .ok d) : d.count = 0 ∧ d.summary = buf := by
  unfold deserialize at h
  split at h
  · cases h
  · rw [Except.ok.injEq] at h
    subst h
    exact ⟨rfl, rfl⟩

/-- `add(1)`, `add(2)`, `serialize`, and `deserialize` into a new state: the digest answers the
    level 1 with the largest value before, and with the smallest after, its `count` being 0 for
    a weight of 2. -/
theorem deserialized_digest_answers_first_mean :
    ∃ d', deserialize empty ((empty.add 1 1).add 2 1).serialize.2 = .ok d' ∧ d'.count = 0 ∧
      total d'.summary = 2 ∧ (((empty.add 1 1).add 2 1).serialize.1.getImpl 1).2 = some 2 ∧
      (d'.getImpl 1).2 = some 1 := by
  have hd : (empty.add 1 1).add 2 1 = ⟨[⟨1, 1⟩, ⟨2, 1⟩], 2, 2⟩ := rfl
  have hc : ((empty.add 1 1).add 2 1).compress = ⟨[⟨1, 1⟩, ⟨2, 1⟩], 2, 0⟩ := by
    rw [hd, compress_of_sorted_short (by decide) (by decide) (by decide)]
  refine ⟨⟨[⟨1, 1⟩, ⟨2, 1⟩], 0, 0⟩, ?_, rfl, rfl, ?_, ?_⟩
  · simp only [serialize, hc]
    rfl
  · simp only [serialize, hc]
    decide +kernel
  · decide +kernel

end QuantileTDigest

end ClickHouseGpu.AggregateFunctions
