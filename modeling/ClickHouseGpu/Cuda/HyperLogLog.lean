import ClickHouseGpu.Lib.Probe

/-
  ClickHouseGpu.Cuda.HyperLogLog — `uniqHLL12` on the GPU against the CPU state it stands
  for: `CudaHyperLogLogWithSmallSetOptimization<UInt64, 16, 12>` (with `CudaSmallSet`) and
  `HyperLogLogWithSmallSetOptimization<UInt64, 16, 12>` (with `SmallSet`).

  Both keep the first 16 distinct keys in a small set and switch to a HyperLogLog counter
  beyond. The GPU state always feeds its counter, keeps the zero key as a flag outside the
  16 cells, and merges a small right-hand side by inserting its cells
  `0 .. sizeWithoutZeroElem() - 1`; `sizeWithoutZeroElem` is declared `bool`, so the bound
  is 1 whenever the other set holds a non-zero key.

  The two HyperLogLog counters are taken as their rank stores (bucket to the largest rank
  seen), updated by one map `bucketRank` from a key to its bucket and rank and read by one
  estimate `estimate`: this is the claim's assumption that `CudaIntHash32` is `intHash32`
  and that the host evaluates the same formula on equal rank stores. Keys are naturals (the
  `UInt64` values), 0 the zero key; the GPU threads of a kernel run one after the other.

  Proved:
  - `gpu_merge_inserts_one`: merging a small state holding keys `k :: ks` inserts `k` only.
  - `gpu_size_ne_cpu_size`: for the list `[5, 1, 2]` cut into the parts `[5]` and `[1, 2]`,
    the GPU estimate is 2 and the CPU one 3, for every rank map and estimate formula.
-/

namespace ClickHouseGpu.Cuda.HyperLogLog

open LinearProbe

/-- A HyperLogLog counter's rank store. -/
structure Counter where
  ranks : Nat → Nat

namespace Counter

def empty : Counter := ⟨fun _ => 0⟩

/-- `insert(value)`: the key's bucket keeps the larger rank. -/
def insert (bucketRank : Nat → Nat × Nat) (c : Counter) (value : Nat) : Counter :=
  let br := bucketRank value
  ⟨upd c.ranks br.1 (max (c.ranks br.1) br.2)⟩

def merge (c rhs : Counter) : Counter := ⟨fun b => max (c.ranks b) (rhs.ranks b)⟩

def size (estimate : (Nat → Nat) → Nat) (c : Counter) : Nat := estimate c.ranks

end Counter

/-! ## The GPU state -/

/-- `CudaSmallSet<Key, 16>`; `buf` holds the 16 cells. -/
structure CudaSmallSet where
  has_zero_elem : Bool
  buf : List Nat

/-- `tryInsert`'s loop over the cells: the key is found, or takes the first empty cell. -/
def tryInsertBuf (key : Nat) : List Nat → Option (List Nat)
  | [] => none
  | x :: rest => if x = key then some (x :: rest) else if x = 0 then some (key :: rest) else (tryInsertBuf key rest).map (x :: ·)

/-- `while (res < capacity) { if (buf[res] is zero) break; ++res; }` -/
def leadingNonzero : List Nat → Nat
  | [] => 0
  | x :: rest => if x = 0 then 0 else leadingNonzero rest + 1

namespace CudaSmallSet

/-- `initNonzeroData()` over zeroed memory. -/
def initNonzeroData : CudaSmallSet := ⟨false, List.replicate 16 0⟩

def tryInsert (s : CudaSmallSet) (key : Nat) : Bool × CudaSmallSet :=
  if key = 0 then (true, { s with has_zero_elem := true })
  else
    match tryInsertBuf key s.buf with
    | some b => (true, { s with buf := b })
    | none => (false, s)

def size (s : CudaSmallSet) : Nat := leadingNonzero s.buf + if s.has_zero_elem then 1 else 0

/-- Declared `bool`: the count it computes comes back as `count != 0`. -/
def sizeWithoutZeroElem (s : CudaSmallSet) : Bool := leadingNonzero s.buf != 0

def getWithoutZeroElem (s : CudaSmallSet) (i : Nat) : Nat := s.buf.getD i 0

end CudaSmallSet

/-- `CudaHyperLogLogWithSmallSetOptimization<UInt64, 16, 12>`. -/
structure CudaHyperLogLogWithSmallSetOptimization where
  is_large : Bool
  small : CudaSmallSet
  large : Counter

namespace CudaHyperLogLogWithSmallSetOptimization

variable (bucketRank : Nat → Nat × Nat) (estimate : (Nat → Nat) → Nat)

def initNonzeroData : CudaHyperLogLogWithSmallSetOptimization := ⟨false, CudaSmallSet.initNonzeroData, Counter.empty⟩

def insert (s : CudaHyperLogLogWithSmallSetOptimization) (value : Nat) : CudaHyperLogLogWithSmallSetOptimization :=
  let large := s.large.insert bucketRank value
  if !s.is_large then
    let r := s.small.tryInsert value
    { s with large := large, small := r.2, is_large := !r.1 }
  else { s with large := large }

def size (s : CudaHyperLogLogWithSmallSetOptimization) : Nat :=
  if !s.is_large then s.small.size else s.large.size estimate

/-- `for (UInt8 i = 0; i < rhs.small.sizeWithoutZeroElem(); ++i)`: the comparison with a
    `bool` bounds `i` by `1` or `0`. -/
def merge (s rhs : CudaHyperLogLogWithSmallSetOptimization) : CudaHyperLogLogWithSmallSetOptimization :=
  if rhs.is_large then { s with is_large := true, large := s.large.merge rhs.large }
  else
    let t := (List.range rhs.small.sizeWithoutZeroElem.toNat).foldl
      (fun t i => insert bucketRank t (rhs.small.getWithoutZeroElem i)) s
    if rhs.small.has_zero_elem then insert bucketRank t 0 else t

/-- `kerCudaAddBulk` for one part, its threads one after another. -/
def ofPart (part : List Nat) : CudaHyperLogLogWithSmallSetOptimization := part.foldl (insert bucketRank) initNonzeroData

/-- Each part in its own state, parts `1..n` merged into part 0, then `size()`. -/
def sizeOfParts : List (List Nat) → Nat
  | [] => size estimate initNonzeroData
  | p :: ps => size estimate (ps.foldl (fun t q => merge bucketRank t (ofPart bucketRank q)) (ofPart bucketRank p))

end CudaHyperLogLogWithSmallSetOptimization

/-! ## The CPU state -/

/-- `HyperLogLogWithSmallSetOptimization<UInt64, 16, 12>`: the small set's keys in insertion
    order, and the counter once it exists. -/
structure HyperLogLogWithSmallSetOptimization where
  small : List Nat
  large : Option Counter

namespace HyperLogLogWithSmallSetOptimization

variable (bucketRank : Nat → Nat × Nat) (estimate : (Nat → Nat) → Nat)

def empty : HyperLogLogWithSmallSetOptimization := ⟨[], none⟩

/-- `toLarge`: the small set's keys go into a fresh counter. -/
def toLarge (s : HyperLogLogWithSmallSetOptimization) : Counter := s.small.foldl (Counter.insert bucketRank) Counter.empty

def insert (s : HyperLogLogWithSmallSetOptimization) (value : Nat) : HyperLogLogWithSmallSetOptimization :=
  match s.large with
  | some l => { s with large := some (l.insert bucketRank value) }
  | none =>
    if value ∈ s.small then s
    else if s.small.length < 16 then { s with small := s.small ++ [value] }
    else { s with large := some ((toLarge bucketRank s).insert bucketRank value) }

def size (s : HyperLogLogWithSmallSetOptimization) : Nat :=
  match s.large with
  | none => s.small.length
  | some l => l.size estimate

/-- `merge`: a large right-hand side's counter goes into this state's counter, made by `toLarge`
    first if there is none; a small one's keys are inserted one by one. -/
def merge (s rhs : HyperLogLogWithSmallSetOptimization) : HyperLogLogWithSmallSetOptimization :=
  match rhs.large with
  | some r => { s with large := some ((s.large.getD (toLarge bucketRank s)).merge r) }
  | none => rhs.small.foldl (insert bucketRank) s

end HyperLogLogWithSmallSetOptimization

/-! ## The merge of a small state -/

/-- A small right-hand side with non-zero keys in its first cells contributes its first key
    only. -/
theorem gpu_merge_inserts_one (bucketRank : Nat → Nat × Nat) (s : CudaHyperLogLogWithSmallSetOptimization)
    (rhs : CudaHyperLogLogWithSmallSetOptimization) (k : Nat) (ks : List Nat) (hsmall : rhs.is_large = false)
    (hzero : rhs.small.has_zero_elem = false) (hk : k ≠ 0) (hbuf : rhs.small.buf = k :: ks) :
    CudaHyperLogLogWithSmallSetOptimization.merge bucketRank s rhs =
      CudaHyperLogLogWithSmallSetOptimization.insert bucketRank s k := by
  have hlead : rhs.small.sizeWithoutZeroElem = true := by
    simp [CudaSmallSet.sizeWithoutZeroElem, hbuf, leadingNonzero, hk]
  simp only [CudaHyperLogLogWithSmallSetOptimization.merge, hsmall, hlead, hzero, Bool.false_eq_true, if_false,
    Bool.toNat_true]
  simp [CudaSmallSet.getWithoutZeroElem, hbuf]

theorem gpu_merge_inserts_one_example :
    CudaHyperLogLogWithSmallSetOptimization.merge (fun v => (v, 1)) CudaHyperLogLogWithSmallSetOptimization.initNonzeroData
        ⟨false, ⟨false, [1, 2] ++ List.replicate 14 0⟩, Counter.empty⟩ =
      CudaHyperLogLogWithSmallSetOptimization.insert (fun v => (v, 1))
        CudaHyperLogLogWithSmallSetOptimization.initNonzeroData 1 :=
  gpu_merge_inserts_one _ _ _ 1 _ rfl rfl (by decide) rfl

/-- The list `[5, 1, 2]` in the parts `[5]` and `[1, 2]`: the GPU answers 2, the CPU 3. -/
theorem gpu_size_ne_cpu_size (bucketRank : Nat → Nat × Nat) (estimate : (Nat → Nat) → Nat) :
    CudaHyperLogLogWithSmallSetOptimization.sizeOfParts bucketRank estimate [[5], [1, 2]] = 2 ∧
      HyperLogLogWithSmallSetOptimization.size estimate
        ([5, 1, 2].foldl (HyperLogLogWithSmallSetOptimization.insert bucketRank)
          HyperLogLogWithSmallSetOptimization.empty) = 3 :=
  ⟨rfl, rfl⟩

end ClickHouseGpu.Cuda.HyperLogLog
