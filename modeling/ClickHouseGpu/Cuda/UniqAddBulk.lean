import Mathlib
import ClickHouseGpu.Cuda.HyperLogLog

/-
  ClickHouseGpu.Cuda.UniqAddBulk — `uniqHLL12` of a GROUP BY key on the GPU against the CPU:
  `kerCudaInitAggregateData`, `kerCudaAddBulk` and `kerCudaMergeBulk`
  (AggregateFunctions/Cuda/CudaAggregateFunctionUniq.cu)
  over `CudaHyperLogLogWithSmallSetOptimization`, and the CPU's `HyperLogLogWithSmallSetOptimization`
  fed the same hashes, both as `ClickHouseGpu.Cuda.HyperLogLog` models them.

  `kerCudaAddBulk` inserts the hash of each row into the state of the row's bucket; its threads
  run in `order`, one after another, in any order of the rows. Each state stands for the set of
  keys it was given (`GpuHolds`, `CpuHolds`): its counter, once it has one, is the rank store of
  the set (`ranksOf`, each bucket's largest rank), and while it is small its small set holds the
  keys. The GPU's small set keeps the non-zero keys at the front of its 16 cells and the zero
  key as a flag outside them, so it goes large at the 17th distinct non-zero key; the CPU's
  small set holds 16 keys, the zero key among them.

  Proved:
  - `GpuHolds.insert`, `CpuHolds.insert`: an insertion adds the key to the set the state stands
    for; from the empty states, a run of insertions stands for the set of its keys
    (`gpuHolds_ofPart`, `cpuHolds_run`).
  - `size_of_gpuHolds`, `size_of_cpuHolds`: a state answers the number of its keys while it is
    small, and otherwise the estimate of their rank store.
  - `kerCudaAddBulk_apply`: after the kernel, the state of a bucket is the insertion, in the
    threads' order, of the hashes of the bucket's rows.
  - `kerCudaAddBulk_size_eq_cpu`: in every order of the threads, each initialised bucket's state
    has the size of the CPU state over the bucket's rows, unless those rows hold the zero key and
    16 other distinct keys: there the GPU still counts 17 exactly and the CPU answers its estimate.
  - `kerCudaMergeBulk_of_large`: when every state of the other table that goes to a bucket is
    large, the bucket's state ends large with the rank store of all the keys, in every order of
    the threads (`GpuHolds.merge_of_large`). A small state merged in passes on only its first
    non-zero key (see `ClickHouseGpu.Cuda.HyperLogLog`).
  - `merge_size_eq_size_append`: the CPU's `merge` stands for the union of the keys
    (`CpuHolds.merge`), so merging the states of two parts answers as the state of all the rows.
  - `gpu_merge_size_eq_cpu_of_large`: when the right-hand part has more than 16 distinct non-zero
    keys, the GPU's merge of the two parts' states answers as the CPU's.
-/

namespace ClickHouseGpu.Cuda.UniqAddBulk

open LinearProbe ClickHouseGpu.Cuda.HyperLogLog

/-! ## The kernels -/

section Kernels

variable (bucketRank : Nat → Nat × Nat)

/-- `cudaInitAggregateData`: the first `places_num` states are `initNonzeroData()`. -/
def kerCudaInitAggregateData (places_num : Nat) (places : Nat → CudaHyperLogLogWithSmallSetOptimization) :
    Nat → CudaHyperLogLogWithSmallSetOptimization :=
  fun i => if i < places_num then CudaHyperLogLogWithSmallSetOptimization.initNonzeroData else places i

/-- `kerCudaAddBulk`, its threads in `order`: the hash of row `i` goes into the state of its bucket. -/
def kerCudaAddBulk (places : Nat → CudaHyperLogLogWithSmallSetOptimization) (elements_num : Nat)
    (hashes res_buckets : Nat → Nat) (order : List Nat) : Nat → CudaHyperLogLogWithSmallSetOptimization :=
  order.foldl (fun places i =>
    if i < elements_num then upd places (res_buckets i) ((places (res_buckets i)).insert bucketRank (hashes i))
    else places) places

/-- `kerCudaMergeBulk`, its threads in `order`: the state of the other table's bucket `i` is merged
    into the bucket its key went to, unless it had none (`~0`). -/
def kerCudaMergeBulk (places : Nat → CudaHyperLogLogWithSmallSetOptimization) (elements_num : Nat)
    (places_from : Nat → CudaHyperLogLogWithSmallSetOptimization) (res_buckets : Nat → Nat) (order : List Nat) :
    Nat → CudaHyperLogLogWithSmallSetOptimization :=
  order.foldl (fun places i =>
    if i < elements_num ∧ res_buckets i ≠ 2 ^ 32 - 1 then
      upd places (res_buckets i) ((places (res_buckets i)).merge bucketRank (places_from i))
    else places) places

end Kernels

/-- The hashes of the rows of bucket `b`, in the order of the rows. -/
def rowsOf (elements_num : Nat) (hashes res_buckets : Nat → Nat) (b : Nat) : List Nat :=
  ((List.range elements_num).filter fun i => res_buckets i = b).map hashes

/-! ## The rank store of a set of keys -/

/-- Each bucket keeps the largest rank of the keys that fall in it. -/
def ranksOf (bucketRank : Nat → Nat × Nat) (keys : Finset Nat) (b : Nat) : Nat :=
  (keys.filter fun x => (bucketRank x).1 = b).sup fun x => (bucketRank x).2

section Ranks

variable {bucketRank : Nat → Nat × Nat}

@[simp] theorem ranksOf_empty : ranksOf bucketRank ∅ = fun _ => 0 := by
  funext b
  simp [ranksOf]

theorem ranksOf_insert (keys : Finset Nat) (v : Nat) :
    ranksOf bucketRank (insert v keys) =
      upd (ranksOf bucketRank keys) (bucketRank v).1 (max (ranksOf bucketRank keys (bucketRank v).1) (bucketRank v).2) := by
  funext b
  by_cases hb : b = (bucketRank v).1
  · subst hb
    rw [upd_same, ranksOf, Finset.filter_insert, if_pos rfl, Finset.sup_insert, max_comm]
    rfl
  · rw [upd_ne _ _ hb, ranksOf, Finset.filter_insert, if_neg (Ne.symm hb)]
    rfl

/-- `Counter.insert` takes the rank store of `keys` to that of `insert v keys`. -/
theorem ranks_insert {c : Counter} {keys : Finset Nat} (hc : c.ranks = ranksOf bucketRank keys) (v : Nat) :
    (c.insert bucketRank v).ranks = ranksOf bucketRank (insert v keys) := by
  rw [ranksOf_insert, ← hc]
  rfl

theorem ranksOf_union (keys keys' : Finset Nat) :
    ranksOf bucketRank (keys ∪ keys') = fun b => max (ranksOf bucketRank keys b) (ranksOf bucketRank keys' b) := by
  funext b
  rw [ranksOf, Finset.filter_union, Finset.sup_union]
  rfl

theorem ranks_foldl_insert {c : Counter} {keys : Finset Nat} (hc : c.ranks = ranksOf bucketRank keys) (l : List Nat) :
    (l.foldl (Counter.insert bucketRank) c).ranks = ranksOf bucketRank (keys ∪ l.toFinset) := by
  induction l generalizing c keys with
  | nil => simpa using hc
  | cons x xs ih =>
    rw [List.foldl_cons, ih (ranks_insert hc x), List.toFinset_cons, Finset.union_insert, Finset.insert_union]

end Ranks

/-- A set of keys is its non-zero keys and, maybe, the zero key. -/
theorem card_erase_zero_add (keys : Finset Nat) : (keys.erase 0).card + (if 0 ∈ keys then 1 else 0) = keys.card := by
  split
  · next h => exact Finset.card_erase_add_one h
  · next h => rw [Finset.erase_eq_of_notMem h, Nat.add_zero]

/-! ## The GPU state -/

/-- `tryInsert`'s loop on cells holding the non-zero keys `ks` and then `m` empty ones: a key
    among them is found, a new one takes the first empty cell, and there is none when all are
    full. -/
theorem tryInsertBuf_append_replicate {ks : List Nat} (hks : ∀ x ∈ ks, x ≠ 0) {v : Nat} (hv : v ≠ 0) (m : Nat) :
    tryInsertBuf v (ks ++ List.replicate m 0) =
      if v ∈ ks then some (ks ++ List.replicate m 0)
      else if 0 < m then some (ks ++ v :: List.replicate (m - 1) 0) else none := by
  induction ks with
  | nil =>
    cases m with
    | zero => rfl
    | succ m =>
      simp only [List.nil_append, List.not_mem_nil, if_false, Nat.zero_lt_succ, if_true, Nat.add_sub_cancel]
      rw [List.replicate_succ, tryInsertBuf, if_neg (Ne.symm hv), if_pos rfl]
  | cons x xs ih =>
    have hx : x ≠ 0 := hks x List.mem_cons_self
    rw [List.cons_append, tryInsertBuf, if_neg hx, ih (fun y hy => hks y (List.mem_cons_of_mem x hy))]
    by_cases hxv : x = v
    · simp [hxv]
    · by_cases hmem : v ∈ xs
      · simp [hxv, hmem]
      · by_cases hm : 0 < m <;> simp [hxv, hmem, hm, Ne.symm hxv]

theorem leadingNonzero_append_replicate {ks : List Nat} (hks : ∀ x ∈ ks, x ≠ 0) (m : Nat) :
    leadingNonzero (ks ++ List.replicate m 0) = ks.length := by
  induction ks with
  | nil => cases m <;> rfl
  | cons x xs ih =>
    rw [List.cons_append, leadingNonzero, if_neg (hks x List.mem_cons_self),
      ih (fun y hy => hks y (List.mem_cons_of_mem x hy)), List.length_cons]

/-- The small set holds `keys`: their non-zero keys, each once, in its first cells, and the
    zero key as its flag. -/
structure SmallHolds (t : HyperLogLog.CudaSmallSet) (keys : Finset Nat) : Prop where
  cells : ∃ ks : List Nat, ks.Nodup ∧ ks.toFinset = keys.erase 0 ∧ t.buf = ks ++ List.replicate (16 - ks.length) 0
  has_zero_elem : t.has_zero_elem = decide (0 ∈ keys)

section Small

variable {t : HyperLogLog.CudaSmallSet} {keys : Finset Nat}

theorem SmallHolds.size (h : SmallHolds t keys) : t.size = keys.card := by
  obtain ⟨ks, hnd, hset, hbuf⟩ := h.cells
  have hks : ∀ x ∈ ks, x ≠ 0 := fun x hx => Finset.ne_of_mem_erase (hset ▸ List.mem_toFinset.2 hx)
  have hlen : ks.length = (keys.erase 0).card := by rw [← hset, List.toFinset_card_of_nodup hnd]
  rw [HyperLogLog.CudaSmallSet.size, hbuf, leadingNonzero_append_replicate hks, h.has_zero_elem, hlen, ← card_erase_zero_add keys]
  simp only [decide_eq_true_eq]

theorem tryInsert_of_tryInsertBuf_some {v : Nat} {b : List Nat} (hv : v ≠ 0) (hloop : tryInsertBuf v t.buf = some b) :
    t.tryInsert v = (true, { t with buf := b }) := by
  simp [HyperLogLog.CudaSmallSet.tryInsert, hv, hloop]

theorem tryInsert_of_tryInsertBuf_none {v : Nat} (hv : v ≠ 0) (hloop : tryInsertBuf v t.buf = none) :
    t.tryInsert v = (false, t) := by
  simp [HyperLogLog.CudaSmallSet.tryInsert, hv, hloop]

/-- One `tryInsert` on a small set holding at most 16 non-zero keys: the key is added, or all
    16 cells hold other non-zero keys and it is refused. -/
theorem SmallHolds.tryInsert (h : SmallHolds t keys) (hcard : (keys.erase 0).card ≤ 16) (v : Nat) :
    ((t.tryInsert v).1 = true ∧ SmallHolds (t.tryInsert v).2 (insert v keys) ∧ ((insert v keys).erase 0).card ≤ 16) ∨
      ((t.tryInsert v).1 = false ∧ 16 < ((insert v keys).erase 0).card) := by
  obtain ⟨ks, hnd, hset, hbuf⟩ := h.cells
  have hks : ∀ x ∈ ks, x ≠ 0 := fun x hx => Finset.ne_of_mem_erase (hset ▸ List.mem_toFinset.2 hx)
  have hlen : ks.length = (keys.erase 0).card := by rw [← hset, List.toFinset_card_of_nodup hnd]
  by_cases hv : v = 0
  · -- the zero key only sets the flag
    subst hv
    left
    have herase : (insert 0 keys).erase 0 = keys.erase 0 := Finset.erase_insert_eq_erase keys 0
    refine ⟨rfl, ⟨⟨ks, hnd, by rw [herase, hset], hbuf⟩, by simp [HyperLogLog.CudaSmallSet.tryInsert]⟩, by rw [herase]; exact hcard⟩
  have herase : (insert v keys).erase 0 = insert v (keys.erase 0) := Finset.erase_insert_of_ne hv
  have hloop := tryInsertBuf_append_replicate hks hv (16 - ks.length)
  rw [← hbuf] at hloop
  by_cases hmem : v ∈ ks
  · -- found: nothing changes
    have hin : v ∈ keys := Finset.mem_of_mem_erase (hset ▸ List.mem_toFinset.2 hmem)
    left
    rw [if_pos hmem] at hloop
    rw [tryInsert_of_tryInsertBuf_some hv hloop, Finset.insert_eq_of_mem hin]
    exact ⟨rfl, h, hcard⟩
  have hnew : v ∉ keys.erase 0 := fun hin => hmem (List.mem_toFinset.1 (hset ▸ hin))
  have hcard' : ((insert v keys).erase 0).card = ks.length + 1 := by
    rw [herase, Finset.card_insert_of_notMem hnew, hlen]
  by_cases hm : 0 < 16 - ks.length
  · -- the first empty cell takes it
    left
    rw [if_neg hmem, if_pos hm] at hloop
    have hstep := tryInsert_of_tryInsertBuf_some hv hloop
    have hnd' : (ks ++ [v]).Nodup :=
      List.nodup_append.2 ⟨hnd, List.nodup_singleton v, fun a ha b hb hab => hmem (by simp_all)⟩
    have hbuf' : ks ++ v :: List.replicate (16 - ks.length - 1) 0 =
        ks ++ [v] ++ List.replicate (16 - (ks ++ [v]).length) 0 := by
      simp only [List.append_assoc, List.singleton_append, List.length_append, List.length_singleton, Nat.sub_sub]
    refine ⟨by rw [hstep], ⟨⟨ks ++ [v], hnd', ?_, by rw [hstep, hbuf']⟩, by rw [hstep]; simp [h.has_zero_elem, Ne.symm hv]⟩, by omega⟩
    rw [herase, List.toFinset_append, ← hset, List.toFinset_cons, List.toFinset_nil, Finset.union_insert,
      Finset.union_empty]
  · -- all 16 cells hold other keys
    right
    rw [if_neg hmem, if_neg hm] at hloop
    rw [tryInsert_of_tryInsertBuf_none hv hloop]
    exact ⟨rfl, by omega⟩

end Small

/-- `CudaHyperLogLogWithSmallSetOptimization` stands for `keys`: its counter is their rank store,
    it is large exactly past 16 distinct non-zero keys, and while small its small set holds them. -/
structure GpuHolds (bucketRank : Nat → Nat × Nat) (s : CudaHyperLogLogWithSmallSetOptimization) (keys : Finset Nat) : Prop where
  large : s.large.ranks = ranksOf bucketRank keys
  is_large : s.is_large = true ↔ 16 < (keys.erase 0).card
  small : s.is_large = false → SmallHolds s.small keys

section Gpu

variable {bucketRank : Nat → Nat × Nat} {s : CudaHyperLogLogWithSmallSetOptimization} {keys : Finset Nat}

theorem gpuHolds_initNonzeroData : GpuHolds bucketRank CudaHyperLogLogWithSmallSetOptimization.initNonzeroData ∅ where
  large := by simp [CudaHyperLogLogWithSmallSetOptimization.initNonzeroData, Counter.empty]
  is_large := by simp [CudaHyperLogLogWithSmallSetOptimization.initNonzeroData]
  small _ := ⟨⟨[], List.nodup_nil, by simp, rfl⟩, rfl⟩

/-- A small state stands for at most 16 non-zero keys. -/
theorem GpuHolds.card_le (h : GpuHolds bucketRank s keys) (hl : s.is_large = false) : (keys.erase 0).card ≤ 16 :=
  Nat.le_of_not_lt fun hc => by simpa [hl] using h.is_large.2 hc

theorem GpuHolds.insert (h : GpuHolds bucketRank s keys) (v : Nat) :
    GpuHolds bucketRank (s.insert bucketRank v) (insert v keys) := by
  have hlarge := ranks_insert h.large v
  cases hl : s.is_large
  · -- small: the small set decides
    have hcard := h.card_le hl
    have hstep : s.insert bucketRank v = { s with
        large := s.large.insert bucketRank v
        small := (s.small.tryInsert v).2
        is_large := !(s.small.tryInsert v).1 } := by
      simp [CudaHyperLogLogWithSmallSetOptimization.insert, hl]
    rw [hstep]
    rcases (h.small hl).tryInsert hcard v with ⟨hok, hs, hc⟩ | ⟨hfail, hc⟩
    · exact ⟨hlarge, by simp only [hok, Bool.not_true, Bool.false_eq_true, false_iff, not_lt]; exact hc, fun _ => hs⟩
    · exact ⟨hlarge, by simp only [hfail, Bool.not_false, true_iff]; exact hc, fun hf => by simp [hfail] at hf⟩
  · -- large: only the counter changes
    have hstep : s.insert bucketRank v = { s with large := s.large.insert bucketRank v } := by
      simp [CudaHyperLogLogWithSmallSetOptimization.insert, hl]
    have hmono : (keys.erase 0).card ≤ ((Insert.insert v keys).erase 0).card :=
      Finset.card_le_card (Finset.erase_subset_erase 0 (Finset.subset_insert v keys))
    have hc := h.is_large.1 hl
    rw [hstep]
    exact ⟨hlarge, by simp only [hl, true_iff]; omega, fun hf => by simp [hl] at hf⟩

theorem GpuHolds.foldl (h : GpuHolds bucketRank s keys) (l : List Nat) :
    GpuHolds bucketRank (l.foldl (CudaHyperLogLogWithSmallSetOptimization.insert bucketRank) s) (keys ∪ l.toFinset) := by
  induction l generalizing s keys with
  | nil => simpa using h
  | cons x xs ih =>
    rw [List.foldl_cons, List.toFinset_cons, Finset.union_insert, ← Finset.insert_union]
    exact ih (h.insert x)

/-- The state of one part's keys (`kerCudaAddBulk` on one place) stands for them. -/
theorem gpuHolds_ofPart (part : List Nat) :
    GpuHolds bucketRank (CudaHyperLogLogWithSmallSetOptimization.ofPart bucketRank part) part.toFinset := by
  have h0 : GpuHolds bucketRank CudaHyperLogLogWithSmallSetOptimization.initNonzeroData ∅ := gpuHolds_initNonzeroData
  have h := h0.foldl part
  rwa [Finset.empty_union] at h

/-- Merging a large state: the counters take the larger rank of each bucket, and the state is
    large, as the union of the keys is. -/
theorem GpuHolds.merge_of_large {rhs : CudaHyperLogLogWithSmallSetOptimization} {keys' : Finset Nat}
    (h : GpuHolds bucketRank s keys) (h' : GpuHolds bucketRank rhs keys') (hl : rhs.is_large = true) :
    GpuHolds bucketRank (s.merge bucketRank rhs) (keys ∪ keys') := by
  have hstep : s.merge bucketRank rhs = { s with is_large := true, large := s.large.merge rhs.large } := by
    simp [CudaHyperLogLogWithSmallSetOptimization.merge, hl]
  have hmono : (keys'.erase 0).card ≤ ((keys ∪ keys').erase 0).card :=
    Finset.card_le_card (Finset.erase_subset_erase 0 Finset.subset_union_right)
  have hc := h'.is_large.1 hl
  rw [hstep]
  refine ⟨?_, by simp only [true_iff]; omega, fun hf => by simp at hf⟩
  rw [ranksOf_union, ← h.large, ← h'.large]
  rfl

/-- Merging large states one after another: the state stands for the union of all their keys. -/
theorem GpuHolds.foldl_merge_of_large (h : GpuHolds bucketRank s keys)
    {places_from : Nat → CudaHyperLogLogWithSmallSetOptimization} {from_keys : Nat → Finset Nat} (l : List Nat)
    (hfrom : ∀ i ∈ l, GpuHolds bucketRank (places_from i) (from_keys i) ∧ (places_from i).is_large = true) :
    GpuHolds bucketRank ((l.map places_from).foldl (CudaHyperLogLogWithSmallSetOptimization.merge bucketRank) s)
      (keys ∪ l.toFinset.biUnion from_keys) := by
  induction l generalizing s keys with
  | nil => simpa using h
  | cons x xs ih =>
    obtain ⟨hx, hxl⟩ := hfrom x List.mem_cons_self
    rw [List.map_cons, List.foldl_cons, List.toFinset_cons, Finset.biUnion_insert, ← Finset.union_assoc]
    exact ih (h.merge_of_large hx hxl) fun i hi => hfrom i (List.mem_cons_of_mem x hi)

theorem size_of_gpuHolds (estimate : (Nat → Nat) → Nat) (h : GpuHolds bucketRank s keys) :
    s.size estimate = if 16 < (keys.erase 0).card then estimate (ranksOf bucketRank keys) else keys.card := by
  cases hl : s.is_large
  · rw [if_neg (Nat.not_lt.2 (h.card_le hl)), CudaHyperLogLogWithSmallSetOptimization.size, hl, ← (h.small hl).size]
    rfl
  · rw [if_pos (h.is_large.1 hl), CudaHyperLogLogWithSmallSetOptimization.size, hl, Counter.size, h.large]
    rfl

end Gpu

/-! ## The CPU state -/

/-- `HyperLogLogWithSmallSetOptimization` stands for `keys`: its small set holds them, each once,
    until a 17th arrives; then its counter is their rank store. -/
structure CpuHolds (bucketRank : Nat → Nat × Nat) (s : HyperLogLogWithSmallSetOptimization) (keys : Finset Nat) : Prop where
  small : s.large = none → s.small.Nodup ∧ s.small.toFinset = keys ∧ keys.card ≤ 16
  large : ∀ c, s.large = some c → c.ranks = ranksOf bucketRank keys ∧ 16 < keys.card

section Cpu

variable {bucketRank : Nat → Nat × Nat} {s : HyperLogLogWithSmallSetOptimization} {keys : Finset Nat}

theorem cpuHolds_empty : CpuHolds bucketRank HyperLogLogWithSmallSetOptimization.empty ∅ where
  small _ := ⟨List.nodup_nil, rfl, by simp⟩
  large c hc := by simp [HyperLogLogWithSmallSetOptimization.empty] at hc

/-- `toLarge` of a small state gives the rank store of its keys. -/
theorem CpuHolds.toLarge_ranks (h : CpuHolds bucketRank s keys) (hl : s.large = none) :
    (HyperLogLogWithSmallSetOptimization.toLarge bucketRank s).ranks = ranksOf bucketRank keys := by
  have hempty : Counter.empty.ranks = ranksOf bucketRank ∅ := by simp [Counter.empty]
  rw [HyperLogLogWithSmallSetOptimization.toLarge, ranks_foldl_insert hempty, Finset.empty_union, (h.small hl).2.1]

theorem CpuHolds.insert (h : CpuHolds bucketRank s keys) (v : Nat) :
    CpuHolds bucketRank (s.insert bucketRank v) (insert v keys) := by
  cases hl : s.large with
  | some c =>
    -- large: only the counter changes
    obtain ⟨hc, hcard⟩ := h.large c hl
    have hstep : s.insert bucketRank v = { s with large := some (c.insert bucketRank v) } := by
      simp [HyperLogLogWithSmallSetOptimization.insert, hl]
    rw [hstep]
    refine ⟨fun hn => by simp at hn, fun c' hc' => ?_⟩
    cases hc'
    exact ⟨ranks_insert hc v, lt_of_lt_of_le hcard (Finset.card_le_card (Finset.subset_insert v keys))⟩
  | none =>
    obtain ⟨hnd, hset, hcard⟩ := h.small hl
    have hlen : s.small.length = keys.card := by rw [← hset, List.toFinset_card_of_nodup hnd]
    by_cases hmem : v ∈ s.small
    · -- found: nothing changes
      have hstep : s.insert bucketRank v = s := by simp [HyperLogLogWithSmallSetOptimization.insert, hl, hmem]
      rw [hstep, Finset.insert_eq_of_mem (hset ▸ List.mem_toFinset.2 hmem)]
      exact h
    have hnew : v ∉ keys := fun hin => hmem (List.mem_toFinset.1 (hset ▸ hin))
    have hcard' : (Insert.insert v keys).card = keys.card + 1 := Finset.card_insert_of_notMem hnew
    by_cases hroom : s.small.length < 16
    · -- the small set takes it
      have hstep : s.insert bucketRank v = { s with small := s.small ++ [v] } := by
        simp [HyperLogLogWithSmallSetOptimization.insert, hl, hmem, hroom]
      rw [hstep]
      have hnd' : (s.small ++ [v]).Nodup :=
        List.nodup_append.2 ⟨hnd, List.nodup_singleton v, fun a ha b hb hab => hmem (by simp_all)⟩
      refine ⟨fun _ => ⟨hnd', ?_, by omega⟩, fun c hc => by simp [hl] at hc⟩
      rw [List.toFinset_append, hset, List.toFinset_cons, List.toFinset_nil, Finset.union_insert, Finset.union_empty]
    · -- `toLarge`, then the key goes into the new counter
      have hstep : s.insert bucketRank v =
          { s with large := some ((HyperLogLogWithSmallSetOptimization.toLarge bucketRank s).insert bucketRank v) } := by
        simp [HyperLogLogWithSmallSetOptimization.insert, hl, hmem, hroom]
      have hto := h.toLarge_ranks hl
      rw [hstep]
      refine ⟨fun hn => by simp at hn, fun c hc => ?_⟩
      cases hc
      exact ⟨ranks_insert hto v, by omega⟩

theorem cpuHolds_foldl (h : CpuHolds bucketRank s keys) (l : List Nat) :
    CpuHolds bucketRank (l.foldl (HyperLogLogWithSmallSetOptimization.insert bucketRank) s) (keys ∪ l.toFinset) := by
  induction l generalizing s keys with
  | nil => simpa using h
  | cons x xs ih =>
    rw [List.foldl_cons, List.toFinset_cons, Finset.union_insert, ← Finset.insert_union]
    exact ih (h.insert x)

/-- `merge` stands for the union of the two states' keys, whether the right-hand side is large
    or small. -/
theorem CpuHolds.merge (h : CpuHolds bucketRank s keys) {rhs : HyperLogLogWithSmallSetOptimization}
    {keys' : Finset Nat} (h' : CpuHolds bucketRank rhs keys') :
    CpuHolds bucketRank (s.merge bucketRank rhs) (keys ∪ keys') := by
  cases hr : rhs.large with
  | none =>
    -- a small right-hand side: its keys are inserted one by one
    have hstep : s.merge bucketRank rhs = rhs.small.foldl (HyperLogLogWithSmallSetOptimization.insert bucketRank) s := by
      simp [HyperLogLogWithSmallSetOptimization.merge, hr]
    rw [hstep, ← (h'.small hr).2.1]
    exact cpuHolds_foldl h rhs.small
  | some r =>
    obtain ⟨hr', hcard'⟩ := h'.large r hr
    have hbase : (s.large.getD (HyperLogLogWithSmallSetOptimization.toLarge bucketRank s)).ranks =
        ranksOf bucketRank keys := by
      cases hl : s.large with
      | none =>
        rw [Option.getD_none]
        exact h.toLarge_ranks hl
      | some c =>
        rw [Option.getD_some]
        exact (h.large c hl).1
    have hstep : s.merge bucketRank rhs =
        { s with large := some ((s.large.getD (HyperLogLogWithSmallSetOptimization.toLarge bucketRank s)).merge r) } := by
      simp [HyperLogLogWithSmallSetOptimization.merge, hr]
    rw [hstep]
    refine ⟨fun hn => by simp at hn, fun c hc => ?_⟩
    cases hc
    refine ⟨?_, lt_of_lt_of_le hcard' (Finset.card_le_card Finset.subset_union_right)⟩
    rw [ranksOf_union, ← hbase, ← hr']
    rfl

/-- The CPU state fed the keys `l` stands for them. -/
theorem cpuHolds_run (l : List Nat) :
    CpuHolds bucketRank (l.foldl (HyperLogLogWithSmallSetOptimization.insert bucketRank)
      HyperLogLogWithSmallSetOptimization.empty) l.toFinset := by
  have h := cpuHolds_foldl (cpuHolds_empty : CpuHolds bucketRank _ ∅) l
  rwa [Finset.empty_union] at h

theorem size_of_cpuHolds (estimate : (Nat → Nat) → Nat) (h : CpuHolds bucketRank s keys) :
    s.size estimate = if 16 < keys.card then estimate (ranksOf bucketRank keys) else keys.card := by
  cases hl : s.large with
  | none =>
    obtain ⟨hnd, hset, hcard⟩ := h.small hl
    rw [if_neg (by omega), HyperLogLogWithSmallSetOptimization.size, hl, ← hset, List.toFinset_card_of_nodup hnd]
  | some c =>
    obtain ⟨hc, hcard⟩ := h.large c hl
    simp only [if_pos hcard, HyperLogLogWithSmallSetOptimization.size, hl, Counter.size, hc]

end Cpu

/-! ## The kernel against the CPU -/

/-- Guarded point updates applied in `order`: the value at `b` is the fold, from its old value,
    of the steps that pass the guard and update `b`. -/
theorem foldl_upd_apply {α : Type} (step : α → Nat → α) (key : Nat → Nat) (guard : Nat → Prop) [DecidablePred guard]
    (places : Nat → α) (order : List Nat) (b : Nat) :
    order.foldl (fun places i => if guard i then upd places (key i) (step (places (key i)) i) else places) places b =
      (order.filter fun i => decide (guard i ∧ key i = b)).foldl step (places b) := by
  induction order generalizing places with
  | nil => rfl
  | cons i order ih =>
    rw [List.foldl_cons, ih]
    by_cases hg : guard i
    · by_cases hb : key i = b
      · subst hb
        simp [hg]
      · simp [hg, hb, upd_ne _ _ (Ne.symm hb)]
    · simp [hg]

section Kernel

variable {bucketRank : Nat → Nat × Nat}

/-- The state of bucket `b` takes the hashes of the threads that run and answer `b`, in their order. -/
theorem kerCudaAddBulk_apply (places : Nat → CudaHyperLogLogWithSmallSetOptimization) (N : Nat)
    (hashes res_buckets : Nat → Nat) (order : List Nat) (b : Nat) :
    kerCudaAddBulk bucketRank places N hashes res_buckets order b =
      ((order.filter fun i => decide (i < N ∧ res_buckets i = b)).map hashes).foldl
        (CudaHyperLogLogWithSmallSetOptimization.insert bucketRank) (places b) := by
  rw [List.foldl_map]
  exact foldl_upd_apply (fun a i => a.insert bucketRank (hashes i)) res_buckets (· < N) places order b

/-- With every thread run once, in any order, the state of an initialised bucket stands for the
    hashes of its rows. -/
theorem gpuHolds_kerCudaAddBulk (places_num N : Nat) (places : Nat → CudaHyperLogLogWithSmallSetOptimization)
    (hashes res_buckets : Nat → Nat) {order : List Nat} (horder : order.Perm (List.range N)) {b : Nat}
    (hb : b < places_num) :
    GpuHolds bucketRank (kerCudaAddBulk bucketRank (kerCudaInitAggregateData places_num places) N hashes res_buckets order b)
      (rowsOf N hashes res_buckets b).toFinset := by
  have hrows : ((order.filter fun i => decide (i < N ∧ res_buckets i = b)).map hashes).Perm (rowsOf N hashes res_buckets b) := by
    refine ((horder.filter _).map hashes).trans (List.Perm.of_eq ?_)
    rw [rowsOf]
    congr 1
    apply List.filter_congr
    intro i hi
    simp [List.mem_range.1 hi]
  rw [kerCudaAddBulk_apply, kerCudaInitAggregateData, if_pos hb, ← List.toFinset_eq_of_perm _ _ hrows]
  exact gpuHolds_ofPart _

end Kernel

/-- `uniqHLL12` of one key on the GPU answers as on the CPU: in every order of the threads,
    the state of an initialised bucket after `kerCudaAddBulk` has the size of the CPU state fed the
    hashes of the bucket's rows, unless those hold the zero key and 16 other distinct keys. -/
theorem kerCudaAddBulk_size_eq_cpu (bucketRank : Nat → Nat × Nat) (estimate : (Nat → Nat) → Nat)
    (places_num N : Nat) (places : Nat → CudaHyperLogLogWithSmallSetOptimization) (hashes res_buckets : Nat → Nat)
    {order : List Nat} (horder : order.Perm (List.range N)) {b : Nat} (hb : b < places_num)
    (hrows : ¬ (0 ∈ rowsOf N hashes res_buckets b ∧ ((rowsOf N hashes res_buckets b).toFinset.erase 0).card = 16)) :
    (kerCudaAddBulk bucketRank (kerCudaInitAggregateData places_num places) N hashes res_buckets order b).size estimate =
      ((rowsOf N hashes res_buckets b).foldl (HyperLogLogWithSmallSetOptimization.insert bucketRank)
        HyperLogLogWithSmallSetOptimization.empty).size estimate := by
  have hgpu : GpuHolds bucketRank _ _ := gpuHolds_kerCudaAddBulk places_num N places hashes res_buckets horder hb
  have hcpu : CpuHolds bucketRank _ _ := cpuHolds_run (rowsOf N hashes res_buckets b)
  rw [size_of_gpuHolds estimate hgpu, size_of_cpuHolds estimate hcpu]
  -- the two thresholds differ only when the zero key is one of 17 keys
  have hiff : 16 < ((rowsOf N hashes res_buckets b).toFinset.erase 0).card ↔ 16 < (rowsOf N hashes res_buckets b).toFinset.card := by
    have hsplit := card_erase_zero_add (rowsOf N hashes res_buckets b).toFinset
    by_cases h0 : 0 ∈ (rowsOf N hashes res_buckets b).toFinset
    · rw [if_pos h0] at hsplit
      have hne : ((rowsOf N hashes res_buckets b).toFinset.erase 0).card ≠ 16 :=
        fun h16 => hrows ⟨List.mem_toFinset.1 h0, h16⟩
      omega
    · rw [if_neg h0, Nat.add_zero] at hsplit
      rw [hsplit]
  by_cases hc : 16 < (rowsOf N hashes res_buckets b).toFinset.card
  · rw [if_pos (hiff.2 hc), if_pos hc]
  · rw [if_neg (mt hiff.1 hc), if_neg hc]

/-- Three rows in buckets 0, 1, 0 with the threads run backwards. -/
theorem kerCudaAddBulk_size_eq_cpu_three_rows :
    [2, 1, 0].Perm (List.range 3) ∧ 0 < 2 ∧
      ¬ (0 ∈ rowsOf 3 (fun i => i + 5) (fun i => i % 2) 0 ∧
        ((rowsOf 3 (fun i => i + 5) (fun i => i % 2) 0).toFinset.erase 0).card = 16) ∧
      (kerCudaAddBulk (fun v => (v % 4, v / 4 + 1))
          (kerCudaInitAggregateData 2 fun _ => CudaHyperLogLogWithSmallSetOptimization.initNonzeroData) 3
          (fun i => i + 5) (fun i => i % 2) [2, 1, 0] 0).size (fun r => r 0) =
        ((rowsOf 3 (fun i => i + 5) (fun i => i % 2) 0).foldl
          (HyperLogLogWithSmallSetOptimization.insert fun v => (v % 4, v / 4 + 1))
          HyperLogLogWithSmallSetOptimization.empty).size (fun r => r 0) :=
  have horder : [2, 1, 0].Perm (List.range 3) := by decide
  have hrows : ¬ (0 ∈ rowsOf 3 (fun i => i + 5) (fun i => i % 2) 0 ∧
      ((rowsOf 3 (fun i => i + 5) (fun i => i % 2) 0).toFinset.erase 0).card = 16) := by decide
  ⟨horder, by decide, hrows, kerCudaAddBulk_size_eq_cpu _ _ 2 3 _ _ _ horder (by decide) hrows⟩

/-! ## Merging large states -/

/-- The state of bucket `b` merges the other table's states of the threads that run and answer `b`,
    in their order. -/
theorem kerCudaMergeBulk_apply {bucketRank : Nat → Nat × Nat} (places : Nat → CudaHyperLogLogWithSmallSetOptimization)
    (N : Nat) (places_from : Nat → CudaHyperLogLogWithSmallSetOptimization) (res_buckets : Nat → Nat)
    (order : List Nat) (b : Nat) :
    kerCudaMergeBulk bucketRank places N places_from res_buckets order b =
      ((order.filter fun i => decide ((i < N ∧ res_buckets i ≠ 2 ^ 32 - 1) ∧ res_buckets i = b)).map places_from).foldl
        (CudaHyperLogLogWithSmallSetOptimization.merge bucketRank) (places b) := by
  rw [List.foldl_map]
  exact foldl_upd_apply (fun a i => a.merge bucketRank (places_from i)) res_buckets
    (fun i => i < N ∧ res_buckets i ≠ 2 ^ 32 - 1) places order b

/-- `kerCudaMergeBulk` loses no key of a large state: when every state of the other table that
    goes to bucket `b` is large, in every order of the threads the state of `b` ends large, with
    the rank store of its own keys and of all the keys of those states. -/
theorem kerCudaMergeBulk_of_large (bucketRank : Nat → Nat × Nat) (places : Nat → CudaHyperLogLogWithSmallSetOptimization)
    (N : Nat) (places_from : Nat → CudaHyperLogLogWithSmallSetOptimization) (res_buckets : Nat → Nat)
    (keys from_keys : Nat → Finset Nat) {order : List Nat} (horder : order.Perm (List.range N)) {b : Nat}
    (hb : b ≠ 2 ^ 32 - 1) (hrow : ∃ i < N, res_buckets i = b) (hplace : GpuHolds bucketRank (places b) (keys b))
    (hfrom : ∀ i < N, res_buckets i = b →
      GpuHolds bucketRank (places_from i) (from_keys i) ∧ 16 < ((from_keys i).erase 0).card) :
    (kerCudaMergeBulk bucketRank places N places_from res_buckets order b).is_large = true ∧
      (kerCudaMergeBulk bucketRank places N places_from res_buckets order b).large.ranks =
        ranksOf bucketRank (keys b ∪ ((List.range N).filter fun i => res_buckets i = b).toFinset.biUnion from_keys) := by
  have hrows : (order.filter fun i => decide ((i < N ∧ res_buckets i ≠ 2 ^ 32 - 1) ∧ res_buckets i = b)).Perm
      ((List.range N).filter fun i => res_buckets i = b) := by
    refine (horder.filter _).trans (List.Perm.of_eq ?_)
    apply List.filter_congr
    intro i hi
    have hb' : b ≠ 4294967295 := hb
    by_cases hib : res_buckets i = b
    · simp [List.mem_range.1 hi, hib, hb']
    · simp [hib]
  have hlarge : ∀ i ∈ (List.range N).filter fun i => res_buckets i = b,
      GpuHolds bucketRank (places_from i) (from_keys i) ∧ (places_from i).is_large = true := by
    intro i hi
    obtain ⟨hiN, hib⟩ := List.mem_filter.1 hi
    obtain ⟨hi, hc⟩ := hfrom i (List.mem_range.1 hiN) (of_decide_eq_true hib)
    exact ⟨hi, hi.is_large.2 hc⟩
  have hmerged := hplace.foldl_merge_of_large _ fun i hi => hlarge i (hrows.mem_iff.1 hi)
  rw [List.toFinset_eq_of_perm _ _ hrows] at hmerged
  rw [kerCudaMergeBulk_apply]
  refine ⟨hmerged.is_large.2 ?_, hmerged.large⟩
  -- one large state merged in is enough for the union to be past 16 non-zero keys
  obtain ⟨i, hiN, hib⟩ := hrow
  have hc := (hfrom i hiN hib).2
  have hsub : from_keys i ⊆ keys b ∪ ((List.range N).filter fun i => res_buckets i = b).toFinset.biUnion from_keys :=
    (Finset.subset_biUnion_of_mem from_keys (List.mem_toFinset.2 (List.mem_filter.2 ⟨List.mem_range.2 hiN, by simp [hib]⟩))).trans
      Finset.subset_union_right
  have hmono := Finset.card_le_card (Finset.erase_subset_erase 0 hsub)
  omega

/-- Two rows of the other table, each with its own 17 keys, merged into an empty bucket 0. -/
theorem kerCudaMergeBulk_of_large_two_states :
    [1, 0].Perm (List.range 2) ∧ 0 ≠ 2 ^ 32 - 1 ∧ (∃ i < 2, (fun _ => 0) i = 0) ∧
      GpuHolds (fun v => (v % 4, 1)) (CudaHyperLogLogWithSmallSetOptimization.ofPart (fun v => (v % 4, 1)) []) ∅ ∧
      (∀ i < 2, (fun _ => 0) i = 0 →
        GpuHolds (fun v => (v % 4, 1)) (CudaHyperLogLogWithSmallSetOptimization.ofPart (fun v => (v % 4, 1))
          (List.range' (17 * i + 1) 17)) (List.range' (17 * i + 1) 17).toFinset ∧
          16 < ((List.range' (17 * i + 1) 17).toFinset.erase 0).card) ∧
      (kerCudaMergeBulk (fun v => (v % 4, 1)) (fun _ => CudaHyperLogLogWithSmallSetOptimization.ofPart (fun v => (v % 4, 1)) []) 2
          (fun i => CudaHyperLogLogWithSmallSetOptimization.ofPart (fun v => (v % 4, 1)) (List.range' (17 * i + 1) 17))
          (fun _ => 0) [1, 0] 0).is_large = true ∧
      (kerCudaMergeBulk (fun v => (v % 4, 1)) (fun _ => CudaHyperLogLogWithSmallSetOptimization.ofPart (fun v => (v % 4, 1)) []) 2
          (fun i => CudaHyperLogLogWithSmallSetOptimization.ofPart (fun v => (v % 4, 1)) (List.range' (17 * i + 1) 17))
          (fun _ => 0) [1, 0] 0).large.ranks =
        ranksOf (fun v => (v % 4, 1)) ((fun _ => ∅) 0 ∪ ((List.range 2).filter fun i => (fun _ => 0) i = 0).toFinset.biUnion
          fun i => (List.range' (17 * i + 1) 17).toFinset) :=
  have horder : [1, 0].Perm (List.range 2) := by decide
  have hrow : ∃ i < 2, (fun _ => 0) i = 0 := ⟨0, by decide, rfl⟩
  have hplace : GpuHolds (fun v => (v % 4, 1)) (CudaHyperLogLogWithSmallSetOptimization.ofPart (fun v => (v % 4, 1)) []) ∅ :=
    gpuHolds_ofPart []
  have hfrom : ∀ i < 2, (fun _ => 0) i = 0 →
      GpuHolds (fun v => (v % 4, 1)) (CudaHyperLogLogWithSmallSetOptimization.ofPart (fun v => (v % 4, 1))
        (List.range' (17 * i + 1) 17)) (List.range' (17 * i + 1) 17).toFinset ∧
        16 < ((List.range' (17 * i + 1) 17).toFinset.erase 0).card := by
    intro i hi _
    refine ⟨gpuHolds_ofPart _, ?_⟩
    interval_cases i <;> decide
  ⟨horder, by decide, hrow, hplace, hfrom,
    kerCudaMergeBulk_of_large _ _ 2 _ _ (fun _ => ∅) (fun i => (List.range' (17 * i + 1) 17).toFinset) horder
      (by decide) hrow hplace hfrom⟩

/-- `HyperLogLogWithSmallSetOptimization::merge` on the CPU loses no key: the merge of the states
    of two parts answers as the state of all their rows. -/
theorem merge_size_eq_size_append (bucketRank : Nat → Nat × Nat) (estimate : (Nat → Nat) → Nat)
    (xs ys : List Nat) :
    ((xs.foldl (HyperLogLogWithSmallSetOptimization.insert bucketRank) HyperLogLogWithSmallSetOptimization.empty).merge
        bucketRank (ys.foldl (HyperLogLogWithSmallSetOptimization.insert bucketRank)
          HyperLogLogWithSmallSetOptimization.empty)).size estimate =
      ((xs ++ ys).foldl (HyperLogLogWithSmallSetOptimization.insert bucketRank)
        HyperLogLogWithSmallSetOptimization.empty).size estimate := by
  have hmerged : CpuHolds bucketRank _ _ := (cpuHolds_run xs).merge (cpuHolds_run ys)
  have hall : CpuHolds bucketRank _ _ := cpuHolds_run (xs ++ ys)
  rw [size_of_cpuHolds estimate hmerged, size_of_cpuHolds estimate hall, List.toFinset_append]

/-- With a large right-hand side the GPU's `merge` answers as the CPU's: the merge of the states of
    two parts has one size on both when the second part has more than 16 distinct non-zero keys. -/
theorem gpu_merge_size_eq_cpu_of_large (bucketRank : Nat → Nat × Nat) (estimate : (Nat → Nat) → Nat)
    (xs ys : List Nat) (hys : 16 < (ys.toFinset.erase 0).card) :
    ((CudaHyperLogLogWithSmallSetOptimization.ofPart bucketRank xs).merge bucketRank
        (CudaHyperLogLogWithSmallSetOptimization.ofPart bucketRank ys)).size estimate =
      ((xs.foldl (HyperLogLogWithSmallSetOptimization.insert bucketRank) HyperLogLogWithSmallSetOptimization.empty).merge
        bucketRank (ys.foldl (HyperLogLogWithSmallSetOptimization.insert bucketRank)
          HyperLogLogWithSmallSetOptimization.empty)).size estimate := by
  have hx : GpuHolds bucketRank _ xs.toFinset := gpuHolds_ofPart xs
  have hy : GpuHolds bucketRank _ ys.toFinset := gpuHolds_ofPart ys
  have hgpu := hx.merge_of_large hy (hy.is_large.2 hys)
  have hcpu : CpuHolds bucketRank _ _ := (cpuHolds_run xs).merge (cpuHolds_run ys)
  rw [size_of_gpuHolds estimate hgpu, size_of_cpuHolds estimate hcpu]
  -- both are large: the union holds the more than 16 non-zero keys of the second part
  have hsub : (ys.toFinset.erase 0).card ≤ ((xs.toFinset ∪ ys.toFinset).erase 0).card :=
    Finset.card_le_card (Finset.erase_subset_erase 0 Finset.subset_union_right)
  have hle : ((xs.toFinset ∪ ys.toFinset).erase 0).card ≤ (xs.toFinset ∪ ys.toFinset).card := Finset.card_erase_le
  rw [if_pos (by omega), if_pos (by omega)]

theorem gpu_merge_size_eq_cpu_of_large_seventeen :
    16 < ((List.range' 1 17).toFinset.erase 0).card ∧
      ((CudaHyperLogLogWithSmallSetOptimization.ofPart (fun v => (v % 4, 1)) [1, 2]).merge (fun v => (v % 4, 1))
          (CudaHyperLogLogWithSmallSetOptimization.ofPart (fun v => (v % 4, 1)) (List.range' 1 17))).size (fun r => r 0) =
        (([1, 2].foldl (HyperLogLogWithSmallSetOptimization.insert fun v => (v % 4, 1))
            HyperLogLogWithSmallSetOptimization.empty).merge (fun v => (v % 4, 1))
          ((List.range' 1 17).foldl (HyperLogLogWithSmallSetOptimization.insert fun v => (v % 4, 1))
            HyperLogLogWithSmallSetOptimization.empty)).size (fun r => r 0) :=
  have hys : 16 < ((List.range' 1 17).toFinset.erase 0).card := by decide
  ⟨hys, gpu_merge_size_eq_cpu_of_large _ _ [1, 2] _ hys⟩

end ClickHouseGpu.Cuda.UniqAddBulk
