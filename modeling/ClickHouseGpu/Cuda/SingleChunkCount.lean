import Mathlib
import ClickHouseGpu.Cuda.StringsHashTableInvariant
import ClickHouseGpu.Columns.CudaColumnString
import ClickHouseGpu.Lib.AlignedWord

/-
  ClickHouseGpu.Cuda.SingleChunkCount — GPU `GROUP BY` with `count` run with one chunk
  (`chunks_number = 1`): `CudaAggregator::execute` over `CudaStringsAggregator` gives what the
  CPU aggregator gives.

  With one chunk there is no merge: the producer fills chunk 0's key buffer, and whenever a
  block does not fit, the worker takes the buffer: `calcLengths` rebases the blocks' offsets,
  `addData` puts the rows' keys (each with its terminating zero) into the table, and
  `kerCudaAddBulkCount` adds one to the bucket of each row. At the end the last buffer is
  processed, `calcOffsets` computes where each bucket's key lies in the table's buffer, and the
  host reads the keys back at those offsets.

  The run is followed through two invariants. `Counted`: the table holds, each once and with its
  zero, exactly the keys of the rows processed, and each bucket's count is the number of those
  rows with its key. `Queued`: the key buffer holds the blocks queued since the last hand-off,
  appended one after another to an empty buffer, and everything else is as `Counted` says for
  the rows processed before.

  Proved:
  - `Counted.addData`: a round of the worker keeps `Counted`, whatever order the threads of the
    three kernels run in.
  - `execute_single_chunk_counts`: if the run returns, its result has each key once, and the
    keys with their counts are those of the CPU aggregator, for every thread order, when the
    key buffer lies outside the table's string buffer and its sizes fit `UInt32`.
-/

namespace ClickHouseGpu.Cuda.SingleChunkCount

open ByteBuffer LinearProbe ClickHouseGpu.Cuda.StringsHashTable ClickHouseGpu.Cuda.StringsHashTableInvariant
  ClickHouseGpu.Cuda.StringsAggregator ClickHouseGpu.Columns.ColumnStringBuffer

/-! ## The rows of a round -/

/-- Row `k` of all the blocks is row `i` of block `j`, at the index `calcLengths_rows` gives it. -/
theorem getD_flatten_block (blocks : List (List (List UInt8))) {k : Nat} (hk : k < (blocks.map List.length).sum) :
    ∃ j, ∃ hj : j < blocks.length, ∃ i, ∃ hi : i < blocks[j].length,
      k = ((blocks.take j).map List.length).sum + i ∧ blocks.flatten.getD k [] = blocks[j][i] := by
  induction blocks generalizing k with
  | nil => simp at hk
  | cons rows blocks ih =>
    by_cases hrow : k < rows.length
    · refine ⟨0, by simp, k, hrow, by simp, ?_⟩
      rw [List.flatten_cons, List.getD_append _ _ _ _ hrow]
      simp [List.getElem?_eq_getElem hrow]
    · simp only [List.map_cons, List.sum_cons] at hk
      obtain ⟨j, hj, i, hi, hk', hget⟩ := ih (k := k - rows.length) (by omega)
      refine ⟨j + 1, by simpa using hj, i, by simpa using hi, ?_, ?_⟩
      · simp only [List.take_succ_cons, List.map_cons, List.sum_cons]
        omega
      · rw [List.flatten_cons, List.getD_append_right _ _ _ _ (by omega), hget]
        simp

theorem calcLengthsFrom_str_num : ∀ (c : CudaColumnString) (sizes buf_sizes : List Nat) (B O : UInt32),
    (c.calcLengthsFrom sizes buf_sizes B O).str_num = c.str_num ∧ (c.calcLengthsFrom sizes buf_sizes B O).buf = c.buf ∧
      (c.calcLengthsFrom sizes buf_sizes B O).max_str_num = c.max_str_num ∧
      (c.calcLengthsFrom sizes buf_sizes B O).max_sz = c.max_sz
  | c, size :: sizes, buf_size :: buf_sizes, B, O => by
    rw [CudaColumnString.calcLengthsFrom]
    exact calcLengthsFrom_str_num _ sizes buf_sizes _ _
  | _, [], _, _, _ => ⟨rfl, rfl, rfl, rfl⟩
  | _, _ :: _, [], _, _ => ⟨rfl, rfl, rfl, rfl⟩

/-- The key buffer of a round: appended to from empty, under the buffer's sizes. -/
structure Fresh (c : CudaColumnString) (max_str_num max_sz buf : Nat) : Prop where
  str_num : c.str_num = 0
  sz : c.sz = 0
  blocks_sizes : c.blocks_sizes = []
  blocks_buf_sizes : c.blocks_buf_sizes = []
  max_str_num : c.max_str_num = max_str_num
  max_sz : c.max_sz = max_sz
  buf : c.buf = buf

/-- Every block was accepted by `hasSpace` after the ones before it. -/
def Accepted (c : CudaColumnString) (mem : Nat → UInt8) (blocks : List (List (List UInt8))) : Prop :=
  ∀ n (hn : n < blocks.length), (addAll c mem (blocks.take n)).1.hasSpace blocks[n].length (getChars blocks[n]).length = true

/-- The batch the worker hands to `addData`: the buffer after `calcLengths`. -/
def roundBatch (keys : CudaColumnString) : Batch :=
  ⟨keys.calcLengths.str_num, keys.calcLengths.buf, keys.calcLengths.offsets, keys.calcLengths.lens⟩

section Round

variable {c : CudaColumnString} {mem : Nat → UInt8} {blocks : List (List (List UInt8))} {M S B : Nat}

theorem roundBatch_str_num (hc : Fresh c M S B) : (roundBatch (addAll c mem blocks).1).str_num = blocks.flatten.length := by
  simp [roundBatch, CudaColumnString.calcLengths, (calcLengthsFrom_str_num _ _ _ _ _).1, hc.str_num,
    List.length_flatten]

/-- String `k` of the batch is row `k` of the blocks with its zero. -/
theorem input_roundBatch (hc : Fresh c M S B) (hacc : Accepted c mem blocks) (hM : M < 2 ^ 32) (hS : S < 2 ^ 32)
    {k : Nat} (hk : k < blocks.flatten.length) :
    input (addAll c mem blocks).2 (roundBatch (addAll c mem blocks).1) k = blocks.flatten.getD k [] ++ [0] ∧
      (roundBatch (addAll c mem blocks).1).lens k ≠ 0 := by
  rw [List.length_flatten] at hk
  obtain ⟨j, hj, i, hi, rfl, hget⟩ := getD_flatten_block blocks hk
  obtain ⟨-, -, hrow⟩ := calcLengths_rows c mem blocks hc.str_num hc.sz hc.blocks_sizes hc.blocks_buf_sizes hacc
    (by rw [hc.max_str_num]; exact hM) (by rw [hc.max_sz]; exact hS) j hj i hi
  have hbuf : (addAll c mem blocks).1.calcLengths.buf = (addAll c mem blocks).1.buf :=
    (calcLengthsFrom_str_num _ _ _ _ _).2.1
  refine ⟨?_, fun h0 => ?_⟩
  · rw [input, roundBatch, hget]
    simp only [hbuf]
    exact hrow
  · have hlen := congrArg List.length hrow
    simp only [roundBatch] at h0
    rw [h0, length_load] at hlen
    simp at hlen

/-- The buffer the worker hands back is empty again, with the sizes and the place it had. -/
theorem fresh_reset (hc : Fresh c M S B) : Fresh (addAll c mem blocks).1.calcLengths.reset M S B := by
  obtain ⟨-, hbuf, hmax_num, hmax_sz⟩ := calcLengthsFrom_str_num (addAll c mem blocks).1
    (addAll c mem blocks).1.blocks_sizes (addAll c mem blocks).1.blocks_buf_sizes 0 0
  refine ⟨rfl, rfl, rfl, rfl, ?_, ?_, ?_⟩
  · show (addAll c mem blocks).1.calcLengths.max_str_num = M
    rw [CudaColumnString.calcLengths, hmax_num, addAll_max_str_num, hc.max_str_num]
  · show (addAll c mem blocks).1.calcLengths.max_sz = S
    rw [CudaColumnString.calcLengths, hmax_sz, addAll_max_sz, hc.max_sz]
  · show (addAll c mem blocks).1.calcLengths.buf = B
    rw [CudaColumnString.calcLengths, hbuf, addAll_buf, hc.buf]

theorem length_le_getChars (rows : List (List UInt8)) : rows.length ≤ (getChars rows).length := by
  induction rows with
  | nil => simp [getChars]
  | cons r rs ih =>
    simp only [getChars, List.length_cons, List.length_append]
    omega

theorem le_of_hasSpace {c : CudaColumnString} {n m : Nat} (h : c.hasSpace n m = true) :
    c.str_num + n ≤ c.max_str_num ∧ c.sz + m ≤ c.max_sz := by
  unfold CudaColumnString.hasSpace at h
  split_ifs at h with h1 h2
  exact ⟨by omega, by omega⟩

theorem addAll_concat (rows : List (List UInt8)) :
    addAll c mem (blocks ++ [rows]) =
      (addAll c mem blocks).1.addData (addAll c mem blocks).2 rows.length (getChars rows) (getOffsets 0 rows) := by
  rw [addAll, List.foldl_append]
  rfl

/-- A block accepted after the others keeps the history accepted. -/
theorem Accepted.concat {rows : List (List UInt8)} (hacc : Accepted c mem blocks)
    (hspace : (addAll c mem blocks).1.hasSpace rows.length (getChars rows).length = true) :
    Accepted c mem (blocks ++ [rows]) := by
  intro n hn
  rw [List.length_append, List.length_singleton] at hn
  rcases Nat.lt_succ_iff_lt_or_eq.mp hn with hlt | rfl
  · simpa [List.take_append_of_le_length hlt.le, List.getElem_append_left hlt] using hacc n hlt
  · simpa using hspace

/-- String `k` of the batch lies within the buffer's `S` bytes. -/
theorem offsets_add_lens_le (hc : Fresh c M S B) (hacc : Accepted c mem blocks) (hM : M < 2 ^ 32) (hS : S < 2 ^ 32)
    {k : Nat} (hk : k < blocks.flatten.length) :
    (roundBatch (addAll c mem blocks).1).offsets k + (roundBatch (addAll c mem blocks).1).lens k ≤ S := by
  rw [List.length_flatten] at hk
  obtain ⟨j, hj, i, hi, rfl, -⟩ := getD_flatten_block blocks hk
  obtain ⟨hoff, hlen, -⟩ := calcLengths_rows c mem blocks hc.str_num hc.sz hc.blocks_sizes hc.blocks_buf_sizes hacc
    (by rw [hc.max_str_num]; exact hM) (by rw [hc.max_sz]; exact hS) j hj i hi
  -- the row ends within its block's chars, which end within the buffer's bytes
  have hrow : (getChars (blocks[j].take i)).length + blocks[j][i].length + 1 ≤ (getChars blocks[j]).length := by
    have hle := length_getChars_take_le blocks[j] (i + 1)
    rw [getChars_take_succ blocks[j] i hi] at hle
    simpa [Nat.add_assoc] using hle
  have hblock := sum_map_take_add_le (fun rows => (getChars rows).length) blocks j hj
  have hall := (sum_le_of_hasSpace hacc).2
  rw [hc.max_sz] at hall
  simp only [roundBatch]
  rw [hoff, hlen, getOffsets_prev blocks[j] i hi, getOffsets_getD blocks[j] i hi]
  omega

end Round

/-! ## `kerCudaAddBulkCount` -/

/-- The count of bucket `b` grows by the threads that run and answer `b`. -/
theorem kerCudaAddBulkCount_apply (places : Nat → Nat) (N : Nat) (res : Nat → Nat) (order : List Nat) (b : Nat) :
    kerCudaAddBulkCount places N res order b = places b + (order.filter fun i => decide (i < N ∧ res i = b)).length := by
  induction order generalizing places with
  | nil => rfl
  | cons i order ih =>
    simp only [kerCudaAddBulkCount, List.foldl_cons] at ih ⊢
    rw [ih]
    by_cases hi : i < N
    · by_cases hb : res i = b
      · simp [hi, hb, upd_same]
        omega
      · simp [hi, hb, upd_ne _ _ (Ne.symm hb)]
    · simp [hi]

/-- With every thread run once, the count of bucket `b` grows by the number of rows answered `b`. -/
theorem kerCudaAddBulkCount_perm (places : Nat → Nat) {N : Nat} (res : Nat → Nat) {order : List Nat}
    (horder : order.Perm (List.range N)) (b : Nat) :
    kerCudaAddBulkCount places N res order b = places b + ((List.range N).filter fun i => decide (res i = b)).length := by
  rw [kerCudaAddBulkCount_apply, (horder.filter _).length_eq]
  congr 2
  apply List.filter_congr
  intro i hi
  simp [List.mem_range.mp hi]

/-- Counting the indices of a list whose entry is `key` counts `key`. -/
theorem length_filter_range_getD (rows : List (List UInt8)) (key : List UInt8) :
    ((List.range rows.length).filter fun i => decide (rows.getD i [] = key)).length = rows.count key := by
  have hmap : (List.range rows.length).map (fun i => rows.getD i []) = rows := by
    apply List.ext_getElem (by simp)
    intro i h1 h2
    simp [List.getElem?_eq_getElem h2]
  conv_rhs => rw [← hmap]
  rw [List.count_eq_countP, List.countP_map, List.countP_eq_length_filter]
  congr 1
  apply List.filter_congr
  intro i _
  exact (Bool.beq_eq_decide_eq _ _).symm

/-! ## What `addData` puts in the table -/

/-- A bucket full after a call that returns was full before, or holds a string of the batch that
    was answered with it. -/
theorem addData_only {hash : List UInt8 → UInt64} {t t' : CudaStringsHashTable} {dev dev' : Device} {batch : Batch}
    {res res' : Nat → Nat} {order copy_order : List Nat} (ht : TableInv hash t dev.mem)
    (hdata : ∀ i, i < batch.str_num → batch.lens i ≠ 0 → batch.buf + batch.offsets i ≠ 0)
    (horder : order.Perm (List.range batch.str_num))
    (h : addData hash t dev batch res order copy_order = .ok (t', dev', res')) {b : Nat} (hb : b < t.buckets_num)
    (hl : t'.lens b ≠ 0) : t.lens b ≠ 0 ∨ ∃ i, i < batch.str_num ∧ batch.lens i ≠ 0 ∧ res' i = b := by
  obtain ⟨s, c, hs, -, -, -, rfl, -, rfl⟩ := addData_ok h
  have hinv : AddInv hash t.buckets_num dev.mem batch ⟨t.hashes, t.lens, t.pointers, res, fun _ => 0, dev.table_is_full⟩
      s order := hs ▸ kerAddData_inv ht.probed t.buckets_num_pos hdata (horder.nodup_iff.mpr List.nodup_range)
  by_cases h0 : t.lens b = 0
  · obtain ⟨-, i, -, hi, hlen, -, hres⟩ := hinv.claimed b hb h0 hl
    exact Or.inr ⟨i, hi, by rw [hlen]; exact hl, hres⟩
  · exact Or.inl h0

/-- The table a call of `addData` returns has the buckets and the buffer of the table it was given. -/
theorem addData_table {hash : List UInt8 → UInt64} {t t' : CudaStringsHashTable} {dev dev' : Device} {batch : Batch}
    {res res' : Nat → Nat} {order copy_order : List Nat}
    (h : addData hash t dev batch res order copy_order = .ok (t', dev', res')) :
    t'.buckets_num = t.buckets_num ∧ t'.str_buf = t.str_buf ∧ t'.str_buf_max_sz = t.str_buf_max_sz := by
  obtain ⟨s, c, -, -, -, -, rfl, -, -⟩ := addData_ok h
  exact ⟨rfl, rfl, rfl⟩

/-! ## Chunk 0's table and counts -/

section Counted

variable {hash : List UInt8 → UInt64} {t t' : CudaStringsHashTable} {mem mem' : Nat → UInt8} {counts : Nat → Nat}
  {P : List (List UInt8)}

/-- Chunk 0 after the rows `P` were processed: its table keeps its invariant, every full bucket
    holds a key of the rows with its zero and counts the rows with that key, the empty buckets
    count nothing, and every key of the rows is held. -/
structure Counted (hash : List UInt8 → UInt64) (t : CudaStringsHashTable) (mem : Nat → UInt8) (counts : Nat → Nat)
    (P : List (List UInt8)) : Prop where
  table : TableInv hash t mem
  key : ∀ b, b < t.buckets_num → t.lens b ≠ 0 → ∃ key ∈ P, content mem t.lens t.pointers b = key ++ [0]
  count : ∀ b key, b < t.buckets_num → t.lens b ≠ 0 → content mem t.lens t.pointers b = key ++ [0] →
    counts b = P.count key
  empty : ∀ b, b < t.buckets_num → t.lens b = 0 → counts b = 0
  held : ∀ key ∈ P, ∃ b, b < t.buckets_num ∧ t.lens b ≠ 0 ∧ content mem t.lens t.pointers b = key ++ [0]

/-- What the worker starts from: the erased table and the zeroed counts, for no rows. -/
theorem counted_erase (t : CudaStringsHashTable) (mem : Nat → UInt8) (counts : Nat → Nat) :
    Counted hash (erase t) mem (cudaInitAggregateData t.buckets_num counts) [] := by
  have hlens : ∀ b, b < t.buckets_num → (erase t).lens b = 0 := fun b hb => by simp [erase, hb, EMPTY_LEN_VAL]
  refine ⟨tableInv_erase t mem, fun b hb hl => absurd (hlens b hb) hl, fun b _ hb hl _ => absurd (hlens b hb) hl,
    fun b hb _ => ?_, fun _ hkey => absurd hkey List.not_mem_nil⟩
  have hb' : b < t.buckets_num := hb
  simp [cudaInitAggregateData, hb']

/-- The strings of a table do not change with memory outside its buffer. -/
theorem content_frame (ht : TableInv hash t mem)
    (hmem : ∀ a, t.str_buf ≤ a → a < t.str_buf + t.str_buf_max_sz → mem' a = mem a) {b : Nat}
    (hb : b < t.buckets_num) (hl : t.lens b ≠ 0) : content mem' t.lens t.pointers b = content mem t.lens t.pointers b := by
  obtain ⟨o, ho, -, hle⟩ := ht.placed b hb hl
  have := ht.fits
  have := le_paddedLen (t.lens b)
  exact load_congr fun k hk => hmem _ (by omega) (by omega)

/-- `Counted` holds whatever happens to memory outside the table's buffer. -/
theorem Counted.frame (hc : Counted hash t mem counts P)
    (hmem : ∀ a, t.str_buf ≤ a → a < t.str_buf + t.str_buf_max_sz → mem' a = mem a) : Counted hash t mem' counts P where
  table := hc.table.frame hmem
  key b hb hl := by
    rw [content_frame hc.table hmem hb hl]
    exact hc.key b hb hl
  count b key hb hl := by
    rw [content_frame hc.table hmem hb hl]
    exact hc.count b key hb hl
  empty := hc.empty
  held key hkey := by
    obtain ⟨b, hb, hl, hcont⟩ := hc.held key hkey
    exact ⟨b, hb, hl, (content_frame hc.table hmem hb hl).trans hcont⟩

/-- A key of the rows is in no bucket that was empty. -/
theorem Counted.count_eq_zero (hc : Counted hash t mem counts P) {b : Nat} {key : List UInt8} (hl : t.lens b = 0)
    (hkey : ∀ c, c < t.buckets_num → t.lens c ≠ 0 → content mem t.lens t.pointers c = key ++ [0] → c = b) :
    P.count key = 0 := by
  refine List.count_eq_zero.mpr fun hmem => ?_
  obtain ⟨c, hc', hlc, hcont⟩ := hc.held key hmem
  exact hlc (hkey c hc' hlc hcont ▸ hl)

/-- A round of the worker: `addData` of the rows `R` (each string of the batch the row with its
    zero) and `kerCudaAddBulkCount` keep `Counted`, now for `P ++ R`, whatever order the threads
    of the three kernels run in. -/
theorem Counted.addData {dev dev' : Device} {batch : Batch} {res res' : Nat → Nat} {order copy_order : List Nat}
    {R : List (List UInt8)} (hc : Counted hash t dev.mem counts P) (hN : batch.str_num = R.length)
    (hin : ∀ k, k < R.length → input dev.mem batch k = R.getD k [] ++ [0] ∧ batch.lens k ≠ 0)
    (hdata : ∀ i, i < batch.str_num → batch.lens i ≠ 0 → batch.buf + batch.offsets i ≠ 0)
    (hout : Outside t batch) (horder : order.Perm (List.range batch.str_num))
    (hcopy : copy_order.Perm (List.range batch.str_num))
    (h : StringsHashTable.addData hash t dev batch res order copy_order = .ok (t', dev', res')) :
    Counted hash t' dev'.mem (kerCudaAddBulkCount counts batch.str_num res' order) (P ++ R) := by
  obtain ⟨hinv, hadded, hkept, -⟩ := addData_spec hc.table hdata hout horder hcopy h
  have hn : t'.buckets_num = t.buckets_num := (addData_table h).1
  -- row `k` of the round is in bucket `res' k`, with its zero
  have hrow : ∀ k, k < R.length →
      res' k < t'.buckets_num ∧ t'.lens (res' k) ≠ 0 ∧ content dev'.mem t'.lens t'.pointers (res' k) = R.getD k [] ++ [0] := by
    intro k hk
    obtain ⟨hcont, hl⟩ := hin k hk
    obtain ⟨hb, hlb, hc'⟩ := hadded k (hN ▸ hk) hl
    exact ⟨hb, hlb, hc'.trans hcont⟩
  have hanswer : ∀ b key, b < t'.buckets_num → t'.lens b ≠ 0 → content dev'.mem t'.lens t'.pointers b = key ++ [0] →
      ∀ k, k < R.length → (res' k = b ↔ R.getD k [] = key) := by
    intro b key hb hl hkey k hk
    obtain ⟨hkb, hkl, hkc⟩ := hrow k hk
    constructor
    · rintro rfl
      exact List.append_cancel_right (hkc.symm.trans hkey)
    · intro hR
      exact hinv.probed.unique hkb hb hkl hl (by rw [hkc, hkey, hR])
  have hround : ∀ b key, b < t'.buckets_num → t'.lens b ≠ 0 → content dev'.mem t'.lens t'.pointers b = key ++ [0] →
      ((List.range batch.str_num).filter fun i => decide (res' i = b)).length = R.count key := by
    intro b key hb hl hkey
    rw [hN, ← length_filter_range_getD R key]
    congr 1
    apply List.filter_congr
    intro k hk
    exact decide_eq_decide.mpr (hanswer b key hb hl hkey k (List.mem_range.mp hk))
  refine ⟨hinv, ?_, ?_, ?_, ?_⟩
  · intro b hb hl
    rcases addData_only hc.table hdata horder h (hn ▸ hb) hl with hold | ⟨i, hi, -, rfl⟩
    · obtain ⟨key, hmem, hkey⟩ := hc.key b (hn ▸ hb) hold
      exact ⟨key, List.mem_append_left _ hmem, ((hkept b (hn ▸ hb) hold).2).trans hkey⟩
    · have hi' : i < R.length := hN ▸ hi
      refine ⟨R.getD i [], List.mem_append_right _ ?_, (hrow i hi').2.2⟩
      rw [List.getD_eq_getElem _ _ hi']
      exact List.getElem_mem hi'
  · intro b key hb hl hkey
    rw [kerCudaAddBulkCount_perm counts res' horder b, hround b key hb hl hkey, List.count_append]
    congr 1
    by_cases hold : t.lens b = 0
    · rw [hc.empty b (hn ▸ hb) hold]
      refine (hc.count_eq_zero hold fun c hc' hlc hcont => ?_).symm
      obtain ⟨hlc', hcc⟩ := hkept c hc' hlc
      exact hinv.probed.unique (hn ▸ hc') hb hlc' hl (by rw [hcc, hcont, hkey])
    · obtain ⟨-, hcc⟩ := hkept b (hn ▸ hb) hold
      exact hc.count b key (hn ▸ hb) hold (hcc.symm.trans hkey)
  · intro b hb hl
    have hold : t.lens b = 0 := by
      by_contra hold
      exact (hkept b (hn ▸ hb) hold).1 hl
    rw [kerCudaAddBulkCount_perm counts res' horder b, hc.empty b (hn ▸ hb) hold, Nat.zero_add,
      List.length_eq_zero_iff, List.filter_eq_nil_iff]
    intro i hi hres
    have hi' : i < R.length := hN ▸ List.mem_range.mp hi
    exact (hrow i hi').2.1 (by rw [of_decide_eq_true hres]; exact hl)
  · intro key hkey
    rcases List.mem_append.mp hkey with hP | hR
    · obtain ⟨b, hb, hl, hcont⟩ := hc.held key hP
      obtain ⟨hl', hcc⟩ := hkept b hb hl
      exact ⟨b, hn ▸ hb, hl', hcc.trans hcont⟩
    · obtain ⟨k, hk, rfl⟩ := List.getElem_of_mem hR
      obtain ⟨hb, hl, hcont⟩ := hrow k hk
      rw [List.getD_eq_getElem _ _ hk] at hcont
      exact ⟨res' k, hb, hl, hcont⟩

/-- Two full buckets whose keys are the same are one bucket. -/
theorem Counted.dropLast_inj (hc : Counted hash t mem counts P) {b c : Nat} (hb : b < t.buckets_num)
    (hcb : c < t.buckets_num) (hlb : t.lens b ≠ 0) (hlc : t.lens c ≠ 0)
    (h : (content mem t.lens t.pointers b).dropLast = (content mem t.lens t.pointers c).dropLast) : b = c := by
  obtain ⟨kb, -, hkb⟩ := hc.key b hb hlb
  obtain ⟨kc, -, hkc⟩ := hc.key c hcb hlc
  rw [hkb, hkc, List.dropLast_concat, List.dropLast_concat] at h
  exact hc.table.probed.unique hb hcb hlb hlc (by rw [hkb, hkc, h])

end Counted

/-! ## The read-back -/

/-- In a list whose keys are distinct, a key's entry is what `lookup` finds. -/
theorem lookup_of_mem {α β : Type} [BEq α] [LawfulBEq α] {l : List (α × β)} {k : α} {v : β}
    (hnd : (l.map Prod.fst).Nodup) (hmem : (k, v) ∈ l) : l.lookup k = some v := by
  obtain ⟨s, r, rfl⟩ := List.append_of_mem hmem
  rw [List.map_append, List.map_cons, List.nodup_append] at hnd
  refine List.lookup_eq_some_iff.mpr ⟨s, r, rfl, fun p hp => ?_⟩
  exact bne_iff_ne.mpr (hnd.2.2 p.1 (List.mem_map_of_mem hp) k List.mem_cons_self).symm

section ReadBack

variable {hash : List UInt8 → UInt64} {t : CudaStringsHashTable} {mem : Nat → UInt8} {counts : Nat → Nat}
  {P : List (List UInt8)}

/-- The key the host reads for a full bucket, at the offset `calcOffsets` computed in its copy of
    the buffer: the bucket's string without its zero. -/
theorem load_host_buf (ht : TableInv hash t mem) (host : Nat → UInt8) {b : Nat} (hb : b < t.buckets_num)
    (hl : t.lens b ≠ 0) :
    load (store host 0 (load mem t.str_buf t.str_buf_sz)) ((calcOffsets t).offsets b) (t.lens b - 1) =
      (content mem t.lens t.pointers b).dropLast := by
  obtain ⟨o, ho, -, hle⟩ := ht.placed b hb hl
  have hoff : (calcOffsets t).offsets b = o := by
    have := calcOffsets_full ht hb hl
    omega
  have hpad := le_paddedLen (t.lens b)
  have hin := load_store_inside host 0 o (t.lens b - 1) (load mem t.str_buf t.str_buf_sz) (by simp; omega)
  rw [Nat.zero_add] at hin
  rw [hoff, hin, AlignedWord.drop_load, AlignedWord.take_load, content, List.dropLast_eq_take, length_load,
    AlignedWord.take_load, ho]
  congr 1
  omega

/-- The host's loop over the first `j` buckets: each full bucket's key with its count, in order. -/
theorem readBack_fold (hc : Counted hash t mem counts P) (host : Nat → UInt8) {j : Nat} (hj : j ≤ t.buckets_num) :
    (List.range j).foldlM (readBucket (store host 0 (load mem t.str_buf t.str_buf_sz)) (calcOffsets t) counts) [] =
      .ok (((List.range j).filter fun b => t.lens b ≠ 0).map
        fun b => ((content mem t.lens t.pointers b).dropLast, counts b)) := by
  induction j with
  | zero => rfl
  | succ j ih =>
    rw [List.range_succ, List.foldlM_append, ih (by omega), Checked.ok_bind, List.foldlM_cons, List.filter_append]
    have hlens : (calcOffsets t).lens = t.lens := rfl
    simp only [List.foldlM_nil, bind_pure, readBucket, EMPTY_LEN_VAL, hlens]
    by_cases hl : t.lens j = 0
    · simp [hl]
    · rw [load_host_buf hc.table host (by omega) hl]
      -- the key is new: a bucket before `j` with the same key would be bucket `j`
      have hnone : (((List.range j).filter fun b => t.lens b ≠ 0).map
          fun b => ((content mem t.lens t.pointers b).dropLast, counts b)).lookup
          (content mem t.lens t.pointers j).dropLast = none := by
        refine List.lookup_eq_none_iff.mpr fun p hp => ?_
        obtain ⟨b, hbf, rfl⟩ := List.mem_map.mp hp
        obtain ⟨hbj, hlb⟩ := List.mem_filter.mp hbf
        have hbj' := List.mem_range.mp hbj
        refine bne_iff_ne.mpr fun heq => ?_
        have := hc.dropLast_inj (by omega) (by omega) hl (of_decide_eq_true hlb) heq
        omega
      rw [hnone]
      simp [hl]

/-- The host's read-back of chunk 0, whose table is one for the rows `P` with the offsets
    `calcOffsets` computed: each key once, with the number of rows that have it. -/
theorem readBack_counts {agg agg' : CudaStringsAggregator} (h : readBack agg = .ok agg')
    (ht : (agg.chunks 0).cuda_hash_table = calcOffsets t)
    (hc : Counted hash t agg.dev.mem (agg.chunks 0).group_agg_res P) (hres : agg.agg_result = []) :
    (agg'.agg_result.map Prod.fst).Nodup ∧
      ∀ key, agg'.agg_result.lookup key = if P.count key = 0 then none else some (P.count key) := by
  obtain ⟨r, hr, hpure⟩ := Checked.bind_eq_ok.mp h
  cases hpure
  rw [ht, hres] at hr
  obtain rfl := Except.ok.inj (hr.symm.trans (readBack_fold hc agg.host_buf (le_refl t.buckets_num)))
  have hnd : ((((List.range t.buckets_num).filter fun b => t.lens b ≠ 0).map
      fun b => ((content agg.dev.mem t.lens t.pointers b).dropLast, (agg.chunks 0).group_agg_res b)).map
        Prod.fst).Nodup := by
    rw [List.map_map]
    refine List.Nodup.map_on (fun b hb c hc' hbc => ?_) (List.nodup_range.filter _)
    obtain ⟨hb1, hb2⟩ := List.mem_filter.mp hb
    obtain ⟨hc1, hc2⟩ := List.mem_filter.mp hc'
    exact hc.dropLast_inj (List.mem_range.mp hb1) (List.mem_range.mp hc1) (of_decide_eq_true hb2)
      (of_decide_eq_true hc2) hbc
  refine ⟨hnd, fun key => ?_⟩
  by_cases hP : P.count key = 0
  · -- no bucket holds the key: each holds a key of the rows
    rw [if_pos hP]
    refine List.lookup_eq_none_iff.mpr fun p hp => ?_
    obtain ⟨b, hbf, rfl⟩ := List.mem_map.mp hp
    obtain ⟨hb1, hb2⟩ := List.mem_filter.mp hbf
    obtain ⟨k, hk, hcont⟩ := hc.key b (List.mem_range.mp hb1) (of_decide_eq_true hb2)
    refine bne_iff_ne.mpr fun heq => ?_
    rw [hcont, List.dropLast_concat] at heq
    have hpos : 0 < P.count key := List.count_pos_iff.mpr (by rw [heq]; exact hk)
    omega
  · rw [if_neg hP]
    obtain ⟨b, hb, hl, hcont⟩ := hc.held key (List.count_pos_iff.mp (Nat.pos_of_ne_zero hP))
    refine lookup_of_mem hnd (List.mem_map.mpr ⟨b, List.mem_filter.mpr ⟨List.mem_range.mpr hb, by simpa using hl⟩, ?_⟩)
    rw [hcont, List.dropLast_concat, hc.count b key hb hl hcont]

end ReadBack


/-! ## The aggregator with one chunk -/

section Run

variable {hash : List UInt8 → UInt64} {order : Nat → List Nat} {M S B : Nat}

/-- A round of `processChunk` that returns: `addData` of the buffer after `calcLengths`, and the
    counts, the table and the reset buffer it leaves. -/
theorem processBuffer_ok {ch ch' : WorkChunkInfo} {dev dev' : Device} {v : Bool}
    (h : processBuffer hash order ch dev v = .ok (ch', dev')) :
    ∃ res', StringsHashTable.addData hash ch.cuda_hash_table dev (roundBatch ch.cuda_buffer_keys) ch.group_nums
        (order (roundBatch ch.cuda_buffer_keys).str_num) (order (roundBatch ch.cuda_buffer_keys).str_num) =
        .ok (ch'.cuda_hash_table, dev', res') ∧
      ch'.group_agg_res = kerCudaAddBulkCount ch.group_agg_res (roundBatch ch.cuda_buffer_keys).str_num res'
        (order (roundBatch ch.cuda_buffer_keys).str_num) ∧
      ch'.cuda_buffer_keys = ch.cuda_buffer_keys.calcLengths.reset := by
  obtain ⟨⟨t, d, res'⟩, hadd, hpure⟩ := Checked.bind_eq_ok.mp h
  cases hpure
  exact ⟨res', hadd, rfl, rfl⟩

/-- The aggregator with one chunk, between two blocks: its worker processed the rows `P`, and
    chunk 0's key buffer holds the blocks `Q` queued since, appended to an empty buffer at `B` of
    `M` rows and `S` bytes that lies apart from the table's string buffer. -/
structure Queued (hash : List UInt8 → UInt64) (M S B : Nat) (agg : CudaStringsAggregator) (P : List (List UInt8))
    (Q : List (List (List UInt8))) : Prop where
  chunks_num : agg.chunks_num = 1
  curr : agg.curr_filling_chunk = 0
  vals_needed : agg.is_vals_needed = false
  result : agg.agg_result = []
  buffer : ∃ c m, Fresh c M S B ∧ Accepted c m Q ∧ (agg.chunks 0).cuda_buffer_keys = (addAll c m Q).1 ∧
    agg.dev.mem = (addAll c m Q).2
  counted : Counted hash (agg.chunks 0).cuda_hash_table agg.dev.mem (agg.chunks 0).group_agg_res P
  apart : B + S ≤ (agg.chunks 0).cuda_hash_table.str_buf ∨
    (agg.chunks 0).cuda_hash_table.str_buf + (agg.chunks 0).cuda_hash_table.str_buf_max_sz ≤ B

/-- Right after a hand-off the buffer is empty. -/
theorem Queued.empty_of_nil {agg : CudaStringsAggregator} {P : List (List UInt8)} (hq : Queued hash M S B agg P []) :
    (agg.chunks agg.curr_filling_chunk).cuda_buffer_keys.empty = true := by
  obtain ⟨c, m, hfresh, -, hkeys, -⟩ := hq.buffer
  rw [hq.curr, hkeys]
  simp [addAll, CudaColumnString.empty, hfresh.str_num]

/-- An empty buffer holds no rows. -/
theorem Queued.flatten_eq_nil {agg : CudaStringsAggregator} {P : List (List UInt8)} {Q : List (List (List UInt8))}
    (hq : Queued hash M S B agg P Q) (hempty : (agg.chunks 0).cuda_buffer_keys.empty = true) : Q.flatten = [] := by
  obtain ⟨c, m, hfresh, -, hkeys, -⟩ := hq.buffer
  rw [hkeys] at hempty
  simp only [CudaColumnString.empty, addAll_str_num, addAll_sz, hfresh.str_num, hfresh.sz, Nat.zero_add,
    Bool.or_eq_true, beq_iff_eq] at hempty
  have hle : (Q.map List.length).sum ≤ (Q.map fun rows => (getChars rows).length).sum :=
    List.sum_le_sum fun rows _ => length_le_getChars rows
  rw [← List.length_eq_zero_iff, List.length_flatten]
  omega

/-- `startProcessing` of the aggregator `create` makes with one chunk: no rows, and an empty
    buffer apart from the table's. -/
theorem queued_startProcessing {tables : Nat → CudaStringsHashTable} {keys_buf vals_buf : Nat → Nat} {dev : Device}
    {host_buf : Nat → UInt8} {agg : CudaStringsAggregator}
    (hapart : keys_buf 0 + S ≤ (tables 0).str_buf ∨ (tables 0).str_buf + (tables 0).str_buf_max_sz ≤ keys_buf 0)
    (h : create 1 tables M S keys_buf vals_buf dev host_buf = .ok agg) :
    Queued hash M S (keys_buf 0) (startProcessing agg) [] [] := by
  unfold create at h
  split at h
  · cases h
  · cases h
    exact ⟨rfl, rfl, rfl, rfl, ⟨_, dev.mem, ⟨rfl, rfl, rfl, rfl, rfl, rfl, rfl⟩, fun n hn => absurd hn (by simp), rfl, rfl⟩,
      counted_erase _ _ _, hapart⟩

/-- With one chunk, the end of data is chunk 0's `calcOffsets`. -/
theorem endOfData_one {agg agg' : CudaStringsAggregator} (hn : agg.chunks_num = 1) (h : endOfData agg = .ok agg') :
    agg' = { agg with
      chunks := upd agg.chunks 0
        { agg.chunks 0 with cuda_processing_state := true, cuda_hash_table := calcOffsets (agg.chunks 0).cuda_hash_table } } := by
  unfold endOfData at h
  rw [hn, List.range_one, List.foldlM_cons] at h
  obtain ⟨a, h0, hrest⟩ := Checked.bind_eq_ok.mp h
  cases hrest
  dsimp only [endChunk] at h0
  split at h0
  · cases h0
  · cases h0
    rfl

/-- With one chunk there is nothing to merge. -/
theorem combineChunks_one {agg agg' : CudaStringsAggregator} (h : combineChunks hash order agg = .ok agg')
    (hn : agg.chunks_num = 1) : agg' = agg := by
  unfold combineChunks at h
  rw [hn] at h
  cases h
  rfl

section Steps

variable (horder : ∀ n, (order n).Perm (List.range n)) (hM : M < 2 ^ 32) (hS : S < 2 ^ 32) (hB : 0 < B)
include horder hM hS hB

/-- The hand-off of chunk 0's buffer: its blocks are processed, and the buffer is empty again. -/
theorem Queued.handOff {agg agg' : CudaStringsAggregator} {P : List (List UInt8)} {Q : List (List (List UInt8))}
    (hq : Queued hash M S B agg P Q) (h : StringsAggregator.handOff hash order agg 0 = .ok agg') :
    Queued hash M S B agg' (P ++ Q.flatten) [] := by
  obtain ⟨⟨ch', dev'⟩, hp, hpure⟩ := Checked.bind_eq_ok.mp h
  cases hpure
  obtain ⟨c, m, hfresh, hacc, hkeys, hmem⟩ := hq.buffer
  obtain ⟨res', hadd, hcount, hreset⟩ := processBuffer_ok hp
  rw [hkeys] at hadd hcount hreset
  have hN : (roundBatch (addAll c m Q).1).str_num = Q.flatten.length := roundBatch_str_num hfresh
  have hbuf : (roundBatch (addAll c m Q).1).buf = B := by
    simp [roundBatch, (calcLengthsFrom_str_num _ _ _ _ _).2.1, CudaColumnString.calcLengths, hfresh.buf]
  have hround : Counted hash ch'.cuda_hash_table dev'.mem ch'.group_agg_res (P ++ Q.flatten) := by
    rw [hcount]
    refine hq.counted.addData hN (fun k hk => hmem ▸ input_roundBatch hfresh hacc hM hS hk) (fun i hi _ => ?_)
      (fun i hi _ => ?_) (horder _) (horder _) hadd
    · rw [hbuf]
      omega
    · have hle := offsets_add_lens_le hfresh hacc hM hS (hN ▸ hi)
      rw [hbuf]
      rcases hq.apart with hlo | hhi
      · exact Or.inl (by omega)
      · exact Or.inr (by omega)
  obtain ⟨-, hsb, hsm⟩ := addData_table hadd
  refine ⟨hq.chunks_num, hq.curr, hq.vals_needed, hq.result, ⟨ch'.cuda_buffer_keys, dev'.mem, ?_, ?_, ?_, rfl⟩, ?_, ?_⟩
  · rw [hreset]
    exact fresh_reset hfresh
  · intro n hn
    simp at hn
  · simp [upd_same, addAll]
  · simpa [upd_same] using hround
  · simp only [upd_same, hsb, hsm]
    exact hq.apart

/-- `tryQueueData` of a block: it is appended to the buffer, or the buffer is handed off. -/
theorem Queued.tryQueueData {agg agg' : CudaStringsAggregator} {P : List (List UInt8)} {Q : List (List (List UInt8))}
    {rows : List (List UInt8)} {vals_str_buf : List UInt8} {vals_offsets : List Nat} {queued : Bool}
    (hq : Queued hash M S B agg P Q)
    (h : StringsAggregator.tryQueueData hash order agg rows.length (getChars rows) (getOffsets 0 rows) vals_str_buf
      vals_offsets = .ok (agg', queued)) :
    (queued = true ∧ Queued hash M S B agg' P (Q ++ [rows])) ∨
      (queued = false ∧ Queued hash M S B agg' (P ++ Q.flatten) []) := by
  obtain ⟨c, m, hfresh, hacc, hkeys, hmem⟩ := hq.buffer
  dsimp only [StringsAggregator.tryQueueData] at h
  rw [hq.curr] at h
  split at h
  · next hspace =>
    rw [hq.vals_needed] at h
    cases h
    have hkeys_space := (Bool.and_eq_true _ _).mp hspace |>.1
    rw [hkeys] at hkeys_space
    have hfit := (le_of_hasSpace hkeys_space).2
    simp only [addAll_sz, addAll_max_sz, hfresh.sz, hfresh.max_sz] at hfit
    refine Or.inl ⟨rfl, hq.chunks_num, rfl, rfl, hq.result, ⟨c, m, hfresh, hacc.concat hkeys_space, ?_, ?_⟩, ?_, ?_⟩
    · simp only [upd_same, addAll_concat, ← hkeys, ← hmem]
    · simp only [Bool.false_eq_true, if_false, addAll_concat, ← hkeys, ← hmem]
    · simp only [upd_same]
      -- the block's bytes go to the key buffer, apart from the table's
      refine hq.counted.frame fun a hlo hhi => store_of_disjoint _ ?_
      simp only [hkeys, addAll_buf, addAll_sz, hfresh.buf, hfresh.sz]
      rcases hq.apart with hle | hle <;> omega
    · simpa only [upd_same] using hq.apart
  · split at h
    · cases h
    · obtain ⟨agg1, hhand, hpure⟩ := Checked.bind_eq_ok.mp h
      cases hpure
      have h1 := hq.handOff horder hM hS hB hhand
      exact Or.inr ⟨rfl, h1.chunks_num, by simp [h1.chunks_num], h1.vals_needed, h1.result, h1.buffer, h1.counted,
        h1.apart⟩

/-- `executeOnBlock`: the block's rows join the rows processed and queued. -/
theorem Queued.executeOnBlock {agg agg' : CudaStringsAggregator} {P : List (List UInt8)}
    {Q : List (List (List UInt8))} {block : Block} (hq : Queued hash M S B agg P Q)
    (h : StringsAggregator.executeOnBlock hash order agg block = .ok agg') :
    ∃ P' Q', Queued hash M S B agg' P' Q' ∧ P' ++ Q'.flatten = P ++ Q.flatten ++ block.keys := by
  dsimp only [StringsAggregator.executeOnBlock, queueData] at h
  obtain ⟨⟨agg1, queued⟩, h1, h2⟩ := Checked.bind_eq_ok.mp h
  rcases hq.tryQueueData horder hM hS hB h1 with ⟨rfl, hq1⟩ | ⟨rfl, hq1⟩
  · simp only [↓reduceIte] at h2
    cases h2
    exact ⟨P, Q ++ [block.keys], hq1, by simp⟩
  · simp only [Bool.false_eq_true, ↓reduceIte] at h2
    obtain ⟨⟨agg2, queued2⟩, h3, h4⟩ := Checked.bind_eq_ok.mp h2
    cases h4
    -- the buffer was just handed off, so the second try appends the block
    have hqueued := tryQueueData_of_empty hq1.empty_of_nil h3
    rcases hq1.tryQueueData horder hM hS hB h3 with ⟨-, hq2⟩ | ⟨hfalse, -⟩
    · exact ⟨P ++ Q.flatten, [] ++ [block.keys], hq2, by simp⟩
    · simp [hfalse] at hqueued

/-- The blocks of a run: all their rows are processed or queued. -/
theorem Queued.foldlM {blocks : List Block} {agg agg' : CudaStringsAggregator} {P : List (List UInt8)}
    {Q : List (List (List UInt8))} (hq : Queued hash M S B agg P Q)
    (h : blocks.foldlM (StringsAggregator.executeOnBlock hash order) agg = .ok agg') :
    ∃ P' Q', Queued hash M S B agg' P' Q' ∧ P' ++ Q'.flatten = P ++ Q.flatten ++ (blocks.map Block.keys).flatten := by
  induction blocks generalizing agg P Q with
  | nil =>
    cases h
    exact ⟨P, Q, hq, by simp⟩
  | cons block blocks ih =>
    rw [List.foldlM_cons] at h
    obtain ⟨agg1, h1, h2⟩ := Checked.bind_eq_ok.mp h
    obtain ⟨P1, Q1, hq1, hrows1⟩ := hq.executeOnBlock horder hM hS hB h1
    obtain ⟨P', Q', hq', hrows⟩ := ih hq1 h2
    exact ⟨P', Q', hq', by simp [hrows, hrows1]⟩

/-- `flushCurrent`: the rows queued are processed too. -/
theorem Queued.flushCurrent {agg agg' : CudaStringsAggregator} {P : List (List UInt8)} {Q : List (List (List UInt8))}
    (hq : Queued hash M S B agg P Q) (h : StringsAggregator.flushCurrent hash order agg = .ok agg') :
    agg'.chunks_num = 1 ∧ agg'.agg_result = [] ∧
      Counted hash (agg'.chunks 0).cuda_hash_table agg'.dev.mem (agg'.chunks 0).group_agg_res (P ++ Q.flatten) := by
  dsimp only [StringsAggregator.flushCurrent] at h
  rw [hq.curr] at h
  split at h
  · have hq' := hq.handOff horder hM hS hB h
    exact ⟨hq'.chunks_num, hq'.result, hq'.counted⟩
  · next hempty =>
    cases h
    rw [hq.flatten_eq_nil (by simpa using hempty), List.append_nil]
    exact ⟨hq.chunks_num, hq.result, hq.counted⟩

end Steps

/-- GPU `GROUP BY key` with `count` over one chunk gives what the CPU aggregator gives: if the
    run from `create` returns a result, it has each key once, and the keys with their counts are
    those of the rows of all the blocks, whatever order the threads of the kernels run in, when
    the key buffer lies apart from the table's string buffer and its sizes fit `UInt32`. -/
theorem execute_single_chunk_counts {tables : Nat → CudaStringsHashTable} {keys_buf vals_buf : Nat → Nat}
    {dev : Device} {host_buf : Nat → UInt8} {blocks : List Block} {result : List (List UInt8 × Nat)}
    (horder : ∀ n, (order n).Perm (List.range n)) (hM : M < 2 ^ 32) (hS : S < 2 ^ 32) (hB : 0 < keys_buf 0)
    (hapart : keys_buf 0 + S ≤ (tables 0).str_buf ∨ (tables 0).str_buf + (tables 0).str_buf_max_sz ≤ keys_buf 0)
    (h : (create 1 tables M S keys_buf vals_buf dev host_buf >>= fun agg => execute hash order agg blocks).map getResult =
      .ok result) :
    (result.map Prod.fst).Nodup ∧
      ∀ key, result.lookup key = if cpuCount blocks key = 0 then none else some (cpuCount blocks key) := by
  obtain ⟨agg', hrun, rfl⟩ : ∃ agg', (create 1 tables M S keys_buf vals_buf dev host_buf >>= fun agg =>
      execute hash order agg blocks) = .ok agg' ∧ getResult agg' = result := by
    cases hx : (create 1 tables M S keys_buf vals_buf dev host_buf >>= fun agg => execute hash order agg blocks) with
    | error e => simp [hx, Except.map] at h
    | ok agg' => simpa [hx, Except.map] using h
  obtain ⟨agg, hcreate, hexec⟩ := Checked.bind_eq_ok.mp hrun
  unfold execute at hexec
  split at hexec
  · cases hexec
  · obtain ⟨agg1, h1, h2⟩ := Checked.bind_eq_ok.mp hexec
    obtain ⟨P, Q, hq1, hrows⟩ := (queued_startProcessing hapart hcreate).foldlM horder hM hS hB h1
    -- `waitProcessed`: the flush, the end of data, no merge, and the read-back
    obtain ⟨agg2, h2f, h2'⟩ := Checked.bind_eq_ok.mp h2
    obtain ⟨agg3, h3, h3'⟩ := Checked.bind_eq_ok.mp h2'
    obtain ⟨agg4, h4, h5⟩ := Checked.bind_eq_ok.mp h3'
    obtain ⟨hn2, hres2, hc2⟩ := hq1.flushCurrent horder hM hS hB h2f
    obtain rfl := endOfData_one hn2 h3
    obtain rfl := combineChunks_one h4 hn2
    have hcpu : ∀ key, cpuCount blocks key = (P ++ Q.flatten).count key := by
      intro key
      rw [cpuCount, hrows, List.nil_append, List.flatten_nil, List.nil_append]
    simp only [getResult, hcpu]
    exact readBack_counts (t := (agg2.chunks 0).cuda_hash_table) h5 (by simp [upd_same]) (by simpa [upd_same] using hc2)
      hres2

/-- Keys `"a"`, `"b"`, `"a"` through a buffer of four rows and eight bytes, the table one of
    `twoBucketTable`'s. -/
theorem execute_single_chunk_counts_three_rows :
    (∀ n, (List.range n).Perm (List.range n)) ∧ 4 < 2 ^ 32 ∧ 8 < 2 ^ 32 ∧ 0 < 2 ^ 33 ∧
      (2 ^ 33 + 8 ≤ (twoBucketTable 0).str_buf ∨
        (twoBucketTable 0).str_buf + (twoBucketTable 0).str_buf_max_sz ≤ 2 ^ 33) ∧
      (create 1 twoBucketTable 4 8 (fun _ => 2 ^ 33) (fun _ => 2 ^ 34) ⟨fun _ => 0, false⟩ (fun _ => 0) >>= fun agg =>
        execute murmurHash List.range agg [⟨[[97], [98], [97]], [[120], [120], [120]], rfl⟩]).map getResult =
        .ok [([98], 1), ([97], 2)] ∧
      (([([98], 1), ([97], 2)] : List (List UInt8 × Nat)).map Prod.fst).Nodup ∧
      ∀ key, ([([98], 1), ([97], 2)] : List (List UInt8 × Nat)).lookup key =
        if cpuCount [⟨[[97], [98], [97]], [[120], [120], [120]], rfl⟩] key = 0 then none
        else some (cpuCount [⟨[[97], [98], [97]], [[120], [120], [120]], rfl⟩] key) := by
  refine ⟨fun n => List.Perm.refl _, by decide, by decide, by decide, Or.inr (by decide), ?run,
    execute_single_chunk_counts (fun n => List.Perm.refl _) (by decide) (by decide) (by decide) (Or.inr (by decide)) ?run⟩
  case run => decide +kernel

end Run

end ClickHouseGpu.Cuda.SingleChunkCount
