import ClickHouseGpu.Cuda.StringsHashTable
import ClickHouseGpu.Lib.Checked

/-
  ClickHouseGpu.Cuda.StringsAggregator — GROUP BY one String key with COUNT on the GPU:
  `CudaStringsAggregator` over `CudaStringsHashTable` (see `ClickHouseGpu.Cuda.StringsHashTable`).

  The producer (`queueData`) appends each block's keys to the buffer of the current chunk and
  hands the buffer to the chunk's worker (`processChunk`) when the next block does not fit; the
  worker puts the keys into its chunk's table and adds one to the count of each row's bucket.
  At the end (`waitProcessed`) every worker computes its table's offsets, the tables of chunks
  1, 2, … are merged into chunk 0's, and the host reads the keys back from a copy of chunk 0's
  string buffer at those offsets.

  The run is sequential: a buffer handed off is processed at the hand-off. A worker touches
  only its own chunk's buffers, table and counts, and the producer waits for a buffer to be
  handed back before it appends to it again, so nothing the producer does in between reads
  or writes what the worker does. Each kernel runs its threads in `order n` (for a launch over
  `n` elements); the hash is a parameter (`cudaMurmurHash64` with seed 0 in the source, given
  below). Counts and sizes are natural numbers.

  Proved:
  - `tryQueueData_of_empty`: on an empty buffer a block is added or rejected, so `queueData`
    runs at most two rounds.
  - `combineChunks_offsets`: the merges into chunk 0 never recompute its offsets.
  - `waitProcessed_offset_of_null`: a bucket of chunk 0 that held no string when its worker
    computed the offsets is read back at `-str_buf` modulo `2^32`, whatever a merge put there.
  - `count_reads_merged_key_at_stale_offset`: a run where a key seen only in chunk 1 comes
    back as a prefix of chunk 0's first key.
-/

namespace ClickHouseGpu.Cuda.StringsAggregator

open ByteBuffer LinearProbe Checked ClickHouseGpu.Cuda.StringsHashTable

/-! ## The hash -/

/-- The multiplier `m` of `cudaMurmurHash64`. -/
def murmurM : UInt64 := 0xc6a4a7935bd1e995

/-- One round of `cudaMurmurHash64`'s loop on the word `k`: only a whole eight-byte word is
    mixed before it is folded into `h`. -/
def murmurRound (h k : UInt64) (is_complete_uint64 : Bool) : UInt64 :=
  let k :=
    if is_complete_uint64 then
      let k := k * murmurM
      let k := k ^^^ (k >>> 47)
      k * murmurM
    else k
  (h ^^^ k) * murmurM

/-- `cudaMurmurHash64(s, len, seed)`. The words are those `cudaReadStringUnaligned64` reads:
    little-endian, the last one cut to the bytes that are left. -/
def cudaMurmurHash64 (s : List UInt8) (seed : UInt32) : UInt64 :=
  let h := (List.range (wordsNum s.length)).foldl
    (fun h k => murmurRound h (UInt64.ofNat (leValue ((s.drop (8 * k)).take 8))) (decide (8 ≤ s.length - 8 * k)))
    (seed.toUInt64 ^^^ (s.length.toUInt32.toUInt64 * murmurM))
  let h := h ^^^ (h >>> 47)
  let h := h * murmurM
  h ^^^ (h >>> 47)

/-- The hash of `kerAddData`, which is launched with seed 0. -/
def murmurHash (s : List UInt8) : UInt64 := cudaMurmurHash64 s 0

/-! ## Blocks and column buffers -/

/-- `ColumnString::getChars` of a column whose rows are `rows`: each row followed by a zero. -/
def getChars : List (List UInt8) → List UInt8
  | [] => []
  | r :: rs => r ++ [0] ++ getChars rs

/-- `ColumnString::getOffsets`: for each row the offset just past its zero, the rows starting
    at `base`. -/
def getOffsets (base : Nat) : List (List UInt8) → List Nat
  | [] => []
  | r :: rs => (base + r.length + 1) :: getOffsets (base + r.length + 1) rs

/-- A block of the input: the key column and the argument column of `count`. -/
structure Block where
  keys : List (List UInt8)
  vals : List (List UInt8)
  same_rows : keys.length = vals.length

/-- `CudaColumnString`, a device buffer of strings. `offsets64` holds the blocks' own row
    offsets as they were copied; `lens` and `offsets` are what `calcLengths` makes of them. -/
structure CudaColumnString where
  max_str_num : Nat
  max_sz : Nat
  buf : Nat
  str_num : Nat
  sz : Nat
  lens : Nat → Nat
  offsets : Nat → Nat
  offsets64 : Nat → Nat
  blocks_sizes : List Nat
  blocks_buf_sizes : List Nat

namespace CudaColumnString

/-- The constructor: an empty buffer. The device arrays are read only where written. -/
def create (max_str_num max_sz buf : Nat) : Except String CudaColumnString :=
  if max_str_num = 0 ∨ max_sz = 0 then throw "CudaColumnString: try to create zero size buffer"
  else pure ⟨max_str_num, max_sz, buf, 0, 0, fun _ => 0, fun _ => 0, fun _ => 0, [], []⟩

def empty (c : CudaColumnString) : Bool := c.str_num == 0 || c.sz == 0

def hasSpace (c : CudaColumnString) (str_num_ str_buf_sz_ : Nat) : Bool :=
  if c.str_num + str_num_ > c.max_str_num then false
  else if c.sz + str_buf_sz_ > c.max_sz then false
  else true

/-- `addData`: the block's bytes are copied to `buf + sz` and its row offsets to
    `offsets64 + str_num`. -/
def addData (c : CudaColumnString) (mem : Nat → UInt8) (str_num_ : Nat) (str_buf_ : List UInt8)
    (offsets_ : List Nat) : CudaColumnString × (Nat → UInt8) :=
  ({ c with
      offsets64 := fun j =>
        if c.str_num ≤ j ∧ j < c.str_num + str_num_ then offsets_.getD (j - c.str_num) 0 else c.offsets64 j
      str_num := c.str_num + str_num_
      sz := c.sz + str_buf_.length
      blocks_sizes := c.blocks_sizes ++ [str_num_]
      blocks_buf_sizes := c.blocks_buf_sizes ++ [str_buf_.length] },
    store mem (c.buf + c.sz) str_buf_)

def reset (c : CudaColumnString) : CudaColumnString :=
  { c with str_num := 0, sz := 0, blocks_sizes := [], blocks_buf_sizes := [] }

/-- `kerCalcLengths` for the block of `block_size` rows from row `block_begin`, whose bytes
    start at `block_offset`: a row starts where the row before it in its block ends. The kernel
    works in `UInt32`: thread `i` reads the block's 64-bit offsets cut to 32 bits and writes
    entry `block_begin + i`. -/
def kerCalcLengths (c : CudaColumnString) (block_begin block_size block_offset : UInt32) : CudaColumnString :=
  let local_offset := fun i : UInt32 => if i > 0 then (c.offsets64 (block_begin + i - 1).toNat).toUInt32 else 0
  -- the thread that writes entry `j`, if one does
  let thread := fun j : Nat => j.toUInt32 - block_begin
  { c with
    offsets := fun j =>
      if j < 2 ^ 32 ∧ thread j < block_size then (local_offset (thread j) + block_offset).toNat else c.offsets j
    lens := fun j =>
      if j < 2 ^ 32 ∧ thread j < block_size then ((c.offsets64 j).toUInt32 - local_offset (thread j)).toNat
      else c.lens j }

/-- The loop of `calcLengths` over the blocks from row `block_begin` and byte `block_offset`,
    both `UInt32`. -/
def calcLengthsFrom (c : CudaColumnString) : List Nat → List Nat → UInt32 → UInt32 → CudaColumnString
  | size :: sizes, buf_size :: buf_sizes, block_begin, block_offset =>
    calcLengthsFrom (c.kerCalcLengths block_begin size.toUInt32 block_offset) sizes buf_sizes
      (block_begin + size.toUInt32) (block_offset + buf_size.toUInt32)
  | _, _, _, _ => c

def calcLengths (c : CudaColumnString) : CudaColumnString :=
  c.calcLengthsFrom c.blocks_sizes c.blocks_buf_sizes 0 0

end CudaColumnString

/-! ## COUNT -/

/-- `CudaAggregateFunctionCount::isDataNeeded`: the argument column is not sent. -/
def isDataNeeded : Bool := false

/-- `cudaInitAggregateData`: the first `places_num` counts are zero. -/
def cudaInitAggregateData (places_num : Nat) (places : Nat → Nat) : Nat → Nat :=
  fun b => if b < places_num then 0 else places b

/-- `kerCudaAddBulkCount`, its threads in `order`: one is added to the count of each row's
    bucket. -/
def kerCudaAddBulkCount (places : Nat → Nat) (elements_num : Nat) (res_buckets : Nat → Nat)
    (order : List Nat) : Nat → Nat :=
  order.foldl (fun places i =>
    if i < elements_num then upd places (res_buckets i) (places (res_buckets i) + 1) else places) places

/-- `kerCudaMergeBulkCount`, its threads in `order`: the count of the other table's bucket `i`
    is added to the bucket its string went to, unless it had none (`~0`). -/
def kerCudaMergeBulkCount (places : Nat → Nat) (elements_num : Nat) (places_from res_buckets : Nat → Nat)
    (order : List Nat) : Nat → Nat :=
  order.foldl (fun places i =>
    if i < elements_num ∧ res_buckets i ≠ 2 ^ 32 - 1 then
      upd places (res_buckets i) (places (res_buckets i) + places_from i)
    else places) places

/-! ## The aggregator -/

/-- `WorkChunkInfo`: a chunk's flag, buffers, table and counts (`group_agg_res`, one per bucket). -/
structure WorkChunkInfo where
  cuda_processing_state : Bool
  cuda_buffer_keys : CudaColumnString
  cuda_buffer_vals : CudaColumnString
  cuda_hash_table : CudaStringsHashTable
  group_nums : Nat → Nat
  group_agg_res : Nat → Nat

/-- `CudaStringsAggregator`, with the device's memory and chunk 0's host buffer of keys. -/
structure CudaStringsAggregator where
  chunks_num : Nat
  chunks : Nat → WorkChunkInfo
  is_vals_needed : Bool
  curr_filling_chunk : Nat
  dev : Device
  host_buf : Nat → UInt8
  agg_result : List (List UInt8 × Nat)

/-- The constructor, given what chunk `i`'s allocations return: its table, made with
    `hash_table_max_size` buckets, and the addresses of its two buffers. -/
def create (chunks_num : Nat) (tables : Nat → CudaStringsHashTable) (buffer_max_str_num buffer_max_size : Nat)
    (keys_buf vals_buf : Nat → Nat) (dev : Device) (host_buf : Nat → UInt8) :
    Except String CudaStringsAggregator :=
  if 0 < chunks_num ∧ (buffer_max_str_num = 0 ∨ buffer_max_size = 0) then
    throw "CudaColumnString: try to create zero size buffer"
  else
    let buffer := fun buf =>
      (⟨buffer_max_str_num, buffer_max_size, buf, 0, 0, fun _ => 0, fun _ => 0, fun _ => 0, [], []⟩ : CudaColumnString)
    pure
      { chunks_num := chunks_num
        chunks := fun i =>
          { cuda_processing_state := false
            cuda_buffer_keys := buffer (keys_buf i)
            cuda_buffer_vals := buffer (vals_buf i)
            cuda_hash_table := tables i
            group_nums := fun _ => 0
            group_agg_res := fun _ => 0 }
        is_vals_needed := false
        curr_filling_chunk := 0
        dev := dev
        host_buf := host_buf
        agg_result := [] }

/-- What the CPU `Aggregator` gives for `SELECT key, count(value) GROUP BY key`: the number of
    rows with each key. -/
def cpuCount (blocks : List Block) (key : List UInt8) : Nat :=
  ((blocks.map Block.keys).flatten).count key

section Pipeline

variable (hash : List UInt8 → UInt64) (order : Nat → List Nat)

/-- `startProcessing`. Each worker's first steps, `erase` of its table and
    `cudaInitAggregateData` of its counts, are taken here. -/
def startProcessing (agg : CudaStringsAggregator) : CudaStringsAggregator :=
  { agg with
    chunks := fun i =>
      let ch := agg.chunks i
      { ch with
        cuda_processing_state := false
        cuda_hash_table := erase ch.cuda_hash_table
        group_agg_res := cudaInitAggregateData ch.cuda_hash_table.buckets_num ch.group_agg_res }
    curr_filling_chunk := 0
    is_vals_needed := isDataNeeded }

/-- One round of `processChunk`'s loop on a buffer that holds rows: `calcLengths`, `addData`
    into the chunk's table, `cudaAddBulk` into its counts, and the buffers reset and handed back. -/
def processBuffer (ch : WorkChunkInfo) (dev : Device) (is_vals_needed : Bool) :
    Except String (WorkChunkInfo × Device) := do
  let keys := ch.cuda_buffer_keys.calcLengths
  let vals := if is_vals_needed then ch.cuda_buffer_vals.calcLengths else ch.cuda_buffer_vals
  let str_num := keys.str_num
  let (table, dev, group_nums) ← addData hash ch.cuda_hash_table dev ⟨str_num, keys.buf, keys.offsets, keys.lens⟩
    ch.group_nums (order str_num) (order str_num)
  pure ({ ch with
      cuda_hash_table := table
      group_nums := group_nums
      group_agg_res := kerCudaAddBulkCount ch.group_agg_res str_num group_nums (order str_num)
      cuda_buffer_keys := keys.reset
      cuda_buffer_vals := vals.reset
      cuda_processing_state := false }, dev)

/-- Chunk `i`'s buffer handed to its worker, and the worker's round on it. -/
def handOff (agg : CudaStringsAggregator) (i : Nat) : Except String CudaStringsAggregator := do
  let (ch, dev) ← processBuffer hash order (agg.chunks i) agg.dev agg.is_vals_needed
  pure { agg with chunks := upd agg.chunks i ch, dev := dev }

/-- `tryQueueData`: the block is appended to the current chunk's buffers if both have room;
    otherwise the buffer is handed off and the next chunk becomes current. -/
def tryQueueData (agg : CudaStringsAggregator) (str_num : Nat) (str_buf : List UInt8) (offsets : List Nat)
    (vals_str_buf : List UInt8) (vals_offsets : List Nat) : Except String (CudaStringsAggregator × Bool) :=
  let i := agg.curr_filling_chunk
  let ch := agg.chunks i
  if ch.cuda_buffer_keys.hasSpace str_num str_buf.length && ch.cuda_buffer_vals.hasSpace str_num vals_str_buf.length then
    let (keys, mem) := ch.cuda_buffer_keys.addData agg.dev.mem str_num str_buf offsets
    let (vals, mem) :=
      if agg.is_vals_needed then ch.cuda_buffer_vals.addData mem str_num vals_str_buf vals_offsets
      else (ch.cuda_buffer_vals, mem)
    pure ({ agg with
      chunks := upd agg.chunks i { ch with cuda_buffer_keys := keys, cuda_buffer_vals := vals }
      dev := { agg.dev with mem := mem } }, true)
  else if ch.cuda_buffer_keys.empty then throw "CudaStringsAggregator: seems there is not enough space in buffer"
  else do
    let agg ← handOff hash order agg i
    pure ({ agg with curr_filling_chunk := (i + 1) % agg.chunks_num }, false)

/-- `queueData`'s loop. After a hand-off the new current buffer is empty (each buffer handed
    off was processed and reset), so the second round adds the block or throws
    (`tryQueueData_of_empty`). -/
def queueData (agg : CudaStringsAggregator) (str_num : Nat) (str_buf : List UInt8) (offsets : List Nat)
    (vals_str_buf : List UInt8) (vals_offsets : List Nat) : Except String CudaStringsAggregator := do
  let (agg, queued) ← tryQueueData hash order agg str_num str_buf offsets vals_str_buf vals_offsets
  if queued then pure agg
  else
    let (agg, _) ← tryQueueData hash order agg str_num str_buf offsets vals_str_buf vals_offsets
    pure agg

/-- `executeOnBlock` once the aggregator is started: the block's two columns are queued. -/
def executeOnBlock (agg : CudaStringsAggregator) (block : Block) : Except String CudaStringsAggregator :=
  queueData hash order agg block.keys.length (getChars block.keys) (getOffsets 0 block.keys)
    (getChars block.vals) (getOffsets 0 block.vals)

/-- The first part of `waitProcessed`: the current chunk's buffer is handed off if it holds rows. -/
def flushCurrent (agg : CudaStringsAggregator) : Except String CudaStringsAggregator :=
  if !(agg.chunks agg.curr_filling_chunk).cuda_buffer_keys.empty then handOff hash order agg agg.curr_filling_chunk
  else pure agg

/-- The end of a worker: it sees the empty buffer, leaves its loop and runs `calcOffsets`. -/
def endChunk (agg : CudaStringsAggregator) (i : Nat) : Except String CudaStringsAggregator :=
  let ch := agg.chunks i
  if !ch.cuda_buffer_keys.empty then throw "CudaStringsAggregator: host buffer is not empty after transfer"
  else pure { agg with
    chunks := upd agg.chunks i { ch with cuda_processing_state := true, cuda_hash_table := calcOffsets ch.cuda_hash_table } }

/-- The empty buffer sent to every chunk, and the workers' ends. -/
def endOfData (agg : CudaStringsAggregator) : Except String CudaStringsAggregator :=
  (List.range agg.chunks_num).foldlM endChunk agg

/-- The merge of chunk `i` into chunk 0: `mergeToOtherTable` and the counts' `cudaMergeBulk`. -/
def mergeChunk (agg : CudaStringsAggregator) (i : Nat) : Except String CudaStringsAggregator := do
  let c0 := agg.chunks 0
  let ci := agg.chunks i
  let n := ci.cuda_hash_table.buckets_num
  let (src, table, dev, group_nums) ←
    mergeToOtherTable hash ci.cuda_hash_table c0.cuda_hash_table agg.dev ci.group_nums (order n) (order n)
  pure { agg with
    chunks := upd (upd agg.chunks i { ci with cuda_hash_table := src, group_nums := group_nums }) 0
      { c0 with
        cuda_hash_table := table
        group_agg_res := kerCudaMergeBulkCount c0.group_agg_res n ci.group_agg_res group_nums (order n) }
    dev := dev }

/-- `waitProcessed`'s loop of merges into chunk 0, for `i = 1, 2, …`. -/
def combineChunks (agg : CudaStringsAggregator) : Except String CudaStringsAggregator :=
  (List.range' 1 (agg.chunks_num - 1)).foldlM (mergeChunk hash order) agg

/-- The host's visit of bucket `j` of chunk 0: the key is the `len - 1` bytes at `offset` in
    the host copy of the string buffer (the terminating zero left off). -/
def readBucket (host_buf : Nat → UInt8) (t : CudaStringsHashTable) (counts : Nat → Nat)
    (agg_result : List (List UInt8 × Nat)) (j : Nat) : Except String (List (List UInt8 × Nat)) :=
  let len := t.lens j
  let offset := t.offsets j
  if len = EMPTY_LEN_VAL then pure agg_result
  else
    let key_str := load host_buf offset (len - 1)
    match agg_result.lookup key_str with
    | none => pure (agg_result ++ [(key_str, counts j)])
    | some _ => throw "CudaStringsAggregator::waitProcessed: seems there are duplicates in GPU table"

/-- The copy of chunk 0's string buffer, lengths, offsets and counts to the host, and the
    loop over its buckets. -/
def readBack (agg : CudaStringsAggregator) : Except String CudaStringsAggregator := do
  let c0 := agg.chunks 0
  let t := c0.cuda_hash_table
  let host_buf := store agg.host_buf 0 (load agg.dev.mem t.str_buf t.str_buf_sz)
  let agg_result ← (List.range t.buckets_num).foldlM (readBucket host_buf t c0.group_agg_res) agg.agg_result
  pure { agg with host_buf := host_buf, agg_result := agg_result }

def waitProcessed (agg : CudaStringsAggregator) : Except String CudaStringsAggregator := do
  let agg ← flushCurrent hash order agg
  let agg ← endOfData agg
  let agg ← combineChunks hash order agg
  readBack agg

/-- `CudaAggregator::execute` from the aggregator `init` creates. The first block's
    `executeOnBlock` starts it; with no block it is never started, and `waitProcessed` stops
    at its `assert(!empty())`. -/
def execute (agg : CudaStringsAggregator) (blocks : List Block) : Except String CudaStringsAggregator :=
  match blocks with
  | [] => throw "assert(!empty())"
  | _ => do
    let agg ← blocks.foldlM (executeOnBlock hash order) (startProcessing agg)
    waitProcessed hash order agg

/-- `getResult`: each key with the count at its place. -/
def getResult (agg : CudaStringsAggregator) : List (List UInt8 × Nat) := agg.agg_result

end Pipeline

/-! ## The queue -/

section Queue

variable {hash : List UInt8 → UInt64} {order : Nat → List Nat}

/-- On an empty buffer a block is added or rejected: the producer does not move on. -/
theorem tryQueueData_of_empty {agg : CudaStringsAggregator} {str_num : Nat} {str_buf vals_str_buf : List UInt8}
    {offsets vals_offsets : List Nat} {r : CudaStringsAggregator × Bool}
    (hempty : (agg.chunks agg.curr_filling_chunk).cuda_buffer_keys.empty = true)
    (h : tryQueueData hash order agg str_num str_buf offsets vals_str_buf vals_offsets = .ok r) : r.2 = true := by
  dsimp only [tryQueueData] at h
  split at h
  · cases h
    rfl
  · cases h

end Queue

/-! ## The end of the run -/

section Wait

variable {hash : List UInt8 → UInt64} {order : Nat → List Nat}

/-- `addData` changes a table's buckets and size, never its offsets. -/
theorem addData_offsets {t t' : CudaStringsHashTable} {dev dev' : Device} {batch : Batch} {r r' : Nat → Nat}
    {o c : List Nat} (h : addData hash t dev batch r o c = .ok (t', dev', r')) : t'.offsets = t.offsets := by
  dsimp only [addData] at h
  split_ifs at h
  cases h
  rfl

theorem mergeToOtherTable_offsets {src table src' table' : CudaStringsHashTable} {dev dev' : Device}
    {r r' : Nat → Nat} {o c : List Nat}
    (h : mergeToOtherTable hash src table dev r o c = .ok (src', table', dev', r')) : table'.offsets = table.offsets := by
  obtain ⟨⟨t, d, rb⟩, hadd, hpure⟩ := bind_eq_ok.mp h
  cases hpure
  exact addData_offsets hadd

/-- A merge into chunk 0 leaves chunk 0's offsets. -/
theorem mergeChunk_offsets {agg agg' : CudaStringsAggregator} {i : Nat} (hi : i ≠ 0)
    (h : mergeChunk hash order agg i = .ok agg') :
    (agg'.chunks 0).cuda_hash_table.offsets = (agg.chunks 0).cuda_hash_table.offsets := by
  obtain ⟨⟨src, table, dev, group_nums⟩, hmerge, hpure⟩ := bind_eq_ok.mp h
  cases hpure
  simp only [upd_same]
  exact mergeToOtherTable_offsets hmerge

/-- The merges never recompute chunk 0's offsets. -/
theorem combineChunks_offsets {agg agg' : CudaStringsAggregator} (h : combineChunks hash order agg = .ok agg') :
    (agg'.chunks 0).cuda_hash_table.offsets = (agg.chunks 0).cuda_hash_table.offsets := by
  refine foldlM_inv (fun a => (a.chunks 0).cuda_hash_table.offsets = (agg.chunks 0).cuda_hash_table.offsets)
    ?_ rfl h
  intro a i a' hi ha hstep
  have hi0 : i ≠ 0 := by
    rw [List.mem_range'_1] at hi
    omega
  rw [mergeChunk_offsets hi0 hstep, ha]

theorem endChunk_of_ne {agg agg' : CudaStringsAggregator} {i j : Nat} (hij : j ≠ i)
    (h : endChunk agg i = .ok agg') : agg'.chunks j = agg.chunks j := by
  dsimp only [endChunk] at h
  split at h
  · cases h
  · cases h
    exact upd_ne _ _ hij

theorem endChunk_self {agg agg' : CudaStringsAggregator} {i : Nat} (h : endChunk agg i = .ok agg') :
    (agg'.chunks i).cuda_hash_table = calcOffsets (agg.chunks i).cuda_hash_table := by
  dsimp only [endChunk] at h
  split at h
  · cases h
  · cases h
    simp

/-- After the end of data, chunk 0's table carries the offsets its worker computed last. -/
theorem endOfData_chunk0 {agg agg' : CudaStringsAggregator} (hn : 0 < agg.chunks_num)
    (h : endOfData agg = .ok agg') :
    (agg'.chunks 0).cuda_hash_table = calcOffsets (agg.chunks 0).cuda_hash_table := by
  obtain ⟨n, hn'⟩ : ∃ n, agg.chunks_num = n + 1 := ⟨agg.chunks_num - 1, by omega⟩
  unfold endOfData at h
  rw [hn', List.range_succ_eq_map, List.foldlM_cons] at h
  -- the end of chunk 0 comes first; the other chunks' ends leave it
  obtain ⟨a, h0, hrest⟩ := bind_eq_ok.mp h
  refine foldlM_inv (fun b => (b.chunks 0).cuda_hash_table = calcOffsets (agg.chunks 0).cuda_hash_table)
    ?_ (endChunk_self h0) hrest
  intro b i b' hi hb hstep
  obtain ⟨k, -, rfl⟩ := List.mem_map.mp hi
  rw [endChunk_of_ne (Nat.succ_ne_zero k).symm hstep, hb]

theorem readBack_chunks {agg agg' : CudaStringsAggregator} (h : readBack agg = .ok agg') :
    agg'.chunks = agg.chunks := by
  obtain ⟨res, -, hpure⟩ := bind_eq_ok.mp h
  cases hpure
  rfl

/-- `kerCalcOffsets` of a bucket holding `nullptr`: `-str_buf` modulo `2^32`. -/
theorem calcOffsets_of_null {t : CudaStringsHashTable} {j : Nat} (hj : j < t.buckets_num)
    (hnull : t.pointers j = 0) : (calcOffsets t).offsets j = (2 ^ 32 - t.str_buf % 2 ^ 32) % 2 ^ 32 := by
  simp only [calcOffsets, if_pos hj, hnull]
  omega

/-- Every bucket of chunk 0 that held no string when its worker computed the offsets is read
    back at the offset of `nullptr`, whatever string a merge put there later. -/
theorem waitProcessed_offset_of_null {agg agg₁ agg' : CudaStringsAggregator} {j : Nat}
    (hflush : flushCurrent hash order agg = .ok agg₁) (h : waitProcessed hash order agg = .ok agg')
    (hn : 0 < agg₁.chunks_num) (hj : j < (agg₁.chunks 0).cuda_hash_table.buckets_num)
    (hnull : (agg₁.chunks 0).cuda_hash_table.pointers j = 0) :
    (agg'.chunks 0).cuda_hash_table.offsets j = (2 ^ 32 - (agg₁.chunks 0).cuda_hash_table.str_buf % 2 ^ 32) % 2 ^ 32 := by
  unfold waitProcessed at h
  rw [hflush, ok_bind] at h
  obtain ⟨agg₂, h2, h'⟩ := bind_eq_ok.mp h
  obtain ⟨agg₃, h3, h4⟩ := bind_eq_ok.mp h'
  rw [readBack_chunks h4, combineChunks_offsets h3, endOfData_chunk0 hn h2]
  exact calcOffsets_of_null hj hnull

end Wait

/-- Chunk `i`'s table in the run below: two buckets and a 64-byte string buffer at
    `2^32 + 1024 i`, so chunk 0's buffer sits at a multiple of `2^32`. -/
def twoBucketTable (i : Nat) : CudaStringsHashTable where
  buckets_num := 2
  str_buf_max_sz := 64
  str_buf := 2 ^ 32 + 1024 * i
  str_buf_sz := 0
  hashes := fun _ => 0
  lens := fun _ => 0
  offsets := fun _ => 0
  pointers := fun _ => 0
  buckets_num_pos := by decide
  str_buf_pos := Nat.lt_of_lt_of_le (by decide) (Nat.le_add_right _ _)
  str_buf_max_sz_lt := by decide

/-- Two chunks, four bytes of keys per buffer: the block with key `"aa"` fills chunk 0's buffer,
    so the block with key `"b"` goes to chunk 1. After the merge, `"b"`'s bucket of chunk 0 is
    read at offset 0, where `"aa"` is, and `"b"` comes back as `"a"`; the CPU counts one
    `"b"` and no `"a"`. -/
theorem count_reads_merged_key_at_stale_offset :
    (create 2 twoBucketTable 2 4 (fun i => 2 ^ 33 + 1024 * i) (fun i => 2 ^ 34 + 1024 * i)
        ⟨fun _ => 0, false⟩ (fun _ => 0) >>= fun agg =>
      execute murmurHash List.range agg [⟨[[97, 97]], [[120]], rfl⟩, ⟨[[98]], [[120]], rfl⟩]).map getResult =
      .ok [([97, 97], 1), ([97], 1)] ∧
    cpuCount [⟨[[97, 97]], [[120]], rfl⟩, ⟨[[98]], [[120]], rfl⟩] [98] = 1 ∧
    cpuCount [⟨[[97, 97]], [[120]], rfl⟩, ⟨[[98]], [[120]], rfl⟩] [97] = 0 :=
  ⟨by decide +kernel, by decide, by decide⟩

end ClickHouseGpu.Cuda.StringsAggregator
