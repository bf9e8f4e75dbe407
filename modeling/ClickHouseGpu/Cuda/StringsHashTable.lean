import ClickHouseGpu.Lib.ByteBuffer
import ClickHouseGpu.Lib.Probe

/-
  ClickHouseGpu.Cuda.StringsHashTable — the device hash table of strings behind GPU
  `GROUP BY` (dbms/src/Common/HashTable/Cuda/CudaStringsHashTable.cu).

  A table has `buckets_num` buckets, each a hash, a length and a pointer to its string, and a
  string buffer `str_buf` of which the first `str_buf_sz` bytes are used. Device memory is
  byte-addressed; a pointer is an address and `0` is `nullptr`. `addData` inserts a batch of
  strings (the `lens[i]` bytes at `buf + offsets[i]`; `lens[i] = 0` skips string `i`):
  - `kerAddData`: one thread per string probes linearly from its hash, claiming an empty
    bucket by three `atomicCAS`es (hash, length, pointer) and comparing the strings word by
    word (`cudaReadStringUnaligned64`). A thread whose pointer `atomicCAS` succeeded points
    the bucket at its input string and notes its padded length in `new_strings_lens`.
  - `cub::DeviceScan::ExclusiveSum` of the padded lengths gives each new string its place.
  - `kerCopyAddedStrings`: the thread whose input the bucket points at copies the string to
    the table's buffer and points the bucket there.
  - the host throws if a thread found the table full (the device global `table_is_full`,
    never reset) or the buffer overflowed, and grows `str_buf_sz` otherwise.
  `mergeToOtherTable` adds this table's strings to another through `calcOffsets`.

  Threads run in a sequential order given as a list of thread ids: each runs to its end
  before the next starts. Only threads below the string count do anything, so the grid's
  spare threads are left out. The hash, `cudaMurmurHash64` with seed 0, is a parameter.
  Sizes (`SizeType`, 32 bits) are natural numbers: the sums never reach `2^32` for tables
  whose buffer fits in device memory. Only `calcOffsets` narrows a pointer difference to 32
  bits, as the source does.
-/

namespace ClickHouseGpu.Cuda.StringsHashTable

open ByteBuffer LinearProbe

/-- `DBMS_CUDA_EMPTY_HASH_VAL`. -/
def EMPTY_HASH_VAL : UInt64 := 0

/-- `DBMS_CUDA_EMPTY_LEN_VAL`. -/
def EMPTY_LEN_VAL : Nat := 0

/-- `atomicCAS(&f[i], compare, val)`: the old value, and `f` with `val` in cell `i` when that
    held `compare`. -/
def atomicCAS {α : Type} [DecidableEq α] (f : Nat → α) (i : Nat) (compare val : α) : α × (Nat → α) :=
  (f i, if f i = compare then upd f i val else f)

theorem atomicCAS_of_eq {α : Type} [DecidableEq α] {f : Nat → α} {i : Nat} {compare : α} (val : α)
    (h : f i = compare) : atomicCAS f i compare val = (compare, upd f i val) := by
  simp [atomicCAS, h]

/-! ## Reading strings word by word -/

/-- `cudaReadStringUnaligned64`: its `k`-th call on the `len` bytes at `p` answers the next
    eight bytes, or the ones left before the end, as a little-endian word: it reads the
    aligned words holding them, shifts them together and masks what lies past the end. -/
def readStringUnaligned64 (mem : Nat → UInt8) (p len k : Nat) : Nat :=
  leValue (load mem (p + 8 * k) (min 8 (len - 8 * k)))

/-- How often the loops `while (data != end)` over `len` bytes read a word. -/
def wordsNum (len : Nat) : Nat := (len + 7) / 8

/-- The comparison loop of `kerAddData`: `hit` survives only when every word of the strings
    at `data` and `data_next` agrees. -/
def compareStrings (mem : Nat → UInt8) (data data_next len : Nat) : Bool :=
  (List.range (wordsNum len)).all fun k =>
    readStringUnaligned64 mem data len k == readStringUnaligned64 mem data_next len k

/-- The copy loop of `kerCopyAddedStrings` after `k` words: each word read from `data` is
    stored at `data_res`, eight bytes at a time. -/
def copyWords (data data_res len : Nat) : Nat → (Nat → UInt8) → (Nat → UInt8)
  | 0, mem => mem
  | k + 1, mem =>
    let mem := copyWords data data_res len k mem
    store mem (data_res + 8 * k) (leBytes 8 (readStringUnaligned64 mem data len k))

/-- `(((len-1)/8)+1)*8`: the bytes a new string takes in the table's buffer. -/
def paddedLen (len : Nat) : Nat := ((len - 1) / 8 + 1) * 8

/-- The comparison loop decides equality of the two strings. -/
theorem compareStrings_iff (mem : Nat → UInt8) (data data_next len : Nat) :
    compareStrings mem data data_next len = true ↔ load mem data len = load mem data_next len := by
  simp only [compareStrings, List.all_eq_true, List.mem_range, beq_iff_eq, readStringUnaligned64, wordsNum]
  rw [load_eq_load_iff]
  constructor
  · -- byte `i` lies in word `i / 8`, where both words have the same bytes
    intro h i hi
    have hw := leValue_injective (by simp) (h (i / 8) (by omega))
    have e := load_eq_load_iff.mp hw (i % 8) (by omega)
    rwa [Nat.add_assoc, Nat.add_assoc, Nat.div_add_mod i 8] at e
  · intro h k hk
    congr 1
    apply load_eq_load_iff.mpr
    intro j hj
    rw [Nat.add_assoc, Nat.add_assoc]
    exact h (8 * k + j) (by omega)

/-- The first `w` bytes the copy loop writes: the string's, then zeros. -/
def paddedBytes (mem : Nat → UInt8) (data len w : Nat) : List UInt8 :=
  (List.range w).map fun j => if j < len then mem (data + j) else 0

@[simp] theorem length_paddedBytes (mem : Nat → UInt8) (data len w : Nat) :
    (paddedBytes mem data len w).length = w := by
  simp [paddedBytes]

/-- A word written back is the next eight bytes of the padded string. -/
theorem leBytes_readStringUnaligned64 (mem : Nat → UInt8) (data len k : Nat) :
    leBytes 8 (readStringUnaligned64 mem data len k) =
      (List.range 8).map fun j => if 8 * k + j < len then mem (data + (8 * k + j)) else 0 := by
  rw [readStringUnaligned64, leBytes_leValue _ (by simp)]
  apply List.ext_getElem (by simp)
  intro j h1 h2
  simp only [List.length_map, List.length_range] at h2
  simp only [List.getElem_append, length_load, getElem_load, List.getElem_replicate, List.getElem_map,
    List.getElem_range]
  -- byte `j` of the word is a byte of the string exactly when `8 * k + j < len`
  by_cases hj : 8 * k + j < len
  · rw [dif_pos (by omega), if_pos hj, Nat.add_assoc]
  · rw [dif_neg (by omega), if_neg hj]

theorem paddedBytes_add (mem : Nat → UInt8) (data len w : Nat) :
    paddedBytes mem data len (w + 8) =
      paddedBytes mem data len w ++ (List.range 8).map fun j => if w + j < len then mem (data + (w + j)) else 0 := by
  simp [paddedBytes, List.range_add]

/-- After `k` words the copy loop has written the first `8 * k` bytes of the padded string,
    when the string and the destination do not overlap. -/
theorem copyWords_eq (mem : Nat → UInt8) {data data_res len : Nat}
    (hdis : data + len ≤ data_res ∨ data_res + 8 * wordsNum len ≤ data) :
    ∀ k, k ≤ wordsNum len → copyWords data data_res len k mem = store mem data_res (paddedBytes mem data len (8 * k)) := by
  intro k
  induction k with
  | zero => intro _; simp [copyWords, paddedBytes, store_nil]
  | succ k ih =>
    intro hk
    have hk8 : 8 * k < len := by simp only [wordsNum] at hk; omega
    have hread : readStringUnaligned64 (copyWords data data_res len k mem) data len k =
        readStringUnaligned64 mem data len k := by
      rw [ih (by omega), readStringUnaligned64, readStringUnaligned64,
        load_store_of_disjoint _ (by simp only [length_paddedBytes]; omega)]
    rw [copyWords, hread, leBytes_readStringUnaligned64, ih (by omega),
      show data_res + 8 * k = data_res + (paddedBytes mem data len (8 * k)).length by simp,
      store_append, show 8 * (k + 1) = 8 * k + 8 by omega, paddedBytes_add]

/-- The whole copy: the string reads back from the destination. -/
theorem load_copyWords (mem : Nat → UInt8) {data data_res len : Nat}
    (hdis : data + len ≤ data_res ∨ data_res + 8 * wordsNum len ≤ data) :
    load (copyWords data data_res len (wordsNum len) mem) data_res len = load mem data len := by
  rw [copyWords_eq mem hdis _ le_rfl, load_store_prefix _ (by simp [wordsNum]; omega)]
  apply List.ext_getElem (by simp [wordsNum]; omega)
  intro j h1 h2
  simp only [length_load] at h2
  simp [paddedBytes, h2]

/-- The copy writes nothing outside `[data_res, data_res + 8 * wordsNum len)`. -/
theorem copyWords_of_disjoint (mem : Nat → UInt8) {data data_res len a : Nat}
    (hdis : data + len ≤ data_res ∨ data_res + 8 * wordsNum len ≤ data)
    (ha : a < data_res ∨ data_res + 8 * wordsNum len ≤ a) :
    copyWords data data_res len (wordsNum len) mem a = mem a := by
  rw [copyWords_eq mem hdis _ le_rfl]
  exact store_of_disjoint _ (by simpa using ha)

theorem eight_mul_wordsNum {len : Nat} (h : 0 < len) : 8 * wordsNum len = paddedLen len := by
  simp only [wordsNum, paddedLen]
  omega

theorem le_paddedLen (len : Nat) : len ≤ paddedLen len := by
  simp only [paddedLen]
  omega

theorem eight_dvd_paddedLen (len : Nat) : 8 ∣ paddedLen len := Nat.dvd_mul_left 8 _

/-! ## Tables, batches and the device -/

/-- A `CudaStringsHashTable` between calls. Arrays are functions on bucket numbers; only
    those below `buckets_num` exist. -/
structure CudaStringsHashTable where
  buckets_num : Nat
  str_buf_max_sz : Nat
  /-- The address `cudaMalloc` gave the string buffer. -/
  str_buf : Nat
  str_buf_sz : Nat
  hashes : Nat → UInt64
  lens : Nat → Nat
  offsets : Nat → Nat
  pointers : Nat → Nat
  /-- `h % buckets_num` is defined. -/
  buckets_num_pos : 0 < buckets_num
  /-- The buffer is an allocation, so not at `nullptr`. -/
  str_buf_pos : 0 < str_buf
  /-- `str_buf_max_sz` is a `SizeType`. -/
  str_buf_max_sz_lt : str_buf_max_sz < 2 ^ 32

/-- The arguments of `addData`: `str_num` strings, string `i` the `lens i` bytes at
    `buf + offsets i`. -/
structure Batch where
  str_num : Nat
  buf : Nat
  offsets : Nat → Nat
  lens : Nat → Nat

/-- Device memory and the device global `table_is_full`, shared by every table. -/
structure Device where
  mem : Nat → UInt8
  table_is_full : Bool

/-! ## kerAddData -/

/-- What `kerAddData` writes: the table's bucket arrays, `res_buckets`, `new_strings_lens`
    (`buf1`) and the device flag. -/
structure AddState where
  hashes : Nat → UInt64
  table_lens : Nat → Nat
  ptrs : Nat → Nat
  res_buckets : Nat → Nat
  new_strings_lens : Nat → Nat
  table_is_full : Bool

/-- The hash of a string, moved off `DBMS_CUDA_EMPTY_HASH_VAL`. -/
def adjustHash (h : UInt64) : UInt64 := if h = EMPTY_HASH_VAL then h + 1 else h

theorem adjustHash_ne (h : UInt64) : adjustHash h ≠ EMPTY_HASH_VAL := by
  unfold adjustHash
  split
  · rename_i e
    rw [e]
    decide
  · assumption

/-- The hash step of the probe loop at `bucket_i`: the hashes, and `hit`. -/
def hashStep (hashes : Nat → UInt64) (h : UInt64) (bucket_i : Nat) : (Nat → UInt64) × Bool :=
  if hashes bucket_i = EMPTY_HASH_VAL then
    let r := atomicCAS hashes bucket_i EMPTY_HASH_VAL h
    (r.2, r.1 == EMPTY_HASH_VAL || r.1 == h)
  else (hashes, hashes bucket_i == h)

/-- The length step, after a hash hit: the lengths, and whether `hit` survives. -/
def lenStep (table_lens : Nat → Nat) (len bucket_i : Nat) : (Nat → Nat) × Bool :=
  if table_lens bucket_i = EMPTY_LEN_VAL then
    let r := atomicCAS table_lens bucket_i EMPTY_LEN_VAL len
    (r.2, (if r.1 = EMPTY_LEN_VAL then len else r.1) == len)
  else (table_lens, table_lens bucket_i == len)

/-- The pointer step and the comparison, after a length hit: the pointers, whether `hit`
    survives, and `our_string`. -/
def ptrStep (mem : Nat → UInt8) (ptrs : Nat → Nat) (len data bucket_i : Nat) (our_string : Bool) :
    (Nat → Nat) × Bool × Bool :=
  if ptrs bucket_i = 0 then
    let r := atomicCAS ptrs bucket_i 0 data
    if r.1 = 0 then (r.2, compareStrings mem data data len, true)
    else (r.2, compareStrings mem data r.1 len, our_string)
  else (ptrs, compareStrings mem data (ptrs bucket_i) len, our_string)

/-- One round of the probe loop at `bucket_i`: the state, `hit` and `our_string`. -/
def probeBucket (mem : Nat → UInt8) (h : UInt64) (len data : Nat) (s : AddState) (bucket_i : Nat)
    (our_string : Bool) : AddState × Bool × Bool :=
  let hs := hashStep s.hashes h bucket_i
  let s := { s with hashes := hs.1 }
  if hs.2 then
    let ls := lenStep s.table_lens len bucket_i
    let s := { s with table_lens := ls.1 }
    if ls.2 then
      let ps := ptrStep mem s.ptrs len data bucket_i our_string
      ({ s with ptrs := ps.1 }, ps.2.1, ps.2.2)
    else (s, false, our_string)
  else (s, false, our_string)

/-- The probe loop: the bucket found and `our_string`, or `none` when the search came back to
    `h % buckets_num`. The wrap check ends it within `buckets_num` rounds, the fuel given. -/
def probeLoop (mem : Nat → UInt8) (buckets_num : Nat) (h : UInt64) (len data : Nat) :
    Nat → AddState → Nat → Bool → AddState × Option (Nat × Bool)
  | 0, s, _, _ => (s, none)
  | fuel + 1, s, bucket_i, our_string =>
    let r := probeBucket mem h len data s bucket_i our_string
    if r.2.1 then (r.1, some (bucket_i, r.2.2))
    else
      let next := (bucket_i + 1) % buckets_num
      if next = h.toNat % buckets_num then (r.1, none)
      else probeLoop mem buckets_num h len data fuel r.1 next r.2.2

/-- Thread `i` of `kerAddData`. -/
def kerAddDataThread (hash : List UInt8 → UInt64) (mem : Nat → UInt8) (buckets_num : Nat) (batch : Batch)
    (s : AddState) (i : Nat) : AddState :=
  if i < batch.str_num then
    let len := batch.lens i
    if len = EMPTY_LEN_VAL then s
    else
      let data := batch.buf + batch.offsets i
      let h := adjustHash (hash (load mem data len))
      match probeLoop mem buckets_num h len data buckets_num s (h.toNat % buckets_num) false with
      | (s, none) => { s with table_is_full := true }
      | (s, some (bucket_i, our_string)) =>
        { s with
          res_buckets := upd s.res_buckets i bucket_i
          new_strings_lens :=
            if our_string then upd s.new_strings_lens bucket_i (paddedLen len) else s.new_strings_lens }
  else s

/-- `kerAddData` with its threads run one after another in `order`. -/
def kerAddData (hash : List UInt8 → UInt64) (mem : Nat → UInt8) (buckets_num : Nat) (batch : Batch)
    (order : List Nat) (s : AddState) : AddState :=
  order.foldl (kerAddDataThread hash mem buckets_num batch) s

/-! ## kerCopyAddedStrings -/

/-- What `kerCopyAddedStrings` writes: the table's pointers and device memory. -/
structure CopyState where
  ptrs : Nat → Nat
  mem : Nat → UInt8

/-- Thread `i` of `kerCopyAddedStrings`: the thread whose string the bucket points at copies it
    to `old_str_buf_sz + new_strings_offsets[bucket]` and points the bucket there. -/
def kerCopyAddedStringsThread (batch : Batch) (buckets : Nat → Nat) (old_str_buf_sz : Nat)
    (new_strings_offsets : Nat → Nat) (hash_table_str_buf : Nat) (c : CopyState) (i : Nat) : CopyState :=
  if i < batch.str_num then
    let len := batch.lens i
    if len = EMPTY_LEN_VAL then c
    else
      let bucket_i := buckets i
      let my_ptr := batch.buf + batch.offsets i
      if c.ptrs bucket_i = my_ptr then
        let hash_table_offset := old_str_buf_sz + new_strings_offsets bucket_i
        { mem := copyWords my_ptr (hash_table_str_buf + hash_table_offset) len (wordsNum len) c.mem
          ptrs := upd c.ptrs bucket_i (hash_table_str_buf + hash_table_offset) }
      else c
  else c

def kerCopyAddedStrings (batch : Batch) (buckets : Nat → Nat) (old_str_buf_sz : Nat)
    (new_strings_offsets : Nat → Nat) (hash_table_str_buf : Nat) (order : List Nat) (c : CopyState) : CopyState :=
  order.foldl (kerCopyAddedStringsThread batch buckets old_str_buf_sz new_strings_offsets hash_table_str_buf) c

/-! ## The host calls -/

section Calls

variable (hash : List UInt8 → UInt64)

/-- `kerErase`, and `str_buf_sz = 0`. -/
def erase (t : CudaStringsHashTable) : CudaStringsHashTable :=
  { t with
    hashes := fun i => if i < t.buckets_num then EMPTY_HASH_VAL else t.hashes i
    lens := fun i => if i < t.buckets_num then EMPTY_LEN_VAL else t.lens i
    pointers := fun i => if i < t.buckets_num then 0 else t.pointers i
    str_buf_sz := 0 }

/-- `addData(str_num, buf, offsets, lens, res_buckets)`, the threads of `kerAddData` run in
    `order` and those of `kerCopyAddedStrings` in `copy_order`: the table, the device and
    `res_buckets` after it, or the error it throws. -/
def addData (t : CudaStringsHashTable) (dev : Device) (batch : Batch) (res_buckets : Nat → Nat)
    (order copy_order : List Nat) : Except String (CudaStringsHashTable × Device × (Nat → Nat)) :=
  -- `kerFillZero` of `buf1`, then `kerAddData`
  let s := kerAddData hash dev.mem t.buckets_num batch order
    ⟨t.hashes, t.lens, t.pointers, res_buckets, fun _ => 0, dev.table_is_full⟩
  -- `buf2`: the exclusive scan of `buf1`
  let new_strings_offsets := exclusiveSum s.new_strings_lens
  let c := kerCopyAddedStrings batch s.res_buckets t.str_buf_sz new_strings_offsets t.str_buf copy_order
    ⟨s.ptrs, dev.mem⟩
  -- `kerCalcTotalAddedLen`
  let total_added_len := new_strings_offsets (t.buckets_num - 1) + s.new_strings_lens (t.buckets_num - 1)
  if s.table_is_full then throw "CudaStringsHashTable::addData: table is full"
  else if t.str_buf_sz + total_added_len > t.str_buf_max_sz then
    throw "CudaStringsHashTable::addData: table string buffer is full"
  else
    pure ({ t with hashes := s.hashes, lens := s.table_lens, pointers := c.ptrs,
                   str_buf_sz := t.str_buf_sz + total_added_len },
          ⟨c.mem, s.table_is_full⟩, s.res_buckets)

/-- What `addData` leaves in the table and on the device, whether it throws or not: every kernel
    has run when the host reads the flag and the total, and a throw leaves `str_buf_sz` as it
    was. -/
def addDataEffects (t : CudaStringsHashTable) (dev : Device) (batch : Batch) (res_buckets : Nat → Nat)
    (order copy_order : List Nat) : CudaStringsHashTable × Device :=
  let s := kerAddData hash dev.mem t.buckets_num batch order
    ⟨t.hashes, t.lens, t.pointers, res_buckets, fun _ => 0, dev.table_is_full⟩
  let new_strings_offsets := exclusiveSum s.new_strings_lens
  let c := kerCopyAddedStrings batch s.res_buckets t.str_buf_sz new_strings_offsets t.str_buf copy_order
    ⟨s.ptrs, dev.mem⟩
  ({ t with hashes := s.hashes, lens := s.table_lens, pointers := c.ptrs }, ⟨c.mem, s.table_is_full⟩)

/-- `kerCalcOffsets`: `(SizeType)(ptrs[i] - str_buf)`, the pointer difference narrowed to
    32 bits; for an empty bucket (`nullptr`) that is `-str_buf` modulo `2^32`. -/
def calcOffsets (t : CudaStringsHashTable) : CudaStringsHashTable :=
  { t with offsets := fun i =>
      if i < t.buckets_num then (((t.pointers i : Int) - t.str_buf) % 2 ^ 32).toNat else t.offsets i }

/-- `kerFillEmptyResBucket`: `~0` for each of the first `elements_num` entries. -/
def fillEmptyResBucket (elements_num : Nat) (res_buckets : Nat → Nat) : Nat → Nat :=
  fun i => if i < elements_num then 2 ^ 32 - 1 else res_buckets i

/-- The batch `mergeToOtherTable` hands to the other table: every bucket of this one, with the
    offsets `calcOffsets` computed. -/
def mergeBatch (t : CudaStringsHashTable) : Batch := ⟨t.buckets_num, t.str_buf, t.offsets, t.lens⟩

/-- `src.mergeToOtherTable(table, res_buckets)`: `src` after `calcOffsets`, the other table,
    the device and `res_buckets`. -/
def mergeToOtherTable (src table : CudaStringsHashTable) (dev : Device) (res_buckets : Nat → Nat)
    (order copy_order : List Nat) :
    Except String (CudaStringsHashTable × CudaStringsHashTable × Device × (Nat → Nat)) := do
  let src := calcOffsets src
  let r ← addData hash table dev (mergeBatch src) (fillEmptyResBucket src.buckets_num res_buckets)
    order copy_order
  pure (src, r)

end Calls

end ClickHouseGpu.Cuda.StringsHashTable
