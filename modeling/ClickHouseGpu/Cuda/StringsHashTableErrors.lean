import ClickHouseGpu.Cuda.StringsHashTable

/-
  ClickHouseGpu.Cuda.StringsHashTableErrors — the two exceptions of
  `CudaStringsHashTable::addData` and what the kernels have done when they are thrown
  (see `ClickHouseGpu.Cuda.StringsHashTable`).

  Both are thrown by the host after the stream is synchronized, so after `kerAddData` and
  `kerCopyAddedStrings` have run (`addDataEffects`).
  - "table is full" reads the device global `table_is_full`, which `kerAddData` only ever sets:
    once a call has found a table full, every later call on any table throws
    (`addData_of_table_is_full`, `table_is_full_outlives_its_call`).
  - "table string buffer is full" is decided after the new strings were copied
    (`string_buffer_overflow_writes_past_end`): the bytes past `str_buf_max_sz` are written and the
    buckets point at them when it is thrown.
-/

namespace ClickHouseGpu.Cuda.StringsHashTable

open ByteBuffer LinearProbe

/-! ## The device flag only goes up -/

theorem probeBucket_table_is_full (mem : Nat → UInt8) (h : UInt64) (len data : Nat) (s : AddState) (bucket_i : Nat)
    (our_string : Bool) : (probeBucket mem h len data s bucket_i our_string).1.table_is_full = s.table_is_full := by
  simp only [probeBucket]
  split
  · split <;> rfl
  · rfl

theorem probeLoop_table_is_full (mem : Nat → UInt8) (buckets_num : Nat) (h : UInt64) (len data : Nat) :
    ∀ (fuel : Nat) (s : AddState) (bucket_i : Nat) (our_string : Bool),
      (probeLoop mem buckets_num h len data fuel s bucket_i our_string).1.table_is_full = s.table_is_full
  | 0, _, _, _ => rfl
  | fuel + 1, s, bucket_i, our_string => by
    simp only [probeLoop]
    split
    · exact probeBucket_table_is_full ..
    · split
      · exact probeBucket_table_is_full ..
      · rw [probeLoop_table_is_full mem buckets_num h len data fuel, probeBucket_table_is_full]

theorem kerAddDataThread_table_is_full (hash : List UInt8 → UInt64) (mem : Nat → UInt8) (buckets_num : Nat)
    (batch : Batch) {s : AddState} (hs : s.table_is_full = true) (i : Nat) :
    (kerAddDataThread hash mem buckets_num batch s i).table_is_full = true := by
  simp only [kerAddDataThread]
  split
  · split
    · exact hs
    · split
      · rfl
      · rename_i s' b o heq
        have h := congrArg (fun r => r.1.table_is_full) heq
        simp only [probeLoop_table_is_full] at h
        show s'.table_is_full = true
        rw [← h]
        exact hs
  · exact hs

theorem kerAddData_table_is_full (hash : List UInt8 → UInt64) (mem : Nat → UInt8) (buckets_num : Nat)
    (batch : Batch) : ∀ (order : List Nat) {s : AddState}, s.table_is_full = true →
      (kerAddData hash mem buckets_num batch order s).table_is_full = true
  | [], _, hs => hs
  | i :: order, _, hs =>
    kerAddData_table_is_full hash mem buckets_num batch order (kerAddDataThread_table_is_full hash mem buckets_num batch hs i)

/-- Once the device flag is set, `addData` on any table throws "table is full", whatever its
    strings, and the flag stays set. -/
theorem addData_of_table_is_full (hash : List UInt8 → UInt64) (t : CudaStringsHashTable) {dev : Device}
    (hdev : dev.table_is_full = true) (batch : Batch) (res_buckets : Nat → Nat) (order copy_order : List Nat) :
    addData hash t dev batch res_buckets order copy_order = .error "CudaStringsHashTable::addData: table is full" ∧
      (addDataEffects hash t dev batch res_buckets order copy_order).2.table_is_full = true := by
  have hfull := kerAddData_table_is_full hash dev.mem t.buckets_num batch order
    (s := ⟨t.hashes, t.lens, t.pointers, res_buckets, fun _ => 0, dev.table_is_full⟩) hdev
  refine ⟨?_, hfull⟩
  simp only [addData, hfull, if_true]
  rfl

/-! ## A full table makes every later call throw -/

/-- A table of `buckets_num` empty buckets, as `erase` leaves it, with an empty buffer of
    `str_buf_max_sz` bytes at `str_buf`. -/
def emptyTable (buckets_num str_buf str_buf_max_sz : Nat) (h₁ : 0 < buckets_num) (h₂ : 0 < str_buf)
    (h₃ : str_buf_max_sz < 2 ^ 32) : CudaStringsHashTable :=
  ⟨buckets_num, str_buf_max_sz, str_buf, 0, fun _ => EMPTY_HASH_VAL, fun _ => EMPTY_LEN_VAL, fun _ => 0, fun _ => 0,
    h₁, h₂, h₃⟩

/-- Two strings, of one byte at `0` and of two bytes at `8`. -/
def twoStrings : Batch := ⟨2, 0, fun i => 8 * i, fun i => i + 1⟩

/-- One string of one byte at `0`. -/
def oneString : Batch := ⟨1, 0, fun _ => 0, fun _ => 1⟩

/-- Whatever the hash: two strings of different lengths for a table of one bucket make the first
    call throw "table is full"; on another table of one empty bucket, the one string of the next
    call finds that bucket, and that call throws "table is full" too. -/
theorem table_is_full_outlives_its_call (hash : List UInt8 → UInt64) :
    let dev₀ : Device := ⟨fun _ => 7, false⟩
    let tA := emptyTable 1 4096 64 (by decide) (by decide) (by decide)
    let tB := emptyTable 1 8192 64 (by decide) (by decide) (by decide)
    let dev₁ := (addDataEffects hash tA dev₀ twoStrings (fun _ => 0) [0, 1] [0, 1]).2
    addData hash tA dev₀ twoStrings (fun _ => 0) [0, 1] [0, 1] = .error "CudaStringsHashTable::addData: table is full" ∧
    (kerAddDataThread hash dev₁.mem tB.buckets_num oneString
        ⟨tB.hashes, tB.lens, tB.pointers, fun _ => 0, fun _ => 0, false⟩ 0).table_is_full = false ∧
    addData hash tB dev₁ oneString (fun _ => 0) [0] [0] = .error "CudaStringsHashTable::addData: table is full" := by
  intro dev₀ tA tB dev₁
  -- the second string meets the first in the only bucket, under another hash or another length
  have hfull : (kerAddData hash dev₀.mem tA.buckets_num twoStrings [0, 1]
      ⟨tA.hashes, tA.lens, tA.pointers, fun _ => 0, fun _ => 0, dev₀.table_is_full⟩).table_is_full = true := by
    simp [dev₀, tA, emptyTable, kerAddData, kerAddDataThread, twoStrings, probeLoop, probeBucket, hashStep, lenStep,
      ptrStep, atomicCAS, EMPTY_HASH_VAL, EMPTY_LEN_VAL, Nat.mod_one, compareStrings_iff, upd_same]
  -- an empty bucket takes any string
  have hfound : ∀ mem : Nat → UInt8, (kerAddDataThread hash mem tB.buckets_num oneString
      ⟨tB.hashes, tB.lens, tB.pointers, fun _ => 0, fun _ => 0, false⟩ 0).table_is_full = false := by
    intro mem
    simp [tB, emptyTable, kerAddDataThread, oneString, probeLoop, probeBucket, hashStep, lenStep, ptrStep, atomicCAS,
      EMPTY_HASH_VAL, EMPTY_LEN_VAL, Nat.mod_one, compareStrings_iff]
  have hdev₁ : dev₁.table_is_full = true := hfull
  refine ⟨?_, hfound dev₁.mem, (addData_of_table_is_full hash tB hdev₁ oneString _ [0] [0]).1⟩
  simp only [addData, hfull, if_true]
  rfl

/-! ## The buffer check comes after the copy -/

/-- One string of nine bytes at `100`. -/
def nineBytes : Batch := ⟨1, 100, fun _ => 0, fun _ => 9⟩

/-- A table of one empty bucket whose buffer has room for eight bytes at `4096`. -/
def smallBuffer : CudaStringsHashTable := emptyTable 1 4096 8 (by decide) (by decide) (by decide)

/-- Device memory holding `7` below `4096` and `0` from there on. -/
def below4096 : Device := ⟨fun a => if a < 4096 then 7 else 0, false⟩

/-- The nine bytes claim the only bucket and take sixteen bytes of the buffer. -/
theorem kerAddData_nineBytes (hash : List UInt8 → UInt64) :
    kerAddData hash below4096.mem smallBuffer.buckets_num nineBytes [0]
        ⟨smallBuffer.hashes, smallBuffer.lens, smallBuffer.pointers, fun _ => 0, fun _ => 0, below4096.table_is_full⟩ =
      ⟨upd (fun _ => 0) 0 (adjustHash (hash (load below4096.mem 100 9))), upd (fun _ => 0) 0 9, upd (fun _ => 0) 0 100,
        upd (fun _ => 0) 0 0, upd (fun _ => 0) 0 16, false⟩ := by
  simp [below4096, smallBuffer, emptyTable, kerAddData, kerAddDataThread, nineBytes, probeLoop, probeBucket, hashStep,
    lenStep, ptrStep, atomicCAS, EMPTY_HASH_VAL, EMPTY_LEN_VAL, Nat.mod_one, compareStrings_iff, paddedLen]

/-- Whatever the hash: a string of nine bytes for a buffer of eight throws "table string buffer
    is full", after the copy has written the byte at `str_buf + str_buf_max_sz`, past the buffer,
    and pointed the bucket into the buffer. -/
theorem string_buffer_overflow_writes_past_end (hash : List UInt8 → UInt64) :
    addData hash smallBuffer below4096 nineBytes (fun _ => 0) [0] [0] =
        .error "CudaStringsHashTable::addData: table string buffer is full" ∧
      below4096.mem (smallBuffer.str_buf + smallBuffer.str_buf_max_sz) = 0 ∧
      (addDataEffects hash smallBuffer below4096 nineBytes (fun _ => 0) [0] [0]).2.mem
        (smallBuffer.str_buf + smallBuffer.str_buf_max_sz) = 7 ∧
      smallBuffer.pointers 0 = 0 ∧
      (addDataEffects hash smallBuffer below4096 nineBytes (fun _ => 0) [0] [0]).1.pointers 0 = smallBuffer.str_buf := by
  refine ⟨?_, rfl, ?_, rfl, ?_⟩
  · -- the flag is clear and `0 + 16 > 8`
    simp only [addData, kerAddData_nineBytes, Bool.false_eq_true, if_false]
    rw [if_pos (by decide)]
    rfl
  · simp only [addDataEffects, kerAddData_nineBytes]
    decide
  · simp only [addDataEffects, kerAddData_nineBytes]
    decide

end ClickHouseGpu.Cuda.StringsHashTable
