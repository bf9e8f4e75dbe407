import ClickHouseGpu.Lib.BlockFilter

/-
  ClickHouseGpu.Columns.FilterRows — `IColumn::filter` for the columns a `WHERE` filters
  (dbms/src/Columns): `countBytesInFilter`, `ColumnVector<T>::filter`,
  `ColumnFixedString::filter`, `filterArraysImpl` behind `ColumnString::filter` and
  `ColumnArray::filterNumber`, and `ColumnArray::filterString` / `filterGeneric`.

  The SSE2 loops read 16 filter bytes at a time through `_mm_cmpgt_epi8(f, 0)`, a signed
  comparison, so a byte of `0x80` or more fails its lane; they skip a block whose lanes all
  fail, copy a block whose lanes all pass, and test each row of the other blocks, and of the
  tail, with `filt[i] != 0`. `countBytesInFilter` counts the bytes whose lane passes. The
  loops are `BlockFilter.filterLoop` at width `SIMD_BYTES`; which rows they take is
  `ssePass`. `result_size_hint` only reserves memory and is left out, as are
  `filterNullable` and `filterTuple`.

  Proved:
  - `countBytesInFilter_eq`: the count is the number of bytes in `1 .. 127`.
  - `ColumnVector.filter_eq`, `ColumnFixedString.filter_eq`: the SSE2 filters keep the rows
    `ssePass` takes, in order.
  - `ssePass_of_lt`: on filters whose bytes are all below `0x80` (zeros and ones among them)
    `ssePass` is `filt[i] != 0` and the count is the number of non-zero bytes.
  - `filter_drops_nonzero_block`: sixteen bytes of `0x80` drop every row of a
    `ColumnVector`, and `countBytesInFilter` counts none of them.
-/

namespace ClickHouseGpu.Columns.FilterRows

open BlockFilter

/-- `IColumn::Filter`: one byte per row. -/
abbrev Filter := List UInt8

def SIMD_BYTES : Nat := 16

/-- One lane of `_mm_cmpgt_epi8(f, zero)`: the byte, read as an `Int8`, is positive. -/
def cmpgtZero (b : UInt8) : Bool := 0 < b.toNat && b.toNat < 128

/-- `if (filt[i])`. -/
def nonZero (b : UInt8) : Bool := b != 0

/-- The rows the SSE2 loops take. -/
def ssePass (filt : Filter) : List Bool := keep cmpgtZero nonZero SIMD_BYTES (filt.length / SIMD_BYTES) filt

/-! ## countBytesInFilter -/

/-- The mask of 64 bytes: four 16-lane masks shifted into place. -/
def mask64 (bytes : List UInt8) : Nat :=
  let mask := fun k => movemask ((slice bytes (16 * k) 16).map cmpgtZero)
  mask 0 ||| (mask 1 <<< 16) ||| (mask 2 <<< 32) ||| (mask 3 <<< 48)

/-- The loops of `countBytesInFilter` over `n` blocks of 64 bytes and then the tail. -/
def countFrom : Nat → List UInt8 → Nat → Nat
  | 0, rest, count => rest.foldl (fun count b => count + (cmpgtZero b).toNat) count
  | n + 1, bytes, count => countFrom n (bytes.drop 64) (count + popcount 64 (mask64 bytes))

def countBytesInFilter (filt : Filter) : Nat := countFrom (filt.length / 64) filt 0

/-! ## Columns -/

structure ColumnVector (T : Type) where
  data : List T

/-- `ColumnVector<T>::filter`: a passing block is one `insert`, a row one `push_back`. -/
def ColumnVector.filter {T : Type} (c : ColumnVector T) (filt : Filter) : Except String (ColumnVector T) :=
  if c.data.length ≠ filt.length then .error "Size of filter doesn't match size of column."
  else .ok ⟨filterLoop cmpgtZero nonZero SIMD_BYTES
    (fun p res => res ++ slice c.data p SIMD_BYTES) (fun i res => res ++ slice c.data i 1) filt []⟩

/-- `ColumnFixedString`: `n` chars a row. -/
structure ColumnFixedString where
  n : Nat
  chars : List UInt8

def ColumnFixedString.size (c : ColumnFixedString) : Nat := c.chars.length / c.n

/-- The rows of a `ColumnFixedString`. -/
def ColumnFixedString.rows (c : ColumnFixedString) : List (List UInt8) :=
  (List.range' 0 c.size).map fun i => slice c.chars (i * c.n) c.n

def ColumnFixedString.filter (c : ColumnFixedString) (filt : Filter) : Except String ColumnFixedString :=
  if c.size ≠ filt.length then .error "Size of filter doesn't match size of column."
  else .ok ⟨c.n, filterLoop cmpgtZero nonZero SIMD_BYTES
    (fun p res => res ++ slice c.chars (p * c.n) (SIMD_BYTES * c.n)) (fun i res => res ++ slice c.chars (i * c.n) c.n)
    filt []⟩

/-- The offsets of a column of arrays: where each array ends, from `base`. -/
def offsetsFrom {ν : Type} (base : Nat) : List (List ν) → List Nat
  | [] => []
  | r :: rs => (base + r.length) :: offsetsFrom (base + r.length) rs

/-- `ColumnArray` over a nested column of type `N`. -/
structure ColumnArray (N : Type) where
  data : N
  offsets : List Nat

def offsetAt (offsets : List Nat) (i : Nat) : Nat := if i = 0 then 0 else offsets.getD (i - 1) 0

def sizeAt (offsets : List Nat) (i : Nat) : Nat := offsets.getD i 0 - offsetAt offsets i

/-- The offsets `filterGeneric` builds: `current_offset += sizeAt(i)` for each passing array. -/
def genericOffsets (offsets : List Nat) (filt : Filter) : List Nat :=
  ((List.range offsets.length).foldl (fun (acc : Nat × List Nat) i =>
    if filt.getD i 0 ≠ 0 then (acc.1 + sizeAt offsets i, acc.2 ++ [acc.1 + sizeAt offsets i]) else acc) (0, [])).2

/-- `ColumnArray::filterGeneric`, `nestedFilter` being `data->filter`. The nested filter is
    `memset` to 1 over each passing array's elements and to 0 over the others. -/
def ColumnArray.filterGeneric {N : Type} (nestedFilter : N → Filter → Except String N) (c : ColumnArray N)
    (filt : Filter) : Except String (ColumnArray N) :=
  let size := c.offsets.length
  if size ≠ filt.length then .error "Size of filter doesn't match size of column."
  else if size = 0 then .ok ⟨c.data, []⟩
  else
    let nested_filt := (List.range size).flatMap fun i =>
      List.replicate (sizeAt c.offsets i) (if filt.getD i 0 ≠ 0 then 1 else 0)
    match nestedFilter c.data nested_filt with
    | .error e => .error e
    | .ok res_data => .ok ⟨res_data, genericOffsets c.offsets filt⟩

/-! ## countBytesInFilter counts the bytes in `1 .. 127` -/

theorem or_shiftLeft_eq_add {a k : Nat} (b : Nat) (ha : a < 2 ^ k) : a ||| b <<< k = a + b * 2 ^ k := by
  rw [Nat.or_comm, ← Nat.shiftLeft_add_eq_or_of_lt ha, Nat.shiftLeft_eq]
  omega

theorem mask_lt (bytes : List UInt8) (start : Nat) : movemask ((slice bytes start 16).map cmpgtZero) < 2 ^ 16 := by
  have h := movemask_lt ((slice bytes start 16).map cmpgtZero)
  have hlen : ((slice bytes start 16).map cmpgtZero).length ≤ 16 := by simp [slice]
  exact lt_of_lt_of_le h (Nat.pow_le_pow_right (by decide) hlen)

theorem mask64_eq {bytes : List UInt8} (h : 64 ≤ bytes.length) :
    mask64 bytes = movemask ((bytes.take 64).map cmpgtZero) := by
  have hsplit : bytes.take 64 = slice bytes 0 16 ++ slice bytes 16 16 ++ slice bytes 32 16 ++ slice bytes 48 16 := by
    have := flatten_map_slice bytes 16 0 4
    simp only [List.range', List.map_cons, List.map_nil, List.flatten_cons, List.flatten_nil, List.append_nil] at this
    simpa [slice, List.append_assoc] using this.symm
  have hlen : ∀ start, start + 16 ≤ bytes.length → ((slice bytes start 16).map cmpgtZero).length = 16 := by
    intro start hs
    simp [slice]
    omega
  set m0 := movemask ((slice bytes 0 16).map cmpgtZero)
  set m1 := movemask ((slice bytes 16 16).map cmpgtZero)
  set m2 := movemask ((slice bytes 32 16).map cmpgtZero)
  set m3 := movemask ((slice bytes 48 16).map cmpgtZero)
  have h0 : m0 < 2 ^ 16 := mask_lt bytes 0
  have h1 : m1 < 2 ^ 16 := mask_lt bytes 16
  have h2 : m2 < 2 ^ 16 := mask_lt bytes 32
  -- the four masks occupy disjoint bits, so the `|` are sums
  have e1 : m0 ||| m1 <<< 16 = m0 + m1 * 2 ^ 16 := or_shiftLeft_eq_add m1 h0
  have e2 : m0 + m1 * 2 ^ 16 ||| m2 <<< 32 = m0 + m1 * 2 ^ 16 + m2 * 2 ^ 32 := or_shiftLeft_eq_add m2 (by omega)
  have e3 : m0 + m1 * 2 ^ 16 + m2 * 2 ^ 32 ||| m3 <<< 48 = m0 + m1 * 2 ^ 16 + m2 * 2 ^ 32 + m3 * 2 ^ 48 :=
    or_shiftLeft_eq_add m3 (by omega)
  have hmask : mask64 bytes = m0 + m1 * 2 ^ 16 + m2 * 2 ^ 32 + m3 * 2 ^ 48 := by
    simp only [mask64, Nat.mul_zero, Nat.mul_one]
    rw [e1, e2, e3]
  rw [hmask, hsplit]
  simp only [List.map_append, movemask_append, List.length_append, hlen 0 (by omega), hlen 16 (by omega),
    hlen 32 (by omega)]
  ring

theorem countFrom_eq : ∀ (n : Nat) (bytes : List UInt8) (count : Nat), n * 64 ≤ bytes.length →
    countFrom n bytes count = count + (bytes.map cmpgtZero).count true
  | 0, rest, count, _ => by
    induction rest generalizing count with
    | nil => simp [countFrom]
    | cons b bs ih =>
      simp only [countFrom, List.foldl_cons] at ih ⊢
      rw [ih _ (by simp)]
      cases hb : cmpgtZero b with
      | false => simp [hb]
      | true => simp [hb]; omega
  | n + 1, bytes, count, h => by
    have h64 : 64 ≤ bytes.length := by rw [Nat.succ_mul] at h; omega
    have hpop : popcount 64 (mask64 bytes) = ((bytes.take 64).map cmpgtZero).count true := by
      rw [mask64_eq h64]
      exact popcount_movemask (by simp)
    simp only [countFrom]
    rw [countFrom_eq n (bytes.drop 64) _ (by simp; rw [Nat.succ_mul] at h; omega), hpop]
    conv_rhs => rw [← List.take_append_drop 64 bytes]
    rw [List.map_append, List.count_append]
    omega

theorem countBytesInFilter_eq (filt : Filter) : countBytesInFilter filt = (filt.map cmpgtZero).count true := by
  rw [countBytesInFilter, countFrom_eq _ _ _ (Nat.div_mul_le_self _ _), Nat.zero_add]

/-! ## The SSE2 filters -/

theorem flatten_select_singletons {α : Type} : ∀ (ks : List Bool) (xs : List α),
    (select ks (xs.map fun x => [x])).flatten = select ks xs
  | [], _ => rfl
  | _ :: _, [] => rfl
  | k :: ks, x :: xs => by
    cases k <;> simp [select, flatten_select_singletons ks xs]

theorem map_slice_one {α : Type} (xs : List α) : (List.range' 0 xs.length).map (fun i => slice xs i 1) = xs.map fun x => [x] := by
  apply List.ext_getElem
  · simp
  · intro i h1 h2
    simp only [List.getElem_map, List.getElem_range', Nat.zero_add, Nat.one_mul, slice]
    rw [List.drop_eq_getElem_cons (by simpa using h1)]
    rfl

theorem ColumnVector.filter_eq {T : Type} (c : ColumnVector T) (filt : Filter) (h : c.data.length = filt.length) :
    c.filter filt = .ok ⟨select (ssePass filt) c.data⟩ := by
  -- a passing block is inserted whole: the same values as its sixteen rows one by one
  have hall : ∀ p (res : List T), p + SIMD_BYTES ≤ filt.length → True →
      res ++ slice c.data p SIMD_BYTES =
        rowsLoop id (fun i res => res ++ slice c.data i 1) (List.replicate SIMD_BYTES true) p res := by
    intro p res _ _
    rw [rowsLoop_appendRows, List.length_replicate, select_all_true, List.take_of_length_le (by simp)]
    have := flatten_map_slice c.data 1 p SIMD_BYTES
    simp only [Nat.mul_one] at this
    rw [this]
  have hrows : (List.range' 0 filt.length).map (fun i => slice c.data i 1) = c.data.map fun x => [x] := by
    rw [← h]
    exact map_slice_one c.data
  simp only [ColumnVector.filter, if_neg (by omega : ¬ c.data.length ≠ filt.length)]
  rw [filterLoop_eq (fun _ _ => True) filt.length (fun _ _ _ _ => trivial) (fun _ _ _ _ => trivial) hall filt [] rfl
    trivial, rowsLoop_appendRows, keep_length, hrows, flatten_select_singletons, List.nil_append]
  rfl

theorem ColumnFixedString.filter_eq (c : ColumnFixedString) (filt : Filter) (h : c.size = filt.length) :
    c.filter filt = .ok ⟨c.n, (select (ssePass filt) c.rows).flatten⟩ := by
  -- a passing block is one `insert` of `SIMD_BYTES * n` chars: its sixteen rows one by one
  have hall : ∀ p (res : List UInt8), p + SIMD_BYTES ≤ filt.length → True →
      res ++ slice c.chars (p * c.n) (SIMD_BYTES * c.n) =
        rowsLoop id (fun i res => res ++ slice c.chars (i * c.n) c.n) (List.replicate SIMD_BYTES true) p res := by
    intro p res _ _
    rw [rowsLoop_appendRows, List.length_replicate, select_all_true, List.take_of_length_le (by simp),
      flatten_map_slice]
  simp only [ColumnFixedString.filter, if_neg (by omega : ¬ c.size ≠ filt.length)]
  rw [filterLoop_eq (fun _ _ => True) filt.length (fun _ _ _ _ => trivial) (fun _ _ _ _ => trivial) hall filt [] rfl
    trivial, rowsLoop_appendRows, keep_length, List.nil_append, ColumnFixedString.rows, h]
  rfl

/-! ## Filters of bytes below `0x80` -/

theorem cmpgtZero_eq_nonZero {b : UInt8} (h : b.toNat < 128) : cmpgtZero b = nonZero b := by
  have hne : b ≠ 0 ↔ 0 < b.toNat := by
    constructor
    · intro hb
      exact Nat.pos_of_ne_zero fun h0 => hb (UInt8.toNat_inj.mp (by simpa using h0))
    · intro hb h0
      simp [h0] at hb
  by_cases hb : b = 0
  · simp [cmpgtZero, nonZero, hb]
  · simp [cmpgtZero, nonZero, hb, hne.mp hb, h]

/-- Below `0x80` the lane test is the row test: the SSE2 loops take the rows whose byte is not
    zero and `countBytesInFilter` counts them. -/
theorem ssePass_of_lt {filt : Filter} (h : ∀ b ∈ filt, b.toNat < 128) :
    ssePass filt = filt.map nonZero ∧ countBytesInFilter filt = (filt.map nonZero).count true := by
  have heq : ∀ b ∈ filt, cmpgtZero b = nonZero b := fun b hb => cmpgtZero_eq_nonZero (h b hb)
  refine ⟨keep_eq_map SIMD_BYTES _ filt heq, ?_⟩
  rw [countBytesInFilter_eq, List.map_congr_left heq]

/-! ## A block of `0x80` -/

theorem select_all_false {α : Type} : ∀ (n : Nat) (xs : List α), select (List.replicate n false) xs = []
  | 0, _ => rfl
  | _ + 1, [] => rfl
  | n + 1, _ :: xs => by simp [List.replicate_succ, select, select_all_false n xs]

/-- Sixteen filter bytes of `0x80`, each of them not zero: `ColumnVector::filter` keeps none
    of the sixteen rows, and `countBytesInFilter` counts no byte of `0x80` however many. -/
theorem filter_drops_nonzero_block {T : Type} (c : ColumnVector T) (hc : c.data.length = 16) :
    (∀ b ∈ List.replicate 16 (0x80 : UInt8), nonZero b = true) ∧
      c.filter (List.replicate 16 0x80) = .ok ⟨[]⟩ ∧
      ∀ n, countBytesInFilter (List.replicate n 0x80) = 0 := by
  have hpass : ssePass (List.replicate 16 0x80) = List.replicate 16 false := by decide
  refine ⟨fun b hb => by rw [List.eq_of_mem_replicate hb]; decide, ?_, ?_⟩
  · rw [ColumnVector.filter_eq c _ (by simpa using hc), hpass, select_all_false]
  · intro n
    rw [countBytesInFilter_eq, List.map_replicate]
    simp [show cmpgtZero 0x80 = false by decide, List.count_replicate]

theorem filter_drops_nonzero_block_range :
    List.length (List.range 16) = 16 ∧ (ColumnVector.filter ⟨List.range 16⟩ (List.replicate 16 0x80)) = .ok ⟨[]⟩ :=
  ⟨rfl, (filter_drops_nonzero_block ⟨List.range 16⟩ rfl).2.1⟩

end ClickHouseGpu.Columns.FilterRows
