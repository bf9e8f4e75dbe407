import Mathlib
import ClickHouseGpu.Cuda.StringsAggregator

/-
  ClickHouseGpu.Columns.CudaColumnString — `CudaColumnString` (dbms/src/Columns/Cuda/CudaColumnString.cu):
  blocks of a `ColumnString` appended to one device buffer, and the row offsets and lengths
  `calcLengths` computes from each block's own offsets.

  `addData` copies a block's bytes after the bytes already in the buffer and its 64-bit row
  offsets after the offsets already there; `kerCalcLengths` rebases one block's offsets by the
  rows and bytes of the blocks before it. The kernel and the loop around it count rows and
  bytes in `UInt32`.
  - `addAll_offsets64`, `addAll_mem`: the blocks' offsets and bytes lie back to back.
  - `calcLengthsFrom_block`: each block's kernel writes its rows, and no other kernel does.
  - `calcLengths_rows`: with fewer than `2^32` bytes and at most `2^32` rows, row `i` of block
    `j` is found at the bytes of the blocks before it plus the row's own offset, with its length,
    and the buffer holds the row and its terminating zero there.
  - `calcLengths_offset_wraps`: with `2^32` bytes before it, a block's first row is read at
    offset 0.
-/

namespace ClickHouseGpu.Columns.ColumnStringBuffer

open ByteBuffer ClickHouseGpu.Cuda.StringsAggregator

/-- The blocks `blocks` (each the rows of a `ColumnString`) appended one after another with
    `addData`, given its chars and offsets as `ColumnString` lays them out. -/
def addAll (c : CudaColumnString) (mem : Nat → UInt8) (blocks : List (List (List UInt8))) :
    CudaColumnString × (Nat → UInt8) :=
  blocks.foldl (fun cm rows => cm.1.addData cm.2 rows.length (getChars rows) (getOffsets 0 rows)) (c, mem)

/-! ## The layout of a `ColumnString` -/

@[simp] theorem length_getOffsets (base : Nat) (rows : List (List UInt8)) : (getOffsets base rows).length = rows.length := by
  induction rows generalizing base with
  | nil => rfl
  | cons r rs ih => simp [getOffsets, ih]

theorem getChars_append (as bs : List (List UInt8)) : getChars (as ++ bs) = getChars as ++ getChars bs := by
  induction as with
  | nil => rfl
  | cons r rs ih => simp [getChars, ih]

/-- Row `i` ends `base` plus the bytes of the rows up to it, its zero included. -/
theorem getD_getOffsets (base : Nat) (rows : List (List UInt8)) (i : Nat) (hi : i < rows.length) :
    (getOffsets base rows).getD i 0 = base + (getChars (rows.take (i + 1))).length := by
  induction rows generalizing base i with
  | nil => simp at hi
  | cons r rs ih =>
    cases i with
    | zero => simp [getOffsets, getChars, Nat.add_assoc]
    | succ i =>
      simp only [getOffsets, List.getD_cons_succ, List.take_succ_cons, getChars]
      rw [ih _ i (by simpa using hi)]
      simp only [List.length_append, List.length_singleton]
      omega

/-- The chars of a column are the rows before row `i`, row `i` with its zero, and the rest. -/
theorem getChars_eq_take_drop (rows : List (List UInt8)) (i : Nat) (hi : i < rows.length) :
    getChars rows = getChars (rows.take i) ++ (rows[i] ++ [0]) ++ getChars (rows.drop (i + 1)) := by
  have hsplit : rows = rows.take i ++ (rows[i] :: rows.drop (i + 1)) := by
    rw [← List.drop_eq_getElem_cons hi, List.take_append_drop]
  conv_lhs => rw [hsplit]
  rw [getChars_append, getChars]
  simp only [List.append_assoc]

theorem getChars_take_succ (rows : List (List UInt8)) (i : Nat) (hi : i < rows.length) :
    getChars (rows.take (i + 1)) = getChars (rows.take i) ++ (rows[i] ++ [0]) := by
  rw [List.take_add_one, List.getElem?_eq_getElem hi, Option.toList_some, getChars_append]
  simp [getChars]

theorem length_getChars_take_le (rows : List (List UInt8)) (i : Nat) :
    (getChars (rows.take i)).length ≤ (getChars rows).length := by
  conv_rhs => rw [← List.take_append_drop i rows, getChars_append, List.length_append]
  omega

/-- Row `i` of a column is read from its chars at the end of row `i - 1`. -/
theorem getOffsets_prev (rows : List (List UInt8)) (i : Nat) (hi : i < rows.length) :
    (if i = 0 then 0 else (getOffsets 0 rows).getD (i - 1) 0) = (getChars (rows.take i)).length := by
  split
  · next h => subst h; rfl
  · next h =>
    rw [getD_getOffsets 0 rows (i - 1) (by omega), Nat.sub_add_cancel (by omega), Nat.zero_add]

theorem getOffsets_getD (rows : List (List UInt8)) (i : Nat) (hi : i < rows.length) :
    (getOffsets 0 rows).getD i 0 = (getChars (rows.take i)).length + rows[i].length + 1 := by
  rw [getD_getOffsets 0 rows i hi, getChars_take_succ rows i hi]
  simp [Nat.add_assoc]

/-- A list of blocks flattened is the blocks before block `j`, block `j` and the rest. -/
theorem flatMap_eq_take_drop {α β : Type} (f : α → List β) (l : List α) (j : Nat) (hj : j < l.length) :
    l.flatMap f = (l.take j).flatMap f ++ f l[j] ++ (l.drop (j + 1)).flatMap f := by
  have hsplit : l = l.take j ++ (l[j] :: l.drop (j + 1)) := by
    rw [← List.drop_eq_getElem_cons hj, List.take_append_drop]
  conv_lhs => rw [hsplit]
  rw [List.flatMap_append, List.flatMap_cons, List.append_assoc]

theorem getD_flatMap_block {α β : Type} (f : α → List β) (l : List α) (j : Nat) (hj : j < l.length) (i : Nat)
    (hi : i < (f l[j]).length) (d : β) :
    (l.flatMap f).getD (((l.take j).map fun a => (f a).length).sum + i) d = (f l[j]).getD i d := by
  rw [flatMap_eq_take_drop f l j hj, List.append_assoc,
    List.getD_append_right _ _ _ _ (by simp [List.length_flatMap]), List.getD_append _ _ _ _ (by simp [List.length_flatMap]; omega)]
  congr 1
  simp [List.length_flatMap]

/-! ## Appending blocks -/

section Append

variable {c : CudaColumnString} {mem : Nat → UInt8} {blocks : List (List (List UInt8))}

theorem addAll_cons (rows : List (List UInt8)) :
    addAll c mem (rows :: blocks) =
      addAll (c.addData mem rows.length (getChars rows) (getOffsets 0 rows)).1
        (c.addData mem rows.length (getChars rows) (getOffsets 0 rows)).2 blocks := rfl

@[simp] theorem addAll_str_num : (addAll c mem blocks).1.str_num = c.str_num + (blocks.map List.length).sum := by
  induction blocks generalizing c mem with
  | nil => simp [addAll]
  | cons rows blocks ih => simp [addAll_cons, ih, CudaColumnString.addData, Nat.add_assoc]

@[simp] theorem addAll_sz :
    (addAll c mem blocks).1.sz = c.sz + (blocks.map fun rows => (getChars rows).length).sum := by
  induction blocks generalizing c mem with
  | nil => simp [addAll]
  | cons rows blocks ih => simp [addAll_cons, ih, CudaColumnString.addData, Nat.add_assoc]

@[simp] theorem addAll_buf : (addAll c mem blocks).1.buf = c.buf := by
  induction blocks generalizing c mem with
  | nil => rfl
  | cons rows blocks ih => exact ih

@[simp] theorem addAll_max_str_num : (addAll c mem blocks).1.max_str_num = c.max_str_num := by
  induction blocks generalizing c mem with
  | nil => rfl
  | cons rows blocks ih => exact ih

@[simp] theorem addAll_max_sz : (addAll c mem blocks).1.max_sz = c.max_sz := by
  induction blocks generalizing c mem with
  | nil => rfl
  | cons rows blocks ih => exact ih

@[simp] theorem addAll_blocks_sizes :
    (addAll c mem blocks).1.blocks_sizes = c.blocks_sizes ++ blocks.map List.length := by
  induction blocks generalizing c mem with
  | nil => simp [addAll]
  | cons rows blocks ih => simp [addAll_cons, ih, CudaColumnString.addData]

@[simp] theorem addAll_blocks_buf_sizes :
    (addAll c mem blocks).1.blocks_buf_sizes = c.blocks_buf_sizes ++ blocks.map fun rows => (getChars rows).length := by
  induction blocks generalizing c mem with
  | nil => simp [addAll]
  | cons rows blocks ih => simp [addAll_cons, ih, CudaColumnString.addData]

/-- The blocks' own offsets lie one block after another from row `str_num`. -/
theorem addAll_offsets64 (j : Nat) :
    (addAll c mem blocks).1.offsets64 j =
      if c.str_num ≤ j ∧ j < c.str_num + (blocks.map List.length).sum then
        (blocks.flatMap (getOffsets 0)).getD (j - c.str_num) 0
      else c.offsets64 j := by
  induction blocks generalizing c mem with
  | nil => simp [addAll]
  | cons rows blocks ih =>
    rw [addAll_cons, ih]
    have hs : (c.addData mem rows.length (getChars rows) (getOffsets 0 rows)).1.str_num = c.str_num + rows.length := rfl
    have ho : (c.addData mem rows.length (getChars rows) (getOffsets 0 rows)).1.offsets64 j =
        if c.str_num ≤ j ∧ j < c.str_num + rows.length then (getOffsets 0 rows).getD (j - c.str_num) 0
        else c.offsets64 j := rfl
    rw [hs, ho, List.map_cons, List.sum_cons, List.flatMap_cons]
    -- the row falls in a later block, in this one, or outside all of them
    split_ifs with hlater hthis hall hall
    · rw [List.getD_append_right _ _ _ _ (by simp; omega)]
      simp only [length_getOffsets]
      congr 1
      omega
    · omega
    · rw [List.getD_append _ _ _ _ (by simp; omega)]
    · omega
    · omega
    · rfl

/-- The blocks' bytes lie one after another from `buf + sz`. -/
theorem addAll_mem : (addAll c mem blocks).2 = store mem (c.buf + c.sz) (blocks.flatMap getChars) := by
  induction blocks generalizing c mem with
  | nil => simp [addAll, store_nil]
  | cons rows blocks ih =>
    rw [addAll_cons, ih]
    simp only [CudaColumnString.addData, List.flatMap_cons, ← Nat.add_assoc]
    exact store_append mem (c.buf + c.sz) (getChars rows) (blocks.flatMap getChars)

end Append

/-! ## One kernel -/

section Kernel

variable {c : CudaColumnString} {block_begin block_size block_offset : UInt32}

/-- The thread that writes entry `block_begin + i` is thread `i`. -/
theorem thread_of_lt {i : Nat} (hj : block_begin.toNat + i < 2 ^ 32) :
    (block_begin.toNat + i).toUInt32 - block_begin = i.toUInt32 := by
  apply UInt32.toNat_inj.mp
  rw [UInt32.toNat_sub]
  simp only [Nat.toUInt32_eq, UInt32.toNat_ofNat']
  omega

/-- Entry `j` is written by no thread when it lies outside the block. -/
theorem not_thread_lt {j : Nat} (hbs : block_begin.toNat + block_size.toNat ≤ 2 ^ 32)
    (hj : j < block_begin.toNat ∨ block_begin.toNat + block_size.toNat ≤ j) :
    ¬ (j < 2 ^ 32 ∧ j.toUInt32 - block_begin < block_size) := by
  rintro ⟨hj32, hlt⟩
  rw [UInt32.lt_iff_toNat_lt, UInt32.toNat_sub] at hlt
  simp only [Nat.toUInt32_eq, UInt32.toNat_ofNat'] at hlt
  have := block_begin.toNat_lt
  omega

/-- Thread `i` of a block writes the block's offset `i - 1` (0 for the first row) moved by
    `block_offset`, and the difference of offsets `i` and `i - 1`, all modulo `2^32`. -/
theorem kerCalcLengths_of_lt (hbs : block_begin.toNat + block_size.toNat ≤ 2 ^ 32) {i : Nat}
    (hi : i < block_size.toNat) :
    (c.kerCalcLengths block_begin block_size block_offset).offsets (block_begin.toNat + i) =
        ((if i = 0 then 0 else c.offsets64 (block_begin.toNat + i - 1) % 2 ^ 32) + block_offset.toNat) % 2 ^ 32 ∧
      (c.kerCalcLengths block_begin block_size block_offset).lens (block_begin.toNat + i) =
        (c.offsets64 (block_begin.toNat + i) % 2 ^ 32 + 2 ^ 32 -
          (if i = 0 then 0 else c.offsets64 (block_begin.toNat + i - 1) % 2 ^ 32)) % 2 ^ 32 := by
  have hj : block_begin.toNat + i < 2 ^ 32 := by omega
  have hthread := thread_of_lt hj
  have hcond : block_begin.toNat + i < 2 ^ 32 ∧ i.toUInt32 < block_size := by
    refine ⟨hj, ?_⟩
    rw [UInt32.lt_iff_toNat_lt]
    simp only [Nat.toUInt32_eq, UInt32.toNat_ofNat']
    omega
  -- the offset thread `i` reads before its own: none for the first row
  have hlocal : (if i.toUInt32 > 0 then (c.offsets64 (block_begin + i.toUInt32 - 1).toNat).toUInt32 else 0).toNat =
      if i = 0 then 0 else c.offsets64 (block_begin.toNat + i - 1) % 2 ^ 32 := by
    by_cases hi0 : i = 0
    · subst hi0
      rfl
    · have hpos : i.toUInt32 > 0 := by
        rw [gt_iff_lt, UInt32.lt_iff_toNat_lt]
        simp only [Nat.toUInt32_eq, UInt32.toNat_ofNat', UInt32.toNat_zero]
        omega
      have hidx : (block_begin + i.toUInt32 - 1).toNat = block_begin.toNat + i - 1 := by
        rw [UInt32.toNat_sub, UInt32.toNat_add]
        simp only [Nat.toUInt32_eq, UInt32.toNat_ofNat', UInt32.toNat_one]
        omega
      rw [if_pos hpos, if_neg hi0, hidx]
      simp
  simp only [CudaColumnString.kerCalcLengths]
  rw [hthread, if_pos hcond, if_pos hcond]
  constructor
  · rw [UInt32.toNat_add, hlocal]
  · have hbound : (if i = 0 then 0 else c.offsets64 (block_begin.toNat + i - 1) % 2 ^ 32) < 2 ^ 32 := by
      split <;> omega
    rw [UInt32.toNat_sub, hlocal]
    simp only [Nat.toUInt32_eq, UInt32.toNat_ofNat']
    omega

/-- Entries outside the block keep their values. -/
theorem kerCalcLengths_of_not_mem (hbs : block_begin.toNat + block_size.toNat ≤ 2 ^ 32) {j : Nat}
    (hj : j < block_begin.toNat ∨ block_begin.toNat + block_size.toNat ≤ j) :
    (c.kerCalcLengths block_begin block_size block_offset).offsets j = c.offsets j ∧
      (c.kerCalcLengths block_begin block_size block_offset).lens j = c.lens j := by
  simp only [CudaColumnString.kerCalcLengths]
  rw [if_neg (not_thread_lt hbs hj), if_neg (not_thread_lt hbs hj)]
  exact ⟨rfl, rfl⟩

@[simp] theorem kerCalcLengths_offsets64 :
    (c.kerCalcLengths block_begin block_size block_offset).offsets64 = c.offsets64 := rfl

end Kernel

/-! ## The loop over the blocks -/

section Loop

@[simp] theorem calcLengthsFrom_offsets64 : ∀ (c : CudaColumnString) (sizes buf_sizes : List Nat) (B O : UInt32),
    (c.calcLengthsFrom sizes buf_sizes B O).offsets64 = c.offsets64
  | c, size :: sizes, buf_size :: buf_sizes, B, O => by
    rw [CudaColumnString.calcLengthsFrom, calcLengthsFrom_offsets64]
    rfl
  | _, [], _, _, _ => rfl
  | _, _ :: _, [], _, _ => rfl

theorem toNat_add_toUInt32 {B : UInt32} {n : Nat} (h : B.toNat + n < 2 ^ 32) : (B + n.toUInt32).toNat = B.toNat + n := by
  rw [UInt32.toNat_add]
  simp only [Nat.toUInt32_eq, UInt32.toNat_ofNat']
  omega

/-- The kernels of the blocks from row `B` on leave the rows before `B` as they were. -/
theorem calcLengthsFrom_of_lt : ∀ (c : CudaColumnString) (sizes buf_sizes : List Nat) (B O : UInt32),
    B.toNat + sizes.sum < 2 ^ 32 → ∀ j < B.toNat,
      (c.calcLengthsFrom sizes buf_sizes B O).offsets j = c.offsets j ∧
        (c.calcLengthsFrom sizes buf_sizes B O).lens j = c.lens j
  | c, size :: sizes, buf_size :: buf_sizes, B, O, hsum, j, hj => by
    rw [List.sum_cons] at hsum
    have hsize : size.toUInt32.toNat = size := by
      simp only [Nat.toUInt32_eq, UInt32.toNat_ofNat']
      omega
    have hker := @kerCalcLengths_of_not_mem c B size.toUInt32 O (by omega : B.toNat + size.toUInt32.toNat ≤ 2 ^ 32)
      _ (Or.inl hj)
    have hrest := calcLengthsFrom_of_lt (c.kerCalcLengths B size.toUInt32 O) sizes buf_sizes (B + size.toUInt32)
      (O + buf_size.toUInt32) (by rw [toNat_add_toUInt32 (by omega)]; omega) j (by rw [toNat_add_toUInt32 (by omega)]; omega)
    rw [CudaColumnString.calcLengthsFrom, hrest.1, hrest.2]
    exact hker
  | _, [], _, _, _, _, _, _ => ⟨rfl, rfl⟩
  | _, _ :: _, [], _, _, _, _, _ => ⟨rfl, rfl⟩

/-- Row `i` of block `m` gets what block `m`'s kernel writes: its block's offset `i - 1` moved
    by the bytes of the blocks before it, and its length, modulo `2^32`. -/
theorem calcLengthsFrom_block : ∀ (c : CudaColumnString) (sizes buf_sizes : List Nat) (B O : UInt32),
    sizes.length = buf_sizes.length → B.toNat + sizes.sum < 2 ^ 32 →
    ∀ m (hm : m < sizes.length) i, i < sizes[m] →
      (c.calcLengthsFrom sizes buf_sizes B O).offsets (B.toNat + (sizes.take m).sum + i) =
          ((if i = 0 then 0 else c.offsets64 (B.toNat + (sizes.take m).sum + i - 1) % 2 ^ 32) +
            O.toNat + (buf_sizes.take m).sum) % 2 ^ 32 ∧
        (c.calcLengthsFrom sizes buf_sizes B O).lens (B.toNat + (sizes.take m).sum + i) =
          (c.offsets64 (B.toNat + (sizes.take m).sum + i) % 2 ^ 32 + 2 ^ 32 -
            (if i = 0 then 0 else c.offsets64 (B.toNat + (sizes.take m).sum + i - 1) % 2 ^ 32)) % 2 ^ 32
  | c, size :: sizes, buf_size :: buf_sizes, B, O, hlen, hsum, m, hm, i, hi => by
    rw [List.sum_cons] at hsum
    have hsize : size.toUInt32.toNat = size := by
      simp only [Nat.toUInt32_eq, UInt32.toNat_ofNat']
      omega
    have hB : (B + size.toUInt32).toNat = B.toNat + size := toNat_add_toUInt32 (by omega)
    rw [CudaColumnString.calcLengthsFrom]
    cases m with
    | zero =>
      -- this block's kernel writes the row, and the later ones leave it
      simp only [List.getElem_cons_zero] at hi
      have hker := @kerCalcLengths_of_lt c B size.toUInt32 O (by omega : B.toNat + size.toUInt32.toNat ≤ 2 ^ 32)
        _ (show i < size.toUInt32.toNat by omega)
      have hrest := calcLengthsFrom_of_lt (c.kerCalcLengths B size.toUInt32 O) sizes buf_sizes (B + size.toUInt32)
        (O + buf_size.toUInt32) (by omega) (B.toNat + i) (by omega)
      simp only [List.take_zero, List.sum_nil, Nat.add_zero]
      rw [hrest.1, hrest.2, hker.1, hker.2]
      exact ⟨rfl, rfl⟩
    | succ m =>
      -- a later block: the kernels after this one, from its end
      simp only [List.getElem_cons_succ, List.length_cons] at hi hm hlen
      have h := calcLengthsFrom_block (c.kerCalcLengths B size.toUInt32 O) sizes buf_sizes (B + size.toUInt32)
        (O + buf_size.toUInt32) (by omega) (by omega) m (by omega) i hi
      have hO : (O + buf_size.toUInt32).toNat = (O.toNat + buf_size) % 2 ^ 32 := by
        rw [UInt32.toNat_add]
        simp only [Nat.toUInt32_eq, UInt32.toNat_ofNat']
        omega
      rw [hB, hO, kerCalcLengths_offsets64] at h
      simp only [List.take_succ_cons, List.sum_cons]
      rw [show B.toNat + (size + (sizes.take m).sum) + i = B.toNat + size + (sizes.take m).sum + i by omega]
      refine ⟨?_, h.2⟩
      rw [h.1]
      omega
  | _, [], _, _, _, _, _, _, hm, _, _ => absurd hm (by simp)
  | _, _ :: _, [], _, _, hlen, _, _, _, _, _ => absurd hlen (by simp)

end Loop

/-! ## Rows after `calcLengths` -/

theorem load_store_inside (mem : Nat → UInt8) (p a l : Nat) (bs : List UInt8) (h : a + l ≤ bs.length) :
    load (store mem p bs) (p + a) l = (bs.drop a).take l := by
  apply List.ext_getElem (by simp; omega)
  intro k hk _
  simp only [length_load] at hk
  rw [getElem_load, store_of_mem bs (by omega) (by omega)]
  simp only [List.getElem_take, List.getElem_drop]
  congr 1
  omega

/-- Blocks accepted by `hasSpace` fit: their rows and bytes are within the buffer's. -/
theorem sum_le_of_hasSpace {c : CudaColumnString} {mem : Nat → UInt8} {blocks : List (List (List UInt8))}
    (hspace : ∀ n (hn : n < blocks.length),
      (addAll c mem (blocks.take n)).1.hasSpace blocks[n].length (getChars blocks[n]).length = true) :
    (blocks.map List.length).sum ≤ c.max_str_num ∧
      (blocks.map fun rows => (getChars rows).length).sum ≤ c.max_sz := by
  rcases List.eq_nil_or_concat blocks with rfl | ⟨init, last, rfl⟩
  · simp
  · -- the last block was accepted after all the others
    simp only [List.concat_eq_append] at hspace ⊢
    have hlast := hspace init.length (by simp)
    have e1 : (init ++ [last]).take init.length = init := by simp
    have e2 : (init ++ [last])[init.length] = last := by simp
    rw [e1, e2] at hlast
    simp only [CudaColumnString.hasSpace, addAll_str_num, addAll_sz, addAll_max_str_num, addAll_max_sz,
      gt_iff_lt, Bool.if_false_left, Bool.and_true, Bool.not_eq_true', decide_eq_false_iff_not,
      not_lt, Bool.and_eq_true] at hlast
    simp only [List.map_append, List.map_cons, List.map_nil, List.sum_append, List.sum_cons, List.sum_nil]
    omega

theorem sum_map_take_add_le {α : Type} (f : α → Nat) (l : List α) (j : Nat) (hj : j < l.length) :
    ((l.take j).map f).sum + f l[j] ≤ (l.map f).sum := by
  calc ((l.take j).map f).sum + f l[j] = ((l.map f).take (j + 1)).sum := by
        rw [List.sum_take_succ _ _ (by simpa using hj), List.map_take, List.getElem_map]
    _ ≤ (l.map f).sum := (List.take_sublist _ _).sum_le_sum (fun _ _ => Nat.zero_le _)

/-- After blocks of `ColumnString`s are appended to an empty buffer, each accepted by
    `hasSpace`, `calcLengths` finds row `i` of block `j` at the bytes of the blocks before it
    plus the block's offset `i - 1` (0 for the first row), with the difference of the block's
    offsets `i` and `i - 1` as its length, and the buffer holds the row and its terminating zero
    there, as long as the buffer has fewer than `2^32` rows and bytes. -/
theorem calcLengths_rows (c : CudaColumnString) (mem : Nat → UInt8) (blocks : List (List (List UInt8)))
    (hnum : c.str_num = 0) (hsz : c.sz = 0) (hsizes : c.blocks_sizes = []) (hbuf_sizes : c.blocks_buf_sizes = [])
    (hspace : ∀ n (hn : n < blocks.length),
      (addAll c mem (blocks.take n)).1.hasSpace blocks[n].length (getChars blocks[n]).length = true)
    (hmax_num : c.max_str_num < 2 ^ 32) (hmax_sz : c.max_sz < 2 ^ 32)
    (j : Nat) (hj : j < blocks.length) (i : Nat) (hi : i < blocks[j].length) :
    (addAll c mem blocks).1.calcLengths.offsets (((blocks.take j).map List.length).sum + i) =
        ((blocks.take j).map fun rows => (getChars rows).length).sum +
          (if i = 0 then 0 else (getOffsets 0 blocks[j]).getD (i - 1) 0) ∧
      (addAll c mem blocks).1.calcLengths.lens (((blocks.take j).map List.length).sum + i) =
        (getOffsets 0 blocks[j]).getD i 0 - (if i = 0 then 0 else (getOffsets 0 blocks[j]).getD (i - 1) 0) ∧
      load (addAll c mem blocks).2
          ((addAll c mem blocks).1.buf + (addAll c mem blocks).1.calcLengths.offsets (((blocks.take j).map List.length).sum + i))
          ((addAll c mem blocks).1.calcLengths.lens (((blocks.take j).map List.length).sum + i)) =
        blocks[j][i] ++ [0] := by
  obtain ⟨hrows, hbytes⟩ := sum_le_of_hasSpace hspace
  set rows := blocks[j] with hrows_def
  set S := ((blocks.take j).map List.length).sum with hS
  set Z := ((blocks.take j).map fun rows => (getChars rows).length).sum with hZ
  -- the row's place in its block's chars: after the rows before it
  have hprev := getOffsets_prev rows i hi
  have hnext := getOffsets_getD rows i hi
  have hrow_in : (getChars (rows.take i)).length + rows[i].length + 1 ≤ (getChars rows).length := by
    rw [getChars_eq_take_drop rows i hi]
    simp only [List.length_append, List.length_singleton]
    omega
  have hblock_rows : S + rows.length ≤ (blocks.map List.length).sum := sum_map_take_add_le _ blocks j hj
  have hblock_bytes : Z + (getChars rows).length ≤ (blocks.map fun rows => (getChars rows).length).sum :=
    sum_map_take_add_le _ blocks j hj
  -- the kernel of block `j`
  have hcalc : (addAll c mem blocks).1.calcLengths =
      (addAll c mem blocks).1.calcLengthsFrom (blocks.map List.length)
        (blocks.map fun rows => (getChars rows).length) 0 0 := by
    rw [CudaColumnString.calcLengths, addAll_blocks_sizes, addAll_blocks_buf_sizes, hsizes, hbuf_sizes,
      List.nil_append, List.nil_append]
  have hker := calcLengthsFrom_block (addAll c mem blocks).1 (blocks.map List.length)
    (blocks.map fun rows => (getChars rows).length) 0 0 (by simp) (by simp only [UInt32.toNat_zero]; omega)
    j (by simpa using hj) i (by simpa using hi)
  simp only [UInt32.toNat_zero, Nat.zero_add, ← List.map_take] at hker
  -- the offsets `addData` copied: block `j`'s own
  have hoff : ∀ i' < rows.length, (addAll c mem blocks).1.offsets64 (S + i') = (getOffsets 0 rows).getD i' 0 := by
    intro i' hi'
    rw [addAll_offsets64, hnum, if_pos (by omega), Nat.sub_zero]
    have h := getD_flatMap_block (getOffsets 0) blocks j hj i' (by simpa using hi') 0
    simp only [length_getOffsets] at h
    exact h
  have hlocal : (if i = 0 then 0 else (addAll c mem blocks).1.offsets64 (S + i - 1) % 2 ^ 32) =
      (getChars (rows.take i)).length := by
    rw [← hprev]
    by_cases hi0 : i = 0
    · simp [hi0]
    · rw [if_neg hi0, if_neg hi0, show S + i - 1 = S + (i - 1) by omega, hoff (i - 1) (by omega)]
      apply Nat.mod_eq_of_lt
      rw [← if_neg hi0 (α := Nat) (t := 0) (e := (getOffsets 0 rows).getD (i - 1) 0), hprev]
      omega
  rw [hlocal, hoff i hi, hnext] at hker
  have hoffset : (addAll c mem blocks).1.calcLengths.offsets (S + i) = Z + (getChars (rows.take i)).length := by
    rw [hcalc, hker.1, Nat.mod_eq_of_lt (by omega)]
    omega
  have hlen : (addAll c mem blocks).1.calcLengths.lens (S + i) = rows[i].length + 1 := by
    rw [hcalc, hker.2]
    rw [Nat.mod_eq_of_lt (by omega : (getChars (rows.take i)).length + rows[i].length + 1 < 2 ^ 32)]
    omega
  refine ⟨by rw [hoffset, hprev], by rw [hlen, hnext, hprev]; omega, ?_⟩
  -- the bytes: block `j`'s chars after those of the blocks before it
  rw [hoffset, hlen, addAll_mem, addAll_buf, hsz, Nat.add_zero]
  have hall : blocks.flatMap getChars =
      ((blocks.take j).flatMap getChars ++ getChars (rows.take i)) ++ (rows[i] ++ [0]) ++
        (getChars (rows.drop (i + 1)) ++ (blocks.drop (j + 1)).flatMap getChars) := by
    rw [flatMap_eq_take_drop getChars blocks j hj, ← hrows_def, getChars_eq_take_drop rows i hi]
    simp only [List.append_assoc]
  have hpre : ((blocks.take j).flatMap getChars).length = Z := by
    simp [List.length_flatMap, hZ]
  have hfit : Z + (getChars (rows.take i)).length + (rows[i].length + 1) ≤ (blocks.flatMap getChars).length := by
    rw [hall]
    simp only [List.length_append, List.length_singleton, hpre]
    omega
  have hat : Z + (getChars (rows.take i)).length = ((blocks.take j).flatMap getChars ++ getChars (rows.take i)).length := by
    rw [List.length_append, hpre]
  rw [load_store_inside _ _ _ _ _ hfit, hall, hat, show rows[i].length + 1 = (rows[i] ++ [0]).length by simp,
    List.append_assoc, List.drop_left, List.take_left]

/-- A buffer made for two rows and `2^32 + 1` bytes takes a block of one row of `2^32 - 1` bytes
    and then a block of one empty row. The second block's row is read at offset `0`, where the
    first block's bytes start, though `2^32` bytes come before it: it reads back as the byte `1`
    in place of the empty string's zero. -/
theorem calcLengths_offset_wraps (mem : Nat → UInt8) :
    ∃ c, CudaColumnString.create 2 (2 ^ 32 + 1) 256 = .ok c ∧
      (∀ n (hn : n < 2), (addAll c mem ([[List.replicate (2 ^ 32 - 1) 1], [[]]].take n)).1.hasSpace
        ([[List.replicate (2 ^ 32 - 1) 1], [[]]][n]).length (getChars [[List.replicate (2 ^ 32 - 1) 1], [[]]][n]).length = true) ∧
      (getChars [List.replicate (2 ^ 32 - 1) 1]).length = 2 ^ 32 ∧
      (addAll c mem [[List.replicate (2 ^ 32 - 1) 1], [[]]]).1.calcLengths.offsets 1 = 0 ∧
      load (addAll c mem [[List.replicate (2 ^ 32 - 1) 1], [[]]]).2
          ((addAll c mem [[List.replicate (2 ^ 32 - 1) 1], [[]]]).1.buf +
            (addAll c mem [[List.replicate (2 ^ 32 - 1) 1], [[]]]).1.calcLengths.offsets 1)
          ((addAll c mem [[List.replicate (2 ^ 32 - 1) 1], [[]]]).1.calcLengths.lens 1) = [1] := by
  -- the long row is never spelled out: only its length and first byte matter
  have hlen : (List.replicate (2 ^ 32 - 1) (1 : UInt8)).length = 2 ^ 32 - 1 := List.length_replicate
  have hhead : (List.replicate (2 ^ 32 - 1) (1 : UInt8)).take 1 = [1] := by
    rw [List.take_replicate, Nat.min_eq_left (by norm_num)]
    rfl
  generalize List.replicate (2 ^ 32 - 1) (1 : UInt8) = r at hlen hhead ⊢
  have hbig : (getChars [r]).length = 2 ^ 32 := by
    rw [getChars, getChars, List.length_append, List.length_append, hlen]
    norm_num
  have hempty : (getChars [([] : List UInt8)]).length = 1 := rfl
  refine ⟨⟨2, 2 ^ 32 + 1, 256, 0, 0, fun _ => 0, fun _ => 0, fun _ => 0, [], []⟩, rfl, ?_, hbig, ?_⟩
  · -- both blocks are accepted
    intro n hn
    rcases n with _ | _ | n
    · rw [List.take_zero, List.getElem_cons_zero, List.getElem_cons_zero, List.length_singleton, hbig]
      simp [addAll, CudaColumnString.hasSpace]
    · rw [List.take_succ_cons, List.take_zero, List.getElem_cons_succ, List.getElem_cons_zero,
        List.getElem_cons_succ, List.getElem_cons_zero, List.length_singleton, hempty]
      have hs : (addAll ⟨2, 2 ^ 32 + 1, 256, 0, 0, fun _ => 0, fun _ => 0, fun _ => 0, [], []⟩ mem [[r]]).1.str_num = 1 := by
        rw [addAll_str_num]
        rfl
      have hz : (addAll ⟨2, 2 ^ 32 + 1, 256, 0, 0, fun _ => 0, fun _ => 0, fun _ => 0, [], []⟩ mem [[r]]).1.sz = 2 ^ 32 := by
        rw [addAll_sz, List.map_cons, List.map_nil, List.sum_cons, List.sum_nil, hbig]
        rfl
      rw [CudaColumnString.hasSpace, hs, hz, addAll_max_str_num, addAll_max_sz]
      simp
    · omega
  -- the loop of `calcLengths` over the two blocks, and what `addData` copied
  have hcalc : (addAll ⟨2, 2 ^ 32 + 1, 256, 0, 0, fun _ => 0, fun _ => 0, fun _ => 0, [], []⟩ mem [[r], [[]]]).1.calcLengths =
      (addAll ⟨2, 2 ^ 32 + 1, 256, 0, 0, fun _ => 0, fun _ => 0, fun _ => 0, [], []⟩ mem [[r], [[]]]).1.calcLengthsFrom
        [1, 1] [2 ^ 32, 1] 0 0 := by
    rw [CudaColumnString.calcLengths, addAll_blocks_sizes, addAll_blocks_buf_sizes]
    simp only [List.map_cons, List.map_nil, List.length_singleton, hbig, hempty, List.nil_append]
  have hker := calcLengthsFrom_block
    (addAll ⟨2, 2 ^ 32 + 1, 256, 0, 0, fun _ => 0, fun _ => 0, fun _ => 0, [], []⟩ mem [[r], [[]]]).1
    [1, 1] [2 ^ 32, 1] 0 0 rfl (by norm_num) 1 (by norm_num) 0 (by norm_num)
  have h64 : (addAll ⟨2, 2 ^ 32 + 1, 256, 0, 0, fun _ => 0, fun _ => 0, fun _ => 0, [], []⟩ mem [[r], [[]]]).1.offsets64 1 = 1 := by
    rw [addAll_offsets64]
    rw [if_pos ⟨Nat.zero_le _, by simp⟩]
    rfl
  have hidx : (0 : UInt32).toNat + ([1, 1].take 1).sum + 0 = 1 := rfl
  rw [hidx] at hker
  rw [hcalc]
  have hoff : ((addAll ⟨2, 2 ^ 32 + 1, 256, 0, 0, fun _ => 0, fun _ => 0, fun _ => 0, [], []⟩ mem [[r], [[]]]).1.calcLengthsFrom
        [1, 1] [2 ^ 32, 1] 0 0).offsets 1 = 0 := by
    rw [hker.1]
    norm_num
  have hlens : ((addAll ⟨2, 2 ^ 32 + 1, 256, 0, 0, fun _ => 0, fun _ => 0, fun _ => 0, [], []⟩ mem [[r], [[]]]).1.calcLengthsFrom
        [1, 1] [2 ^ 32, 1] 0 0).lens 1 = 1 := by
    rw [hker.2, h64]
    norm_num
  refine ⟨hoff, ?_⟩
  rw [hoff, hlens, addAll_mem, addAll_buf, Nat.add_zero]
  have hr : 1 ≤ r.length := by
    rw [hlen]
    norm_num
  rw [List.flatMap_cons, getChars, List.append_assoc, List.append_assoc]
  rw [ load_store_prefix _ (by rw [List.length_append]; omega), List.take_append_of_le_length hr, hhead]

end ClickHouseGpu.Columns.ColumnStringBuffer
