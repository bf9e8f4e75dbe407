import Mathlib
import ClickHouseGpu.Lib.AlignedWord
import ClickHouseGpu.Cuda.StringsAggregator

/-
  ClickHouseGpu.Cuda.ReadUnaligned — `cudaReadStringUnaligned64`
  (dbms/src/Common/Cuda/cudaReadUnaligned.cuh), the reader behind every word loop over device
  strings, and the three loops built on it: the hash `cudaMurmurHash64`
  (dbms/src/Common/Cuda/cudaMurmurHash64.cuh), and the string comparison of `kerAddData` and the
  copy of `kerCopyAddedStrings` (CudaStringsHashTable.cu).

  The reader never loads from an unaligned address. Its first call loads the aligned word
  around `ptr_curr` into `tmp_buf`; each call shifts the bytes from `ptr_curr` down, loads the
  next aligned word when the string goes on past the current one and keeps it in `tmp_buf` for
  the next call, masks what lies past `ptr_end`, and moves `ptr_curr` eight bytes on, or to the
  end. The caller's `is_first_read`, `tmp_buf` and `ptr_curr` are the reader's state
  (`ReadState`); `tmp_buf` starts uninitialized, any value. Pointers are addresses, and
  `p & ~7` is `p / 8 * 8`. Shifts are the device's (see `AlignedWord`): the shift by 64 that
  an aligned `ptr_curr` gives is 0.

  `StringsHashTable` models a call by what it returns, `readStringUnaligned64`: call `k` gives
  the bytes `[8k, 8k + 8)` of the string, those before its end, as a little-endian word; and
  `StringsAggregator` models the hash as a function of the string's bytes. Proved:
  - `toNat_cudaReadStringUnaligned64`, `ready_cudaReadStringUnaligned64`: a call from a state
    whose `tmp_buf` holds the aligned word around `ptr_curr` (`Ready`) returns the next bytes
    and leaves such a state.
  - `cudaReadStringUnaligned64_refines`: call `k` returns `readStringUnaligned64 mem p len k`,
    whatever the alignment of `p` and whatever `tmp_buf` held.
  - `cudaMurmurHash64_refines`: the hash of the `len` bytes at `s` is the model's hash of those
    bytes, so it does not depend on where the string lies.
  - `compareLoop_iff`: the comparison loop of `kerAddData` keeps `hit` exactly when the two
    strings are equal.
  - `copyLoop_eq_copyWords`: the copy loop of `kerCopyAddedStrings` leaves the memory
    `copyWords` does, when the destination lies outside the aligned words of the source.
-/

namespace ClickHouseGpu.Cuda.ReadUnaligned

open ByteBuffer AlignedWord ClickHouseGpu.Cuda.StringsHashTable

open ClickHouseGpu.Cuda.StringsAggregator (murmurM murmurRound)

/-- The reader's state, kept by the caller between calls. -/
structure ReadState where
  is_first_read : Bool
  tmp_buf : UInt64
  ptr_curr : Nat

/-- `cudaReadStringUnaligned64(is_first_read, tmp_buf, ptr_curr, ptr_end)`: the word it returns
    and the state it leaves. -/
def cudaReadStringUnaligned64 (mem : Nat → UInt8) (ptr_end : Nat) (st : ReadState) : UInt64 × ReadState :=
  let uint_ptr_curr := st.ptr_curr
  let tmp_buf := if st.is_first_read then load64 mem (uint_ptr_curr / 8 * 8) else st.tmp_buf
  let res := tmp_buf >>> (8 * (uint_ptr_curr % 8)).toUInt64
  let uint_ptr_end_m1 := ptr_end - 1
  -- the next aligned word is loaded, and or-ed in, only when the string reaches it
  let next_word := uint_ptr_curr / 8 * 8 ≠ uint_ptr_end_m1 / 8 * 8
  let tmp_buf := if next_word then load64 mem (uint_ptr_curr / 8 * 8 + 8) else tmp_buf
  let res := if next_word then res ||| shl64 tmp_buf (8 * (8 - uint_ptr_curr % 8)) else res
  let res := if ptr_end - uint_ptr_curr < 8 then
      res &&& ((1 : UInt64) <<< (8 * (ptr_end - uint_ptr_curr)).toUInt64 - 1)
    else res
  (res, ⟨false, tmp_buf, if uint_ptr_curr + 8 < ptr_end then uint_ptr_curr + 8 else ptr_end⟩)

section Call

variable {mem : Nat → UInt8} {ptr_end : Nat} {st : ReadState}

@[simp] theorem ptr_curr_cudaReadStringUnaligned64 :
    (cudaReadStringUnaligned64 mem ptr_end st).2.ptr_curr =
      if st.ptr_curr + 8 < ptr_end then st.ptr_curr + 8 else ptr_end := rfl

/-- A loop `while (data != end)` around the reader ends: each call brings `ptr_curr` to the
    end or eight bytes nearer, and a pointer past the end is brought back to it. -/
theorem measure_cudaReadStringUnaligned64_lt (h : ¬ st.ptr_curr = ptr_end) :
    ptr_end - (cudaReadStringUnaligned64 mem ptr_end st).2.ptr_curr +
        (if (cudaReadStringUnaligned64 mem ptr_end st).2.ptr_curr = ptr_end then 0 else 1) <
      ptr_end - st.ptr_curr + (if st.ptr_curr = ptr_end then 0 else 1) := by
  rw [ptr_curr_cudaReadStringUnaligned64]
  split_ifs <;> omega

/-- Before a call: the pointer is before the end and, unless this is the first read, `tmp_buf`
    holds the aligned word around it. -/
def Ready (mem : Nat → UInt8) (ptr_end : Nat) (st : ReadState) : Prop :=
  st.ptr_curr < ptr_end ∧ (st.is_first_read = false → st.tmp_buf = load64 mem (st.ptr_curr / 8 * 8))

/-- The word the first shift starts from is the aligned one, read now or kept from before. -/
theorem first_word (h : Ready mem ptr_end st) :
    (if st.is_first_read then load64 mem (st.ptr_curr / 8 * 8) else st.tmp_buf) =
      load64 mem (st.ptr_curr / 8 * 8) := by
  cases hf : st.is_first_read with
  | true => rfl
  | false => exact h.2 hf

/-- A call from a `Ready` state returns the next eight bytes, or those left before the end. -/
theorem toNat_cudaReadStringUnaligned64 (h : Ready mem ptr_end st) :
    (cudaReadStringUnaligned64 mem ptr_end st).1.toNat =
      leValue (load mem st.ptr_curr (min 8 (ptr_end - st.ptr_curr))) := by
  have hq : st.ptr_curr / 8 * 8 + st.ptr_curr % 8 = st.ptr_curr := Nat.div_add_mod' _ _
  have ho : st.ptr_curr % 8 < 8 := Nat.mod_lt _ (by norm_num)
  have hlt := h.1
  simp only [cudaReadStringUnaligned64, first_word h]
  -- the next word is loaded or not, and the mask applies or not
  split_ifs with hmask hnext hnext
  · rw [toNat_and_mask _ hmask, toNat_load64_join mem _ ho, hq, ← leValue_take, take_load, Nat.min_comm]
  · rw [toNat_and_mask _ hmask, toNat_load64_shiftRight mem _ ho, hq, ← leValue_take, take_load]
    congr 2
    omega
  · rw [toNat_load64_join mem _ ho, hq, show min 8 (ptr_end - st.ptr_curr) = 8 by omega]
  · rw [toNat_load64_shiftRight mem _ ho, hq]
    congr 2
    omega

/-- A call that leaves the pointer before the end leaves a `Ready` state, from any state: the
    string went on past the aligned word, so the next one was loaded into `tmp_buf`. -/
theorem ready_cudaReadStringUnaligned64 (hnext : st.ptr_curr + 8 < ptr_end) :
    Ready mem ptr_end (cudaReadStringUnaligned64 mem ptr_end st).2 := by
  have hword : st.ptr_curr / 8 * 8 ≠ (ptr_end - 1) / 8 * 8 := by omega
  refine ⟨by simp only [ptr_curr_cudaReadStringUnaligned64, if_pos hnext]; omega, fun _ => ?_⟩
  simp only [cudaReadStringUnaligned64, if_pos hnext, if_pos hword]
  congr 1
  omega

theorem load64_congr {mem' : Nat → UInt8} {a : Nat} (h : ∀ k, k < 8 → mem' (a + k) = mem (a + k)) :
    load64 mem' a = load64 mem a := by
  rw [load64, load64, load_congr h]

/-- A call reads no byte outside the aligned words that hold the rest of the string. -/
theorem cudaReadStringUnaligned64_congr {mem' : Nat → UInt8} (hlt : st.ptr_curr < ptr_end)
    (h : ∀ a, st.ptr_curr / 8 * 8 ≤ a → a < (ptr_end + 7) / 8 * 8 → mem' a = mem a) :
    cudaReadStringUnaligned64 mem' ptr_end st = cudaReadStringUnaligned64 mem ptr_end st := by
  have h0 : load64 mem' (st.ptr_curr / 8 * 8) = load64 mem (st.ptr_curr / 8 * 8) :=
    load64_congr fun k hk => h _ (by omega) (by omega)
  -- the next word is loaded only when the string reaches it
  have h1 : st.ptr_curr / 8 * 8 ≠ (ptr_end - 1) / 8 * 8 →
      load64 mem' (st.ptr_curr / 8 * 8 + 8) = load64 mem (st.ptr_curr / 8 * 8 + 8) :=
    fun hne => load64_congr fun k hk => h _ (by omega) (by omega)
  simp only [cudaReadStringUnaligned64, h0]
  by_cases hne : st.ptr_curr / 8 * 8 ≠ (ptr_end - 1) / 8 * 8
  · simp only [if_pos hne, h1 hne]
  · simp only [if_neg hne]

end Call

/-! ## A loop over the reader -/

/-- The reader's state before call `k` of a loop over the `len` bytes at `p`, `tmp_buf` holding
    `tmp_buf` at the start. -/
def stateAt (mem : Nat → UInt8) (p len : Nat) (tmp_buf : UInt64) (k : Nat) : ReadState :=
  (fun st => (cudaReadStringUnaligned64 mem (p + len) st).2)^[k] ⟨true, tmp_buf, p⟩

theorem stateAt_succ (mem : Nat → UInt8) (p len : Nat) (tmp_buf : UInt64) (k : Nat) :
    stateAt mem p len tmp_buf (k + 1) = (cudaReadStringUnaligned64 mem (p + len) (stateAt mem p len tmp_buf k)).2 :=
  Function.iterate_succ_apply' _ _ _

/-- Before call `k` the pointer is `8 * k` bytes on, or at the end, and while words are left the
    state is `Ready`. -/
theorem stateAt_spec (mem : Nat → UInt8) (p len : Nat) (tmp_buf : UInt64) :
    ∀ k, k ≤ wordsNum len →
      (stateAt mem p len tmp_buf k).ptr_curr = min (p + 8 * k) (p + len) ∧
        (k < wordsNum len → Ready mem (p + len) (stateAt mem p len tmp_buf k)) := by
  intro k
  induction k with
  | zero =>
    intro _
    refine ⟨by simp [stateAt], fun hk => ⟨?_, fun h => absurd h Bool.noConfusion⟩⟩
    simp only [wordsNum] at hk
    simp only [stateAt, Function.iterate_zero, id]
    omega
  | succ k ih =>
    intro hk
    obtain ⟨hptr, -⟩ := ih (by omega)
    have hk8 : 8 * k < len := by simp only [wordsNum] at hk; omega
    rw [stateAt_succ]
    refine ⟨?_, fun hk' => ready_cudaReadStringUnaligned64 ?_⟩
    · rw [ptr_curr_cudaReadStringUnaligned64, hptr]
      split_ifs <;> omega
    · simp only [wordsNum] at hk'
      omega

/-- After every word the loop has reached the end. -/
theorem ptr_curr_stateAt_wordsNum (mem : Nat → UInt8) (p len : Nat) (tmp_buf : UInt64) :
    (stateAt mem p len tmp_buf (wordsNum len)).ptr_curr = p + len := by
  rw [(stateAt_spec mem p len tmp_buf _ le_rfl).1]
  simp only [wordsNum]
  omega

/-- Call `k` of a loop over the `len` bytes at `p` returns the `k`-th word of the string, as
    `StringsHashTable` reads it: the aligned loads, the shifts and the mask give the bytes
    `[8k, 8k + 8)` of the string, whatever the alignment of `p`. -/
theorem cudaReadStringUnaligned64_refines (mem : Nat → UInt8) (p len : Nat) (tmp_buf : UInt64) {k : Nat}
    (hk : k < wordsNum len) :
    (cudaReadStringUnaligned64 mem (p + len) (stateAt mem p len tmp_buf k)).1.toNat =
      readStringUnaligned64 mem p len k := by
  obtain ⟨hptr, hready⟩ := stateAt_spec mem p len tmp_buf k hk.le
  have hk8 : 8 * k < len := by simp only [wordsNum] at hk; omega
  rw [toNat_cudaReadStringUnaligned64 (hready hk), hptr, readStringUnaligned64]
  congr 2 <;> omega

/-- The word call `k` returns, as a `UInt64`. -/
theorem cudaReadStringUnaligned64_stateAt (mem : Nat → UInt8) (p len : Nat) (tmp_buf : UInt64) {k : Nat}
    (hk : k < wordsNum len) :
    (cudaReadStringUnaligned64 mem (p + len) (stateAt mem p len tmp_buf k)).1 =
      UInt64.ofNat (readStringUnaligned64 mem p len k) := by
  rw [← cudaReadStringUnaligned64_refines mem p len tmp_buf hk, UInt64.ofNat_toNat]

/-! ## `cudaMurmurHash64` -/

/-- The loop `while (data != end)` of `cudaMurmurHash64`: a round of `murmurRound` per word,
    the word whole when eight bytes were left before it was read. -/
def hashLoop (mem : Nat → UInt8) (ptr_end : Nat) (st : ReadState) (h : UInt64) : UInt64 :=
  if st.ptr_curr = ptr_end then h
  else
    let is_complete_uint64 := decide (ptr_end - st.ptr_curr ≥ 8)
    let v := cudaReadStringUnaligned64 mem ptr_end st
    hashLoop mem ptr_end v.2 (murmurRound h v.1 is_complete_uint64)
termination_by ptr_end - st.ptr_curr + (if st.ptr_curr = ptr_end then 0 else 1)
decreasing_by exact measure_cudaReadStringUnaligned64_lt ‹_›

/-- `cudaMurmurHash64(s, len, seed)` on device memory; `tmp_buf` is whatever the uninitialized
    variable holds. -/
def cudaMurmurHash64 (mem : Nat → UInt8) (s : Nat) (len seed : UInt32) (tmp_buf : UInt64) : UInt64 :=
  let h := seed.toUInt64 ^^^ (len.toUInt64 * murmurM)
  let h := hashLoop mem (s + len.toNat) ⟨true, tmp_buf, s⟩ h
  let h := h ^^^ (h >>> 47)
  let h := h * murmurM
  h ^^^ (h >>> 47)

/-- From word `j` on, the loop folds the words left into `h`. -/
theorem hashLoop_stateAt (mem : Nat → UInt8) (p len : Nat) (t : UInt64) :
    ∀ n j h, j + n = wordsNum len →
      hashLoop mem (p + len) (stateAt mem p len t j) h =
        (List.range' j n).foldl
          (fun h k => murmurRound h (UInt64.ofNat (readStringUnaligned64 mem p len k)) (decide (8 ≤ len - 8 * k))) h := by
  intro n
  induction n with
  | zero =>
    intro j h hj
    rw [hashLoop, if_pos (by rw [show j = wordsNum len by omega, ptr_curr_stateAt_wordsNum])]
    rfl
  | succ n ih =>
    intro j h hj
    have hlt : j < wordsNum len := by omega
    have hptr := (stateAt_spec mem p len t j hlt.le).1
    have hj8 : 8 * j < len := by simp only [wordsNum] at hlt; omega
    have hne : (stateAt mem p len t j).ptr_curr ≠ p + len := by omega
    -- the word is whole exactly when eight bytes are left before it
    have hwhole : decide (p + len - (stateAt mem p len t j).ptr_curr ≥ 8) = decide (8 ≤ len - 8 * j) := by
      rw [hptr]
      exact decide_eq_decide.mpr (by omega)
    rw [hashLoop, if_neg hne]
    simp only
    rw [hwhole, ← stateAt_succ, cudaReadStringUnaligned64_stateAt mem p len t hlt, ih (j + 1) _ (by omega),
      List.range'_succ, List.foldl_cons]

/-- The device hash of the `len` bytes at `s` is the hash `StringsAggregator` takes of those
    bytes, wherever they lie and whatever `tmp_buf` held: two equal strings hash alike at any
    addresses and alignments. -/
theorem cudaMurmurHash64_refines (mem : Nat → UInt8) (s : Nat) (len seed : UInt32) (tmp_buf : UInt64) :
    cudaMurmurHash64 mem s len seed tmp_buf = StringsAggregator.cudaMurmurHash64 (load mem s len.toNat) seed := by
  -- the model's `k`-th word, taken from the bytes, is the reader's
  have hword : (fun h k => murmurRound h (UInt64.ofNat (leValue (((load mem s len.toNat).drop (8 * k)).take 8)))
        (decide (8 ≤ len.toNat - 8 * k))) =
      fun h k => murmurRound h (UInt64.ofNat (readStringUnaligned64 mem s len.toNat k)) (decide (8 ≤ len.toNat - 8 * k)) := by
    funext h k
    rw [drop_load, take_load, readStringUnaligned64, Nat.min_comm]
  have hloop := hashLoop_stateAt mem s len.toNat tmp_buf (wordsNum len.toNat) 0
    (seed.toUInt64 ^^^ (len.toUInt64 * murmurM)) (Nat.zero_add _)
  simp only [stateAt, Function.iterate_zero, id] at hloop
  simp only [cudaMurmurHash64, StringsAggregator.cudaMurmurHash64, length_load, UInt32.ofNat_toNat, hword, hloop,
    List.range_eq_range']

/-! ## The comparison loop of `kerAddData` -/

/-- The loop `while (data != end)` of `kerAddData` that compares the string at `data` with the
    bucket's at `data_next`: both are read a word at a time, in step, and `hit` is cleared at
    every word that differs. -/
def compareLoop (mem : Nat → UInt8) (ptr_end ptr_end_next : Nat) (st st_next : ReadState) (hit : Bool) : Bool :=
  if st.ptr_curr = ptr_end then hit
  else
    let v := cudaReadStringUnaligned64 mem ptr_end st
    let v_next := cudaReadStringUnaligned64 mem ptr_end_next st_next
    compareLoop mem ptr_end ptr_end_next v.2 v_next.2 (if v.1 ≠ v_next.1 then false else hit)
termination_by ptr_end - st.ptr_curr + (if st.ptr_curr = ptr_end then 0 else 1)
decreasing_by exact measure_cudaReadStringUnaligned64_lt ‹_›

/-- From word `j` on, the loop keeps `hit` when each word left agrees with the other string's. -/
theorem compareLoop_stateAt (mem : Nat → UInt8) (data data_next len : Nat) (t t_next : UInt64) :
    ∀ n j hit, j + n = wordsNum len →
      compareLoop mem (data + len) (data_next + len) (stateAt mem data len t j)
          (stateAt mem data_next len t_next j) hit =
        (hit && (List.range' j n).all fun k =>
          readStringUnaligned64 mem data len k == readStringUnaligned64 mem data_next len k) := by
  intro n
  induction n with
  | zero =>
    -- every word is read: the pointer is at the end
    intro j hit hj
    rw [compareLoop, if_pos (by rw [show j = wordsNum len by omega, ptr_curr_stateAt_wordsNum])]
    simp
  | succ n ih =>
    intro j hit hj
    have hlt : j < wordsNum len := by omega
    have hptr := (stateAt_spec mem data len t j hlt.le).1
    have hne : (stateAt mem data len t j).ptr_curr ≠ data + len := by
      rw [hptr]
      simp only [wordsNum] at hlt
      omega
    rw [compareLoop, if_neg hne]
    simp only
    rw [← stateAt_succ, ← stateAt_succ, ih (j + 1) _ (by omega), cudaReadStringUnaligned64_stateAt mem _ _ _ hlt,
      cudaReadStringUnaligned64_stateAt mem _ _ _ hlt, List.range'_succ, List.all_cons]
    -- a word differs as a `UInt64` exactly when it differs as a number below `2 ^ 64`
    have hinj : (UInt64.ofNat (readStringUnaligned64 mem data len j) ≠
        UInt64.ofNat (readStringUnaligned64 mem data_next len j)) ↔
        readStringUnaligned64 mem data len j ≠ readStringUnaligned64 mem data_next len j := by
      rw [← cudaReadStringUnaligned64_stateAt mem _ _ t hlt, ← cudaReadStringUnaligned64_stateAt mem _ _ t_next hlt,
        Ne, Ne, ← UInt64.toNat_inj, cudaReadStringUnaligned64_refines mem data len t hlt,
        cudaReadStringUnaligned64_refines mem data_next len t_next hlt]
    by_cases heq : readStringUnaligned64 mem data len j = readStringUnaligned64 mem data_next len j
    · rw [if_neg (hinj.not.mpr (not_not.mpr heq)), heq]
      simp
    · rw [if_pos (hinj.mpr heq)]
      simp [heq]

/-- The comparison loop of `kerAddData` keeps `hit` exactly when the two strings are equal,
    whatever their alignments and whatever the two `tmp_buf`s held. -/
theorem compareLoop_iff (mem : Nat → UInt8) (data data_next len : Nat) (t t_next : UInt64) :
    compareLoop mem (data + len) (data_next + len) ⟨true, t, data⟩ ⟨true, t_next, data_next⟩ true = true ↔
      load mem data len = load mem data_next len := by
  have h := compareLoop_stateAt mem data data_next len t t_next (wordsNum len) 0 true (Nat.zero_add _)
  simp only [stateAt, Function.iterate_zero, id, Bool.true_and] at h
  rw [h, ← List.range_eq_range', ← compareStrings_iff]
  rfl

/-! ## The copy loop of `kerCopyAddedStrings` -/

/-- The loop `while (data != end)` of `kerCopyAddedStrings`: each word read is stored at
    `data_res`, a `UInt64 *` that then moves on by one word. -/
def copyLoop (mem : Nat → UInt8) (ptr_end : Nat) (st : ReadState) (data_res : Nat) : Nat → UInt8 :=
  if st.ptr_curr = ptr_end then mem
  else
    let v := cudaReadStringUnaligned64 mem ptr_end st
    copyLoop (store mem data_res (leBytes 8 v.1.toNat)) ptr_end v.2 (data_res + 8)
termination_by ptr_end - st.ptr_curr + (if st.ptr_curr = ptr_end then 0 else 1)
decreasing_by exact measure_cudaReadStringUnaligned64_lt ‹_›

section Copy

variable (mem : Nat → UInt8) {data data_res len : Nat} (t : UInt64)

/-- The destination lies outside the aligned words that hold the source. -/
def OutsideSource (data data_res len : Nat) : Prop :=
  data_res + 8 * wordsNum len ≤ data / 8 * 8 ∨ (data + len + 7) / 8 * 8 ≤ data_res

/-- The words copied so far have left the aligned words of the source as they were. -/
theorem copyWords_source (hdis : OutsideSource data data_res len) {j : Nat} (hj : j ≤ wordsNum len) :
    ∀ a, data / 8 * 8 ≤ a → a < (data + len + 7) / 8 * 8 → copyWords data data_res len j mem a = mem a := by
  intro a ha1 ha2
  rw [copyWords_eq mem (by unfold OutsideSource at hdis; omega) j hj]
  exact store_of_disjoint _ (by simp only [length_paddedBytes]; unfold OutsideSource at hdis; omega)

/-- From word `j` on, the loop finishes the copy that `copyWords` has made of the first `j`. -/
theorem copyLoop_stateAt (hdis : OutsideSource data data_res len) :
    ∀ n j, j + n = wordsNum len →
      copyLoop (copyWords data data_res len j mem) (data + len) (stateAt mem data len t j) (data_res + 8 * j) =
        copyWords data data_res len (wordsNum len) mem := by
  intro n
  induction n with
  | zero =>
    intro j hj
    rw [copyLoop, if_pos (by rw [show j = wordsNum len by omega, ptr_curr_stateAt_wordsNum]),
      show j = wordsNum len by omega]
  | succ n ih =>
    intro j hj
    have hlt : j < wordsNum len := by omega
    have hptr := (stateAt_spec mem data len t j hlt.le).1
    have hj8 : 8 * j < len := by simp only [wordsNum] at hlt; omega
    have hne : (stateAt mem data len t j).ptr_curr ≠ data + len := by omega
    -- the read sees the source as it was, so it is the read of the original memory
    have hread : cudaReadStringUnaligned64 (copyWords data data_res len j mem) (data + len) (stateAt mem data len t j) =
        cudaReadStringUnaligned64 mem (data + len) (stateAt mem data len t j) :=
      cudaReadStringUnaligned64_congr (by omega) fun a ha1 ha2 =>
        copyWords_source mem hdis hlt.le a (by omega) ha2
    have hword : readStringUnaligned64 (copyWords data data_res len j mem) data len j =
        readStringUnaligned64 mem data len j := by
      rw [readStringUnaligned64, readStringUnaligned64, load_congr fun k hk =>
        copyWords_source mem hdis hlt.le _ (by omega) (by omega)]
    rw [copyLoop, if_neg hne]
    simp only
    rw [hread, ← stateAt_succ, cudaReadStringUnaligned64_refines mem data len t hlt, ← hword,
      show data_res + 8 * j + 8 = data_res + 8 * (j + 1) by omega]
    exact ih (j + 1) (by omega)

/-- The copy loop of `kerCopyAddedStrings` leaves the memory that `copyWords` describes: the
    string's words, padded with zeros to whole words, from `data_res` on, and nothing else
    changed, when the destination lies outside the aligned words of the source. -/
theorem copyLoop_eq_copyWords (hdis : OutsideSource data data_res len) :
    copyLoop mem (data + len) ⟨true, t, data⟩ data_res = copyWords data data_res len (wordsNum len) mem := by
  have h := copyLoop_stateAt mem t hdis (wordsNum len) 0 (Nat.zero_add _)
  rwa [Nat.mul_zero, Nat.add_zero] at h

/-- Five bytes at 3 copied to 16, past the aligned word `[0, 8)` that holds them. -/
theorem copyLoop_eq_copyWords_five_bytes :
    OutsideSource 3 16 5 ∧
      copyLoop (fun a => a.toUInt8) (3 + 5) ⟨true, 0, 3⟩ 16 = copyWords 3 16 5 (wordsNum 5) (fun a => a.toUInt8) :=
  ⟨Or.inr (by decide), copyLoop_eq_copyWords _ 0 (Or.inr (by decide))⟩

end Copy

end ClickHouseGpu.Cuda.ReadUnaligned
