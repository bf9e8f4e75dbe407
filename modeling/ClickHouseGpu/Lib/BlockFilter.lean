import Mathlib.Data.List.Basic
import Mathlib.Tactic.Ring

/-
  Blocked filter loops. A filter over rows reads its filter bytes `w` at a time through one
  SIMD comparison per lane (`lane`), skips a block when no lane passes, takes it whole when
  every lane passes, and otherwise tests the block's rows one by one (`row`); the rows after
  the last full block are tested one by one. When `lane` and `row` differ on some byte, which
  rows are taken depends on where the byte sits, and `keep` says exactly which.

  Proved:
  - `movemask_eq_zero_iff`, `movemask_eq_full_iff`, `popcount_movemask`: the lane mask is
    empty, full, and counted, as its lanes say.
  - `blocks_eq`, `filterLoop_eq`: the blocked loop does what the row loop does over `keep`,
    provided taking a block whole is taking its rows one by one.
  - `keep_eq_map`: where `lane` and `row` agree, `keep` is the row test itself.
-/

namespace BlockFilter

/-! ## Lane masks -/

variable {β σ : Type}

/-- `movemask`: lane `i`'s result as bit `i`. -/
def movemask : List Bool → Nat
  | [] => 0
  | b :: bs => b.toNat + 2 * movemask bs

theorem movemask_lt : ∀ bs : List Bool, movemask bs < 2 ^ bs.length
  | [] => by simp [movemask]
  | b :: bs => by
    have ih := movemask_lt bs
    have hb := Bool.toNat_le b
    simp only [movemask, List.length_cons, Nat.pow_succ]
    omega

theorem movemask_eq_zero_iff : ∀ {bs : List Bool}, movemask bs = 0 ↔ ∀ b ∈ bs, b = false
  | [] => by simp [movemask]
  | b :: bs => by
    cases b with
    | false => simp [movemask, movemask_eq_zero_iff]
    | true => simp [movemask]

theorem movemask_eq_full_iff : ∀ {bs : List Bool}, movemask bs = 2 ^ bs.length - 1 ↔ ∀ b ∈ bs, b = true
  | [] => by simp [movemask]
  | b :: bs => by
    have hlt := movemask_lt bs
    have hpos : 0 < 2 ^ bs.length := Nat.two_pow_pos _
    have ih : movemask bs = 2 ^ bs.length - 1 ↔ ∀ b ∈ bs, b = true := movemask_eq_full_iff
    cases b with
    | false =>
      -- an even number is never `2 ^ (k + 1) - 1`
      simp only [movemask, Bool.toNat_false, List.length_cons, Nat.pow_succ, List.mem_cons, forall_eq_or_imp,
        Bool.false_eq_true, false_and, iff_false]
      omega
    | true =>
      simp only [movemask, Bool.toNat_true, List.length_cons, Nat.pow_succ, List.mem_cons, forall_eq_or_imp,
        true_and, ← ih]
      omega

theorem movemask_map_eq_zero_iff {l : List β} {p : β → Bool} : movemask (l.map p) = 0 ↔ l.all (fun b => !p b) = true := by
  rw [movemask_eq_zero_iff]
  simp [List.all_eq_true]

theorem movemask_map_eq_full_iff {l : List β} {p : β → Bool} {w : Nat} (hw : l.length = w) :
    movemask (l.map p) = 2 ^ w - 1 ↔ l.all p = true := by
  have h : movemask (l.map p) = 2 ^ (l.map p).length - 1 ↔ ∀ b ∈ l.map p, b = true :=
    movemask_eq_full_iff
  rw [List.length_map, hw] at h
  rw [h]
  simp [List.all_eq_true]

theorem movemask_append : ∀ xs ys : List Bool, movemask (xs ++ ys) = movemask xs + 2 ^ xs.length * movemask ys
  | [], ys => by simp [movemask]
  | x :: xs, ys => by
    simp only [List.cons_append, movemask, movemask_append xs ys, List.length_cons, Nat.pow_succ]
    ring

/-- `__builtin_popcount` over the low `k` bits. -/
def popcount : Nat → Nat → Nat
  | 0, _ => 0
  | k + 1, n => n % 2 + popcount k (n / 2)

theorem popcount_zero : ∀ k, popcount k 0 = 0
  | 0 => rfl
  | k + 1 => by simp [popcount, popcount_zero k]

theorem popcount_movemask : ∀ {k : Nat} {bs : List Bool}, bs.length ≤ k → popcount k (movemask bs) = bs.count true
  | k, [], _ => by simp [movemask, popcount_zero]
  | 0, _ :: _, h => by simp at h
  | k + 1, b :: bs, h => by
    have hk : bs.length ≤ k := by simp at h; omega
    have ih : popcount k (movemask bs) = bs.count true := popcount_movemask hk
    have hb := Bool.toNat_le b
    have hmod : (b.toNat + 2 * movemask bs) % 2 = b.toNat := by omega
    have hdiv : (b.toNat + 2 * movemask bs) / 2 = movemask bs := by omega
    simp only [popcount, movemask, hmod, hdiv, ih]
    cases b with
    | false => simp
    | true => simp only [Bool.toNat_true, List.count_cons_self]; omega

/-! ## The loops -/

/-- The row loop over the filter bytes `bytes` of rows `i, i + 1, ...`: row `i` is taken when
    `row` holds of its byte. -/
def rowsLoop (row : β → Bool) (takeOne : Nat → σ → σ) : List β → Nat → σ → σ
  | [], _, s => s
  | b :: bs, i, s => rowsLoop row takeOne bs (i + 1) (if row b then takeOne i s else s)

/-- The blocked loop: `n` blocks of `w` bytes from row `i`, then the rest row by row. -/
def blocks (lane row : β → Bool) (w : Nat) (takeAll takeOne : Nat → σ → σ) : Nat → List β → Nat → σ → σ
  | 0, bytes, i, s => rowsLoop row takeOne bytes i s
  | n + 1, bytes, i, s =>
    let block := bytes.take w
    let mask := movemask (block.map lane)
    let s := if mask = 0 then s else if mask = 2 ^ w - 1 then takeAll i s else rowsLoop row takeOne block i s
    blocks lane row w takeAll takeOne n (bytes.drop w) (i + w) s

/-- The loop over a whole filter: its full blocks, then its tail. -/
def filterLoop (lane row : β → Bool) (w : Nat) (takeAll takeOne : Nat → σ → σ) (filt : List β) (s : σ) : σ :=
  blocks lane row w takeAll takeOne (filt.length / w) filt 0 s

/-- The rows the blocked loop takes: none of a block whose lanes all fail, all of a block
    whose lanes all pass, and by `row` the rows of the other blocks and of the tail. -/
def keep (lane row : β → Bool) (w : Nat) : Nat → List β → List Bool
  | 0, bytes => bytes.map row
  | n + 1, bytes =>
    let block := bytes.take w
    (if block.all (fun b => !lane b) then block.map (fun _ => false)
      else if block.all lane then block.map (fun _ => true) else block.map row) ++ keep lane row w n (bytes.drop w)

section RowsLoop

variable (takeOne : Nat → σ → σ)

theorem rowsLoop_append (xs ys : List Bool) (i : Nat) (s : σ) :
    rowsLoop id takeOne (xs ++ ys) i s = rowsLoop id takeOne ys (i + xs.length) (rowsLoop id takeOne xs i s) := by
  induction xs generalizing i s with
  | nil => rfl
  | cons x xs ih =>
    simp only [List.cons_append, rowsLoop, ih, List.length_cons]
    congr 1
    omega

theorem rowsLoop_map (row : β → Bool) (bytes : List β) (i : Nat) (s : σ) :
    rowsLoop row takeOne bytes i s = rowsLoop id takeOne (bytes.map row) i s := by
  induction bytes generalizing i s with
  | nil => rfl
  | cons b bs ih => simp only [rowsLoop, ih, List.map_cons, id]

theorem rowsLoop_false (bytes : List β) (i : Nat) (s : σ) :
    rowsLoop id takeOne (bytes.map fun _ => false) i s = s := by
  induction bytes generalizing i with
  | nil => rfl
  | cons b bs ih =>
    simp only [List.map_cons, rowsLoop, id, Bool.false_eq_true, if_false]
    exact ih (i + 1)

theorem rowsLoop_true (bytes : List β) (i : Nat) (s : σ) :
    rowsLoop id takeOne (bytes.map fun _ => true) i s = rowsLoop id takeOne (List.replicate bytes.length true) i s := by
  rw [List.map_const']

end RowsLoop

section Invariant

/-! ## The blocked loop against the row loop

`Inv i s` is what the state keeps before row `i`; taking or skipping a row keeps it, and
taking a block whole is taking its `w` rows one by one. -/

variable {lane row : β → Bool} {w : Nat} {takeAll takeOne : Nat → σ → σ} (Inv : Nat → σ → Prop) (total : Nat)
  (hone : ∀ i s, i < total → Inv i s → Inv (i + 1) (takeOne i s))
  (hskip : ∀ i s, i < total → Inv i s → Inv (i + 1) s)
  (hall : ∀ i s, i + w ≤ total → Inv i s → takeAll i s = rowsLoop id takeOne (List.replicate w true) i s)

include hone hskip in
theorem rowsLoop_inv : ∀ (ks : List Bool) (i : Nat) (s : σ), i + ks.length ≤ total → Inv i s →
    Inv (i + ks.length) (rowsLoop id takeOne ks i s)
  | [], i, s, _, h => by simpa [rowsLoop] using h
  | k :: ks, i, s, hle, h => by
    simp only [List.length_cons] at hle
    have hstep : Inv (i + 1) (if id k = true then takeOne i s else s) := by
      split
      · exact hone i s (by omega) h
      · exact hskip i s (by omega) h
    have := rowsLoop_inv ks (i + 1) _ (by omega) hstep
    simp only [rowsLoop, List.length_cons]
    rwa [show i + (ks.length + 1) = i + 1 + ks.length by omega]

include hall in
/-- One block: what the loop does with it is the row loop over the block's part of `keep`. -/
theorem block_eq (bytes : List β) (i : Nat) (s : σ) (hw : w ≤ bytes.length) (htotal : i + bytes.length = total)
    (h : Inv i s) :
    (let mask := movemask ((bytes.take w).map lane)
      if mask = 0 then s else if mask = 2 ^ w - 1 then takeAll i s else rowsLoop row takeOne (bytes.take w) i s) =
      rowsLoop id takeOne
        (if (bytes.take w).all (fun b => !lane b) then (bytes.take w).map (fun _ => false)
          else if (bytes.take w).all lane then (bytes.take w).map (fun _ => true) else (bytes.take w).map row) i s := by
  have hlen : (bytes.take w).length = w := by simp; omega
  by_cases hnone : movemask ((bytes.take w).map lane) = 0
  · -- no lane passes
    simp only [hnone, if_true, movemask_map_eq_zero_iff.mp hnone, rowsLoop_false]
  · have hsome := Bool.eq_false_iff.mpr (movemask_map_eq_zero_iff.not.mp hnone)
    by_cases hfull : movemask ((bytes.take w).map lane) = 2 ^ w - 1
    · -- every lane passes: the block is taken whole
      dsimp only
      rw [if_neg hnone, if_pos hfull]
      simp only [hsome, (movemask_map_eq_full_iff hlen).mp hfull, Bool.false_eq_true, if_false, if_true,
        rowsLoop_true, hlen]
      exact hall i s (by omega) h
    · -- a mixed block: row by row
      have hnotall := Bool.eq_false_iff.mpr ((movemask_map_eq_full_iff hlen).not.mp hfull)
      dsimp only
      rw [if_neg hnone, if_neg hfull]
      simp only [hsome, hnotall, Bool.false_eq_true, if_false]
      exact rowsLoop_map takeOne row _ i s

include hone hskip hall in
/-- The blocked loop over `n` full blocks and a tail is the row loop over `keep`; the
    induction is on the blocks, each one closed by `block_eq`. -/
theorem blocks_eq : ∀ (n : Nat) (bytes : List β) (i : Nat) (s : σ), i + bytes.length = total →
    n * w ≤ bytes.length → Inv i s →
    blocks lane row w takeAll takeOne n bytes i s = rowsLoop id takeOne (keep lane row w n bytes) i s
  | 0, bytes, i, s, _, _, _ => rowsLoop_map takeOne row bytes i s
  | n + 1, bytes, i, s, htotal, hlen, h => by
    have hw : w ≤ bytes.length := by rw [Nat.succ_mul] at hlen; omega
    simp only [blocks, keep]
    rw [block_eq Inv total hall bytes i s hw htotal h, rowsLoop_append]
    have hkeep_len : ((if (bytes.take w).all (fun b => !lane b) then (bytes.take w).map (fun _ => false)
        else if (bytes.take w).all lane then (bytes.take w).map (fun _ => true)
        else (bytes.take w).map row)).length = w := by
      split_ifs <;> simp <;> omega
    rw [hkeep_len]
    apply blocks_eq n (bytes.drop w) (i + w)
    · simp; omega
    · simp; rw [Nat.succ_mul] at hlen; omega
    · have := rowsLoop_inv Inv total hone hskip _ i s (by rw [hkeep_len]; omega) h
      rwa [hkeep_len] at this

include hone hskip hall in
theorem filterLoop_eq (filt : List β) (s : σ) (htotal : filt.length = total) (h : Inv 0 s) :
    filterLoop lane row w takeAll takeOne filt s = rowsLoop id takeOne (keep lane row w (filt.length / w) filt) 0 s :=
  blocks_eq Inv total hone hskip hall _ filt 0 s (by omega) (Nat.div_mul_le_self _ _) h

end Invariant

theorem keep_length (lane row : β → Bool) (w : Nat) : ∀ (n : Nat) (bytes : List β),
    (keep lane row w n bytes).length = bytes.length
  | 0, bytes => by simp [keep]
  | n + 1, bytes => by
    simp only [keep, List.length_append, keep_length lane row w n]
    split_ifs <;> simp <;> omega

/-- Where the lane test and the row test agree, the blocked loop takes the rows the row
    test takes. -/
theorem keep_eq_map {lane row : β → Bool} (w : Nat) : ∀ (n : Nat) (bytes : List β), (∀ b ∈ bytes, lane b = row b) →
    keep lane row w n bytes = bytes.map row
  | 0, bytes, _ => rfl
  | n + 1, bytes, h => by
    have hrest := keep_eq_map w n (bytes.drop w) fun b hb => h b (List.mem_of_mem_drop hb)
    have htake : ∀ b ∈ bytes.take w, lane b = row b := fun b hb => h b (List.mem_of_mem_take hb)
    simp only [keep, hrest]
    conv_rhs => rw [← List.take_append_drop w bytes, List.map_append]
    congr 1
    split_ifs with hnone hall
    · apply List.map_congr_left
      intro b hb
      have := List.all_eq_true.mp hnone b hb
      rw [← htake b hb]
      simpa using this
    · apply List.map_congr_left
      intro b hb
      rw [← htake b hb]
      exact (List.all_eq_true.mp hall b hb).symm
    · rfl

/-! ## Rows taken by appending their values -/

section Select

variable {α : Type}

/-- The values of the rows a mask takes, in order. -/
def select : List Bool → List α → List α
  | [], _ => []
  | _, [] => []
  | k :: ks, x :: xs => if k then x :: select ks xs else select ks xs

/-- `count` values from `start`: what `memcpy` or `insert` copies. -/
def slice (xs : List α) (start count : Nat) : List α := (xs.drop start).take count

@[simp] theorem select_nil_right (ks : List Bool) : select ks ([] : List α) = [] := by
  cases ks <;> rfl

theorem select_map {γ : Type} (f : α → γ) : ∀ (ks : List Bool) (xs : List α), select ks (xs.map f) = (select ks xs).map f
  | [], _ => rfl
  | _ :: _, [] => rfl
  | k :: ks, x :: xs => by
    cases k <;> simp [select, select_map f ks xs]

theorem select_all_true : ∀ (xs : List α) (k : Nat), select (List.replicate k true) xs = xs.take k
  | [], k => by simp
  | _ :: _, 0 => rfl
  | x :: xs, k + 1 => by simp [List.replicate_succ, select, select_all_true xs k]

/-- Appending one piece per taken row appends the taken pieces. -/
theorem rowsLoop_appendRows (f : Nat → List α) : ∀ (ks : List Bool) (i : Nat) (res : List α),
    rowsLoop id (fun i res => res ++ f i) ks i res = res ++ (select ks ((List.range' i ks.length).map f)).flatten
  | [], i, res => by simp [rowsLoop, select]
  | k :: ks, i, res => by
    cases k with
    | false => simp [rowsLoop, select, List.range'_succ, rowsLoop_appendRows f ks (i + 1)]
    | true => simp [rowsLoop, select, List.range'_succ, rowsLoop_appendRows f ks (i + 1)]

/-- The pieces of `n` values of `k` consecutive rows are one slice. -/
theorem flatten_map_slice (xs : List α) (n : Nat) : ∀ (p k : Nat),
    ((List.range' p k).map fun i => slice xs (i * n) n).flatten = slice xs (p * n) (k * n)
  | p, 0 => by simp [slice]
  | p, k + 1 => by
    rw [List.range'_succ, List.map_cons, List.flatten_cons, flatten_map_slice xs n (p + 1) k]
    simp only [slice, Nat.succ_mul]
    rw [Nat.add_comm (k * n) n, List.take_add, List.drop_drop]

end Select

end BlockFilter
