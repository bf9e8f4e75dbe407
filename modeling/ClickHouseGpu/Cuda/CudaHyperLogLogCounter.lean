import ClickHouseGpu.Lib.Interleaving
import Mathlib.Algebra.BigOperators.Fin
import Mathlib.Algebra.Order.BigOperators.Group.List
import Mathlib.Algebra.Order.Field.Rat
import Mathlib.Tactic.FinCases
import Mathlib.Tactic.Ring

/-
  ClickHouseGpu.Cuda.CudaHyperLogLogCounter — `CudaHyperLogLogCounter<12>`'s rank store and its
  `StableIfBig` denominator, updated by GPU threads at once
  (dbms/src/Common/Cuda/CudaHyperLogLogCounter.h, CudaAtomics.cuh).

  A thread runs `insert(value)`s and `merge(rhs)`s; each is a list of calls of `update(bucket,
  rank)` (one for an insert, one per bucket for a merge), run in order. A call's atomic steps
  are those of the GPU: the read of the rank byte's word, each round of `atomicMax<UInt8>`'s
  `atomicCAS` loop (the `__byte_perm` work before it is the thread's own), the half-word
  `atomicSub` on `zeros`, and the `atomicSub` and `atomicAdd` on `rank_count`. Memory is taken
  byte by byte: a word is its four bytes, low first, and `rank_store` starts on a word. `zeros`
  is the low half of its word (it lies at offset 4184 of the counter); `rank_count` is indexed
  by any rank, the claim being that only `0 .. max_rank` are touched.

  The ghost `history` records the calls whose `atomicMax` has taken effect, in that order.
  `Counter.get` evaluates the denominator's sum exactly, in `ℚ`: its terms are multiples of
  `2^-21` below `2^13`, which `long double` holds exactly. `CudaIntHash32` is a parameter.

  Proved:
  - `atomicMax` is one atomic `max` on the byte: `bytePerm_extract`, `bytePerm_insert`.
  - `reachable_inv`: in every configuration any interleaving reaches from `initNonzeroData`,
    each byte is the largest rank of the calls applied to its bucket, `zeros` and each
    `rank_count[r]` count the buckets at 0 and at `r` once the calls in flight have moved their
    counts, and the calls still to take effect are those not in `history` (`Inv`).
  - `rank_histogram_invariant`: once every thread is done, the rank store, `zeros`, the
    histogram and `denominator.get()` are those of the largest ranks of the inserted values.
-/

namespace ClickHouseGpu.Cuda

namespace cuda_details

/-- Four bytes of memory, the low first. -/
abbrev Word := Fin 4 → UInt8

def zeroWord : Word := fun _ => 0

/-- An `unsigned int` that holds the byte `v`. -/
def ofByte (v : UInt8) : Word := fun n => if n = 0 then v else 0

/-- `__byte_perm(x, y, s)`: byte `n` of the result is byte `(s >> 4n) & 7` of the eight bytes of
    `y:x`, those of `x` first. -/
def bytePerm (x y : Word) (s : UInt32) : Word := fun n =>
  let k := ((s >>> (4 * n.val).toUInt32) &&& 7).toNat
  if h : k < 4 then x ⟨k, h⟩ else y ⟨(k - 4) % 4, Nat.mod_lt _ (by decide)⟩

/-- The `selectors` of `atomicMax<UInt8>`, by the byte's place in its word. -/
def selectors : Fin 4 → UInt32
  | 0 => 0x3214
  | 1 => 0x3240
  | 2 => 0x3410
  | 3 => 0x4210

/-- `__byte_perm(old, 0, (address & 3) | 0x4440)` reads the byte at `address`. -/
theorem bytePerm_extract (x : Word) (p : Fin 4) : bytePerm x zeroWord (p.val.toUInt32 ||| 0x4440) 0 = x p := by
  fin_cases p <;> rfl

/-- `__byte_perm(old, min_, selectors[address & 3])` writes `min_` over the byte at `address`. -/
theorem bytePerm_insert (x : Word) (p : Fin 4) (m : UInt8) : bytePerm x (ofByte m) (selectors p) = Function.update x p m := by
  funext n
  fin_cases p <;> fin_cases n <;> rfl

end cuda_details

open cuda_details Interleaving

def precision : Nat := 12

/-- `1ULL << precision`. -/
def bucket_count : Nat := 2 ^ precision

/-- `sizeof(HashValueType) * 8 - precision + 1`, with a `UInt32` hash. -/
def max_rank : Nat := 32 - precision + 1

/-- The rank store, the denominator's `rank_count`, the word of `zeros`, and the ghost
    `history`. -/
structure CudaHyperLogLogCounter where
  rank_store : Fin bucket_count → UInt8
  rank_count : Nat → UInt32
  zeros_word : UInt32
  history : List (Fin bucket_count × UInt8)

namespace CudaHyperLogLogCounter

/-- `initNonzeroData()` over zeroed memory. -/
def initNonzeroData : CudaHyperLogLogCounter :=
  ⟨fun _ => 0, fun r => if r = 0 then bucket_count.toUInt32 else 0, bucket_count.toUInt32, []⟩

/-- `zeros`, the low half of its word. -/
def zeros (c : CudaHyperLogLogCounter) : UInt16 := c.zeros_word.toUInt16

/-- The word of `rank_store` whose byte `k` is bucket `4 * w + k`. -/
def word (c : CudaHyperLogLogCounter) (w : Nat) : Word := fun k =>
  if h : 4 * w + k.val < bucket_count then c.rank_store ⟨4 * w + k.val, h⟩ else 0

/-- A write of the word `w` of `rank_store`. -/
def setWord (c : CudaHyperLogLogCounter) (w : Nat) (x : Word) : CudaHyperLogLogCounter :=
  { c with rank_store := fun b => if b.val / 4 = w then x ⟨b.val % 4, Nat.mod_lt _ (by decide)⟩ else c.rank_store b }

/-- The arguments `(bucket, rank)` of a call of `update`. -/
abbrev Upd := Fin bucket_count × UInt8

/-- Where a call of `update` is: none under way, before the read of its byte's word, in a round
    of `atomicMax` with the word it read, before the `atomicSub` on `zeros`, before the
    `atomicSub` on `rank_count[old_rank]`, before the `atomicAdd` on `rank_count[rank]`. -/
inductive Pc where
  | idle
  | read (u : Upd)
  | loop (u : Upd) (old : Word)
  | subZeros (u : Upd) (old_rank : UInt8)
  | subCount (u : Upd) (old_rank : UInt8)
  | addCount (u : Upd)
  deriving DecidableEq

/-- A thread: the calls of `update` still to start, and where the current one is. -/
structure Thread where
  todo : List Upd
  pc : Pc
  deriving DecidableEq

/-- `update` once `atomicMax` has returned `old_rank`. -/
def afterMax (u : Upd) (old_rank : UInt8) : Pc :=
  if u.2 > old_rank then
    if old_rank = 0 then .subZeros u old_rank else .subCount u old_rank
  else .idle

/-- The place of bucket `b` in its word: `address & 3`. -/
def place (b : Fin bucket_count) : Fin 4 := ⟨b.val % 4, Nat.mod_lt _ (by decide)⟩

/-- One atomic step of a thread. -/
def updateStep (c : CudaHyperLogLogCounter) (t : Thread) : CudaHyperLogLogCounter × Thread :=
  match t.pc with
  | .idle =>
    match t.todo with
    | [] => (c, t)
    | u :: rest => (c, ⟨rest, .read u⟩)
  | .read u => (c, ⟨t.todo, .loop u (c.word (u.1.val / 4))⟩)
  | .loop u old =>
    let cur := bytePerm old zeroWord ((place u.1).val.toUInt32 ||| 0x4440) 0
    let new_ := bytePerm old (ofByte (max u.2 cur)) (selectors (place u.1))
    if new_ = old then ({ c with history := c.history ++ [u] }, ⟨t.todo, afterMax u cur⟩)
    else if c.word (u.1.val / 4) = old then
      -- the `atomicCAS` finds the word it read: `atomicMax` returns `cur`
      ({ c.setWord (u.1.val / 4) new_ with history := c.history ++ [u] }, ⟨t.todo, afterMax u cur⟩)
    else (c, ⟨t.todo, .loop u (c.word (u.1.val / 4))⟩)
  | .subZeros u old_rank => ({ c with zeros_word := c.zeros_word - 1 }, ⟨t.todo, .subCount u old_rank⟩)
  | .subCount u old_rank =>
    ({ c with rank_count := Function.update c.rank_count old_rank.toNat (c.rank_count old_rank.toNat - 1) },
      ⟨t.todo, .addCount u⟩)
  | .addCount u =>
    ({ c with rank_count := Function.update c.rank_count u.2.toNat (c.rank_count u.2.toNat + 1) }, ⟨t.todo, .idle⟩)

/-! ## `insert`, `merge` and `get` -/

/-- `extractBitSequence(val, begin, end)`: the bits `begin .. end - 1` of `val`. -/
def extractBitSequence (val : UInt32) (begin end_ : Nat) : UInt32 :=
  ((val >>> begin.toUInt32).toUInt64 &&& (((1 : UInt64) <<< (end_ - begin).toUInt64) - 1)).toUInt32

theorem extractBitSequence_bucket_lt (val : UInt32) : (extractBitSequence val 0 precision).toNat < bucket_count := by
  have h : (((val >>> (0 : Nat).toUInt32).toUInt64 &&& (((1 : UInt64) <<< (precision - 0).toUInt64) - 1))).toNat ≤ 4095 := by
    rw [UInt64.toNat_and]
    exact Nat.and_le_right
  unfold extractBitSequence bucket_count precision
  rw [UInt64.toNat_toUInt32]
  unfold precision at h
  omega

/-- The place of the lowest set bit of `v`, from 0. -/
def trailingZeros (v : UInt32) : Nat := ((List.range 32).find? fun i => v.toNat.testBit i).getD 32

/-- `__ffs(v)`: the place of the lowest set bit, from 1; 0 for 0. -/
def ffs (v : UInt32) : Nat := if v = 0 then 0 else trailingZeros v + 1

/-- `calculateRank`: the trailing zeros plus one, at most `max_rank`. -/
def calculateRank (val : UInt32) : UInt8 :=
  if val = 0 then max_rank.toUInt8
  else
    let zeros_plus_one := ffs val - 1 + 1
    if zeros_plus_one > max_rank then max_rank.toUInt8 else zeros_plus_one.toUInt8

theorem calculateRank_le (val : UInt32) : (calculateRank val).toNat ≤ max_rank := by
  unfold calculateRank
  split
  · exact Nat.le_of_eq rfl
  · dsimp only
    split
    · exact Nat.le_of_eq rfl
    · rename_i h
      rw [Nat.toUInt8_eq, UInt8.toNat_ofNat']
      unfold max_rank precision at h ⊢
      omega

/-- The call of `update` that `insert(value)` makes: the hash's low `precision` bits choose the
    bucket, the rest give the rank. -/
def insertUpd (getHash : UInt64 → UInt32) (value : UInt64) : Upd :=
  let hash := getHash value
  (⟨(extractBitSequence hash 0 precision).toNat, extractBitSequence_bucket_lt hash⟩,
    calculateRank (extractBitSequence hash precision 32))

/-- The rank store of a counter merged in, whose ranks are at most `max_rank`. -/
structure RankStore where
  ranks : Fin bucket_count → UInt8
  le_max_rank : ∀ b, (ranks b).toNat ≤ max_rank

inductive Op where
  | insert (value : UInt64)
  | merge (rhs : RankStore)

/-- The calls of `update` an operation makes, in order. -/
def Op.updates (getHash : UInt64 → UInt32) : Op → List Upd
  | .insert value => [insertUpd getHash value]
  | .merge rhs => (List.finRange bucket_count).map fun b => (b, rhs.ranks b)

theorem Op.le_max_rank (getHash : UInt64 → UInt32) (op : Op) : ∀ u ∈ op.updates getHash, u.2.toNat ≤ max_rank := by
  intro u hu
  cases op with
  | insert value =>
    rw [Op.updates, List.mem_singleton] at hu
    rw [hu]
    exact calculateRank_le _
  | merge rhs =>
    obtain ⟨b, _, rfl⟩ := List.mem_map.mp hu
    exact rhs.le_max_rank b

/-- Threads running the operations `ops`, on a counter fresh from `initNonzeroData`. -/
def init (getHash : UInt64 → UInt32) (threads : List (List Op)) : Config CudaHyperLogLogCounter Thread :=
  ⟨initNonzeroData, threads.map fun ops => ⟨ops.flatMap (Op.updates getHash), .idle⟩⟩

/-- `Denominator::get()`: from `rank_count[max_rank]` down, halve and add the next count. -/
def get (c : CudaHyperLogLogCounter) : ℚ :=
  (List.range max_rank).reverse.foldl (fun val i => val / 2 + (c.rank_count i).toNat) (c.rank_count max_rank).toNat

/-! ## What the calls add up to -/

/-- The largest rank of the calls `l` for bucket `b`, 0 if none. -/
def maxRank (l : List Upd) (b : Fin bucket_count) : Nat :=
  (l.filter fun u => u.1 = b).foldl (fun m u => max m u.2.toNat) 0

/-- The buckets at rank `r`. -/
def countOf (c : CudaHyperLogLogCounter) (r : Nat) : Nat :=
  (Finset.univ.filter fun b => (c.rank_store b).toNat = r).card

namespace Thread

/-- The calls whose `atomicMax` has not taken effect. -/
def remaining (t : Thread) : List Upd :=
  match t.pc with
  | .read u | .loop u _ => u :: t.todo
  | _ => t.todo

/-- The decrement of `zeros` the thread still owes. -/
def owesZeros (t : Thread) : Nat :=
  match t.pc with
  | .subZeros _ _ => 1
  | _ => 0

/-- The decrement of `rank_count[r]` the thread still owes. -/
def owesSub (t : Thread) (r : Nat) : Nat :=
  match t.pc with
  | .subZeros _ old_rank | .subCount _ old_rank => if old_rank.toNat = r then 1 else 0
  | _ => 0

/-- The increment of `rank_count[r]` the thread still owes. -/
def owesAdd (t : Thread) (r : Nat) : Nat :=
  match t.pc with
  | .subZeros u _ | .subCount u _ | .addCount u => if u.2.toNat = r then 1 else 0
  | _ => 0

/-- A thread in `atomicMax` read no byte above what memory holds. -/
def Ok (c : CudaHyperLogLogCounter) (t : Thread) : Prop :=
  match t.pc with
  | .loop u old => ∀ k, old k ≤ c.word (u.1.val / 4) k
  | _ => True

end Thread

/-- The invariant of the running threads over the calls `jobs`. -/
structure Inv (jobs : List Upd) (cfg : Config CudaHyperLogLogCounter Thread) : Prop where
  perm : List.Perm (cfg.shared.history ++ cfg.threads.flatMap Thread.remaining) jobs
  rank : ∀ b, (cfg.shared.rank_store b).toNat = maxRank cfg.shared.history b
  zeros : cfg.shared.zeros_word.toNat = countOf cfg.shared 0 + (cfg.threads.map Thread.owesZeros).sum
  counts : ∀ r, ((cfg.shared.rank_count r).toNat + (cfg.threads.map (Thread.owesAdd · r)).sum) % 2 ^ 32 =
    (countOf cfg.shared r + (cfg.threads.map (Thread.owesSub · r)).sum) % 2 ^ 32
  ok : ∀ t ∈ cfg.threads, t.Ok cfg.shared

/-! ## Memory, ranks and counts -/

theorem word_place (c : CudaHyperLogLogCounter) (b : Fin bucket_count) :
    c.word (b.val / 4) (place b) = c.rank_store b := by
  have h : 4 * (b.val / 4) + b.val % 4 = b.val := Nat.div_add_mod b.val 4
  have hb := b.isLt
  unfold word place
  rw [dif_pos (by dsimp only; omega)]
  exact congrArg c.rank_store (Fin.ext h)

theorem word_mono {c c' : CudaHyperLogLogCounter} (hg : ∀ b, c.rank_store b ≤ c'.rank_store b) (w : Nat)
    (k : Fin 4) : c.word w k ≤ c'.word w k := by
  unfold word
  split
  · exact hg _
  · exact UInt8.le_refl _

/-- Writing back the word of bucket `b` with its byte replaced writes bucket `b` alone. -/
theorem setWord_update (c : CudaHyperLogLogCounter) (b : Fin bucket_count) (m : UInt8) :
    c.setWord (b.val / 4) (Function.update (c.word (b.val / 4)) (place b) m) =
      { c with rank_store := Function.update c.rank_store b m } := by
  unfold setWord
  congr 1
  funext x
  by_cases hx : x = b
  · subst hx
    simp only [if_true, Function.update_self]
    exact Function.update_self _ _ _
  · rw [Function.update_of_ne hx]
    split_ifs with hw
    · have hp : place x ≠ place b := by
        intro hp
        apply hx
        have h1 := Nat.div_add_mod x.val 4
        have h2 := Nat.div_add_mod b.val 4
        have h3 : x.val % 4 = b.val % 4 := congrArg Fin.val hp
        exact Fin.ext (by omega)
      show Function.update (c.word (b.val / 4)) (place b) m (place x) = _
      rw [Function.update_of_ne hp, ← hw]
      exact word_place c x
    · rfl

theorem maxRank_nil (b : Fin bucket_count) : maxRank [] b = 0 := rfl

theorem maxRank_append_singleton (l : List Upd) (u : Upd) (b : Fin bucket_count) :
    maxRank (l ++ [u]) b = if u.1 = b then max (maxRank l b) u.2.toNat else maxRank l b := by
  unfold maxRank
  rw [List.filter_append, List.foldl_append]
  by_cases h : u.1 = b <;> simp [h]

theorem maxRank_perm {l l' : List Upd} (h : l.Perm l') (b : Fin bucket_count) : maxRank l b = maxRank l' b := by
  apply (h.filter _).foldl_eq'
  intro x _ y _ z
  exact max_right_comm z x.2.toNat y.2.toNat

theorem maxRank_le {l : List Upd} (hl : ∀ u ∈ l, u.2.toNat ≤ max_rank) (b : Fin bucket_count) :
    maxRank l b ≤ max_rank := by
  induction l using List.reverseRecOn with
  | nil => exact Nat.zero_le _
  | append_singleton l u ih =>
    have hu := hl u (List.mem_append_right _ (List.mem_singleton_self u))
    have hl' := ih fun v hv => hl v (List.mem_append_left _ hv)
    rw [maxRank_append_singleton]
    split <;> omega

/-- Setting bucket `b` to `m` moves it from the count of its old rank to that of `m`. -/
theorem countOf_update {c c' : CudaHyperLogLogCounter} {b : Fin bucket_count} {m : UInt8}
    (h : c'.rank_store = Function.update c.rank_store b m) (r : Nat) :
    countOf c' r + (if (c.rank_store b).toNat = r then 1 else 0) = countOf c r + (if m.toNat = r then 1 else 0) := by
  have hrest : ∑ x ∈ Finset.univ.erase b, (if (Function.update c.rank_store b m x).toNat = r then 1 else 0) =
      ∑ x ∈ Finset.univ.erase b, (if (c.rank_store x).toNat = r then 1 else 0) := by
    refine Finset.sum_congr rfl fun x hx => ?_
    rw [Function.update_of_ne (Finset.ne_of_mem_erase hx)]
  simp only [countOf, Finset.card_filter, h]
  rw [← Finset.add_sum_erase _ _ (Finset.mem_univ b), ← Finset.add_sum_erase _ _ (Finset.mem_univ b), hrest,
    Function.update_self]
  omega

/-- `Denominator::get()`'s loop is Horner's rule for the halving sum. -/
theorem foldl_halve (f : Nat → ℚ) (a : ℚ) (n : Nat) :
    (List.range n).reverse.foldl (fun val i => val / 2 + f i) a = a / 2 ^ n + ∑ i ∈ Finset.range n, f i / 2 ^ i := by
  induction n generalizing a with
  | zero => simp
  | succ n ih =>
    rw [List.range_succ, List.reverse_append, List.reverse_singleton, List.singleton_append, List.foldl_cons, ih,
      Finset.sum_range_succ, pow_succ, add_div, div_div]
    ring

/-- The histogram's halving sum is the sum over the buckets of `2^-rank`. -/
theorem sum_countOf (c : CudaHyperLogLogCounter) (h : ∀ b, (c.rank_store b).toNat ≤ max_rank) :
    ∑ r ∈ Finset.range (max_rank + 1), (countOf c r : ℚ) / 2 ^ r = ∑ b, ((2 : ℚ) ^ (c.rank_store b).toNat)⁻¹ := by
  rw [← Finset.sum_fiberwise_of_maps_to (g := fun b => (c.rank_store b).toNat)
    (fun b _ => Finset.mem_range.mpr (Nat.lt_succ_of_le (h b)))]
  refine Finset.sum_congr rfl fun r _ => ?_
  rw [Finset.sum_congr rfl fun b hb => by rw [(Finset.mem_filter.mp hb).2], Finset.sum_const, nsmul_eq_mul,
    countOf, div_eq_mul_inv]

theorem max_eq_right_of_le {a b : UInt8} (h : a ≤ b) : max a b = b := by
  rw [UInt8.max_def, if_pos h]

theorem max_eq_left_of_lt {a b : UInt8} (h : b < a) : max a b = a := by
  rw [UInt8.max_def, if_neg (UInt8.not_le.mpr h)]

theorem le_of_max_eq {a b : UInt8} (h : max a b = b) : a ≤ b := by
  rw [UInt8.max_def] at h
  split_ifs at h with hab
  · exact hab
  · exact h ▸ UInt8.le_refl a

/-! ## One step

`Moves c t c' t'` says what a step from `c` and `t` to `c'` and `t'` does to each part of `Inv`:
the calls that take effect move from the thread to `history`, bytes only grow and stay the
largest rank applied to them, and what memory gains on `zeros` and `rank_count` the thread
owes in turn. -/

theorem Thread.ok_of_grows {c c' : CudaHyperLogLogCounter} (hg : ∀ b, c.rank_store b ≤ c'.rank_store b)
    {t : Thread} (h : t.Ok c) : t.Ok c' := by
  cases t with
  | mk todo pc =>
    cases pc with
    | loop u old => exact fun k => UInt8.le_trans (h k) (word_mono hg _ k)
    | _ => trivial

structure Moves (c : CudaHyperLogLogCounter) (t : Thread) (c' : CudaHyperLogLogCounter) (t' : Thread) : Prop where
  history : ∃ Δ, c'.history = c.history ++ Δ ∧ t.remaining = Δ ++ t'.remaining
  grows : ∀ b, c.rank_store b ≤ c'.rank_store b
  rank : ∀ b, (c'.rank_store b).toNat = maxRank c'.history b
  zeros : c'.zeros_word.toNat + t.owesZeros + countOf c 0 = c.zeros_word.toNat + t'.owesZeros + countOf c' 0
  counts : ∀ r, ((c'.rank_count r).toNat + t'.owesAdd r + countOf c r + t.owesSub r) % 2 ^ 32 =
    ((c.rank_count r).toNat + t.owesAdd r + countOf c' r + t'.owesSub r) % 2 ^ 32
  ok : t'.Ok c'

section Step

variable {c : CudaHyperLogLogCounter} (hrank : ∀ b, (c.rank_store b).toNat = maxRank c.history b)
include hrank

/-- A step of the thread alone, which leaves memory and what the thread owes as they are. -/
theorem moves_local {t t' : Thread} (hrem : t.remaining = t'.remaining) (hz : t.owesZeros = t'.owesZeros)
    (hs : ∀ r, t.owesSub r = t'.owesSub r) (ha : ∀ r, t.owesAdd r = t'.owesAdd r) (hok : t'.Ok c) :
    Moves c t c t' where
  history := ⟨[], (List.append_nil _).symm, hrem⟩
  grows _ := UInt8.le_refl _
  rank := hrank
  zeros := by omega
  counts r := by rw [hs r, ha r]
  ok := hok

/-- The round of `atomicMax` that finds the byte at `rank` or above returns without a write. -/
theorem moves_break (todo : List Upd) (u : Upd) (old : Word) (hok : ∀ k, old k ≤ c.word (u.1.val / 4) k)
    (hle : u.2 ≤ old (place u.1)) :
    Moves c ⟨todo, .loop u old⟩ { c with history := c.history ++ [u] } ⟨todo, afterMax u (old (place u.1))⟩ := by
  have hidle : afterMax u (old (place u.1)) = .idle := if_neg (UInt8.not_lt.mpr hle)
  have hstore : u.2.toNat ≤ (c.rank_store u.1).toNat := by
    rw [← word_place]
    exact UInt8.le_iff_toNat_le.mp (UInt8.le_trans hle (hok _))
  rw [hidle]
  refine ⟨⟨[u], rfl, rfl⟩, fun _ => UInt8.le_refl _, fun b => ?_, rfl, fun _ => rfl, trivial⟩
  dsimp only
  rw [maxRank_append_singleton, ← hrank b]
  split
  · rename_i hb
    subst hb
    omega
  · rfl

/-- The `atomicCAS` that raises bucket `u.1` from below to `u.2`. -/
theorem moves_raise (todo : List Upd) (u : Upd) (hlt : c.rank_store u.1 < u.2) :
    Moves c ⟨todo, .loop u (c.word (u.1.val / 4))⟩
      { c with rank_store := Function.update c.rank_store u.1 u.2, history := c.history ++ [u] }
      ⟨todo, afterMax u (c.rank_store u.1)⟩ := by
  have hlt' := UInt8.lt_iff_toNat_lt.mp hlt
  have hK : ∀ r, countOf { c with rank_store := Function.update c.rank_store u.1 u.2, history := c.history ++ [u] } r +
      (if (c.rank_store u.1).toNat = r then 1 else 0) = countOf c r + (if u.2.toNat = r then 1 else 0) :=
    countOf_update rfl
  have hgrows : ∀ b, c.rank_store b ≤ Function.update c.rank_store u.1 u.2 b := by
    intro b
    by_cases hb : b = u.1
    · subst hb
      rw [Function.update_self]
      exact UInt8.le_of_lt hlt
    · rw [Function.update_of_ne hb]
      exact UInt8.le_refl _
  have hrank' : ∀ b, (Function.update c.rank_store u.1 u.2 b).toNat = maxRank (c.history ++ [u]) b := by
    intro b
    rw [maxRank_append_singleton, ← hrank b]
    by_cases hb : u.1 = b
    · subst hb
      rw [if_pos rfl, Function.update_self]
      omega
    · rw [if_neg hb, Function.update_of_ne (Ne.symm hb)]
  have hz := hK 0
  rw [if_neg (by omega : u.2.toNat ≠ 0)] at hz
  unfold afterMax
  rw [if_pos hlt]
  -- the old rank was 0 (`zeros` to decrement first) or not
  split_ifs with h0
  · rw [h0, UInt8.toNat_zero, if_pos rfl] at hz
    refine ⟨⟨[u], rfl, rfl⟩, hgrows, hrank', ?_, fun r => ?_, trivial⟩
    · dsimp only [Thread.owesZeros]
      omega
    · have := hK r
      dsimp only [Thread.owesAdd, Thread.owesSub]
      omega
  · have h0' : (c.rank_store u.1).toNat ≠ 0 := fun h => h0 (UInt8.toNat_inj.mp h)
    rw [if_neg h0'] at hz
    refine ⟨⟨[u], rfl, rfl⟩, hgrows, hrank', ?_, fun r => ?_, trivial⟩
    · dsimp only [Thread.owesZeros]
      omega
    · have := hK r
      dsimp only [Thread.owesAdd, Thread.owesSub]
      omega

/-- A round of `atomicMax`: it returns, writes its byte, or reads the word again. -/
theorem moves_loop (todo : List Upd) (u : Upd) (old : Word) (hok : ∀ k, old k ≤ c.word (u.1.val / 4) k) :
    Moves c ⟨todo, .loop u old⟩ (updateStep c ⟨todo, .loop u old⟩).1 (updateStep c ⟨todo, .loop u old⟩).2 := by
  simp only [updateStep, bytePerm_extract, bytePerm_insert]
  split_ifs with hsame hcas
  · have hmax := congrFun hsame (place u.1)
    rw [Function.update_self] at hmax
    exact moves_break hrank todo u old hok (le_of_max_eq hmax)
  · subst hcas
    have hlt : c.word (u.1.val / 4) (place u.1) < u.2 := by
      refine UInt8.not_le.mp fun hle => hsame ?_
      rw [max_eq_right_of_le hle, Function.update_eq_self]
    rw [max_eq_left_of_lt hlt, setWord_update]
    rw [word_place] at hlt ⊢
    exact moves_raise hrank todo u hlt
  · exact moves_local hrank rfl rfl (fun _ => rfl) (fun _ => rfl) fun _ => UInt8.le_refl _

/-- Every step of a thread whose round of `atomicMax` read no byte above memory and which owes
    `zeros` no more than it holds. -/
theorem moves_updateStep (t : Thread) (hok : t.Ok c) (hz : t.owesZeros ≤ c.zeros_word.toNat) :
    Moves c t (updateStep c t).1 (updateStep c t).2 := by
  obtain ⟨todo, pc⟩ := t
  cases pc with
  | idle =>
    cases todo with
    | nil => exact moves_local hrank rfl rfl (fun _ => rfl) (fun _ => rfl) trivial
    | cons u rest => exact moves_local hrank rfl rfl (fun _ => rfl) (fun _ => rfl) trivial
  | read u => exact moves_local hrank rfl rfl (fun _ => rfl) (fun _ => rfl) fun _ => UInt8.le_refl _
  | loop u old => exact moves_loop hrank todo u old hok
  | subZeros u o =>
    have hz' : 1 ≤ c.zeros_word.toNat := hz
    have hsub : (c.zeros_word - 1).toNat = c.zeros_word.toNat - 1 :=
      UInt32.toNat_sub_of_le _ _ (UInt32.le_iff_toNat_le.mpr hz')
    refine ⟨⟨[], (List.append_nil _).symm, rfl⟩, fun _ => UInt8.le_refl _, hrank, ?_, fun _ => rfl, trivial⟩
    show (c.zeros_word - 1).toNat + 1 + countOf c 0 = c.zeros_word.toNat + 0 + countOf c 0
    omega
  | subCount u o =>
    refine ⟨⟨[], (List.append_nil _).symm, rfl⟩, fun _ => UInt8.le_refl _, hrank, rfl, fun r => ?_, trivial⟩
    show ((Function.update c.rank_count o.toNat (c.rank_count o.toNat - 1) r).toNat +
        (if u.2.toNat = r then 1 else 0) + countOf c r + (if o.toNat = r then 1 else 0)) % 2 ^ 32 =
      ((c.rank_count r).toNat + (if u.2.toNat = r then 1 else 0) + countOf c r + 0) % 2 ^ 32
    by_cases hr : o.toNat = r
    · subst hr
      rw [Function.update_self, UInt32.toNat_sub, if_pos rfl, UInt32.toNat_one]
      omega
    · rw [Function.update_of_ne (Ne.symm hr), if_neg hr]
  | addCount u =>
    refine ⟨⟨[], (List.append_nil _).symm, rfl⟩, fun _ => UInt8.le_refl _, hrank, rfl, fun r => ?_, trivial⟩
    show ((Function.update c.rank_count u.2.toNat (c.rank_count u.2.toNat + 1) r).toNat + 0 + countOf c r + 0) %
        2 ^ 32 = ((c.rank_count r).toNat + (if u.2.toNat = r then 1 else 0) + countOf c r + 0) % 2 ^ 32
    by_cases hr : u.2.toNat = r
    · subst hr
      rw [Function.update_self, UInt32.toNat_add, if_pos rfl, UInt32.toNat_one]
      omega
    · rw [Function.update_of_ne (Ne.symm hr), if_neg hr]

end Step

/-! ## Every interleaving -/

/-- One step of any thread keeps `Inv`. -/
theorem inv_stepAt {jobs : List Upd} {cfg : Config CudaHyperLogLogCounter Thread} (h : Inv jobs cfg) (j : Nat) :
    Inv jobs (stepAt updateStep cfg j) := by
  cases ht : cfg.threads[j]? with
  | none =>
    rw [stepAt_of_getElem?_eq_none ht]
    exact h
  | some t =>
    rw [stepAt_of_getElem? ht]
    have hmem := List.mem_of_getElem? ht
    have hz : t.owesZeros ≤ cfg.shared.zeros_word.toNat := by
      have := List.le_sum_of_mem (List.mem_map_of_mem (f := Thread.owesZeros) hmem)
      have := h.zeros
      omega
    have hm := moves_updateStep h.rank t (h.ok t hmem) hz
    obtain ⟨Δ, hhist, hrem⟩ := hm.history
    constructor
    · -- the calls of thread `j` that took effect moved from it to `history`
      have hp := flatMap_set_perm Thread.remaining ht (updateStep cfg.shared t).2
      rw [hrem, ← List.append_assoc, List.perm_append_right_iff] at hp
      dsimp only
      rw [hhist, List.append_assoc]
      exact ((List.perm_append_comm.trans hp).append_left _).trans h.perm
    · exact hm.rank
    · have hs := sum_map_set Thread.owesZeros ht (updateStep cfg.shared t).2
      have := hm.zeros
      have := h.zeros
      dsimp only
      omega
    · intro r
      have ha := sum_map_set (Thread.owesAdd · r) ht (updateStep cfg.shared t).2
      have hs := sum_map_set (Thread.owesSub · r) ht (updateStep cfg.shared t).2
      have := hm.counts r
      have := h.counts r
      dsimp only
      omega
    · intro u hu
      rcases List.mem_or_eq_of_mem_set hu with hu | rfl
      · exact Thread.ok_of_grows hm.grows (h.ok u hu)
      · exact hm.ok

theorem countOf_initNonzeroData (r : Nat) : countOf initNonzeroData r = if r = 0 then bucket_count else 0 := by
  unfold countOf initNonzeroData
  split
  · rename_i hr
    subst hr
    simp
  · rename_i hr
    simp [Ne.symm hr]

/-- A sum over threads that have not started, of what a thread that has not started owes. -/
theorem sum_init_threads (getHash : UInt64 → UInt32) (threads : List (List Op)) (f : Thread → Nat)
    (hf : ∀ todo, f ⟨todo, .idle⟩ = 0) :
    ((threads.map fun ops => (⟨ops.flatMap (Op.updates getHash), .idle⟩ : Thread)).map f).sum = 0 := by
  apply List.sum_eq_zero
  intro x hx
  obtain ⟨t, ht, rfl⟩ := List.mem_map.mp hx
  obtain ⟨ops, _, rfl⟩ := List.mem_map.mp ht
  exact hf _

theorem inv_init (getHash : UInt64 → UInt32) (threads : List (List Op)) :
    Inv (threads.flatMap fun ops => ops.flatMap (Op.updates getHash)) (init getHash threads) where
  perm := by
    dsimp only [init, initNonzeroData]
    rw [List.nil_append, List.flatMap_map]
    exact List.Perm.refl _
  rank _ := rfl
  zeros := by
    dsimp only [init]
    rw [sum_init_threads getHash threads _ fun _ => rfl, countOf_initNonzeroData]
    rfl
  counts r := by
    dsimp only [init]
    rw [sum_init_threads getHash threads _ fun _ => rfl, sum_init_threads getHash threads _ fun _ => rfl,
      countOf_initNonzeroData]
    dsimp only [initNonzeroData]
    by_cases hr : r = 0
    · rw [if_pos hr, if_pos hr]
      rfl
    · rw [if_neg hr, if_neg hr]
      rfl
  ok t ht := by
    obtain ⟨ops, _, rfl⟩ := List.mem_map.mp ht
    trivial

/-- `Inv` holds in every configuration any interleaving reaches. -/
theorem reachable_inv {getHash : UInt64 → UInt32} {threads : List (List Op)}
    {cfg : Config CudaHyperLogLogCounter Thread} (h : Reachable updateStep (init getHash threads) cfg) :
    Inv (threads.flatMap fun ops => ops.flatMap (Op.updates getHash)) cfg :=
  Reachable.invariant (Inv _) (fun _ j hc => inv_stepAt hc j) (inv_init getHash threads) h

/-! ## Once every thread is done -/

theorem countOf_le (c : CudaHyperLogLogCounter) (r : Nat) : countOf c r ≤ bucket_count := by
  unfold countOf
  calc _ ≤ (Finset.univ : Finset (Fin bucket_count)).card := Finset.card_filter_le _ _
    _ = bucket_count := by rw [Finset.card_univ, Fintype.card_fin]

/-- Every call of the operations has a rank of at most `max_rank`. -/
theorem jobs_le_max_rank (getHash : UInt64 → UInt32) (threads : List (List Op)) :
    ∀ u ∈ threads.flatMap (fun ops => ops.flatMap (Op.updates getHash)), u.2.toNat ≤ max_rank := by
  intro u hu
  obtain ⟨ops, _, hops⟩ := List.mem_flatMap.mp hu
  obtain ⟨op, _, hop⟩ := List.mem_flatMap.mp hops
  exact Op.le_max_rank getHash op u hop

/-- A sum over threads that are all done, of what a done thread owes. -/
theorem sum_done_threads {l : List Thread} (hdone : ∀ t ∈ l, t.todo = [] ∧ t.pc = .idle) (f : Thread → Nat)
    (hf : ∀ todo, f ⟨todo, .idle⟩ = 0) : (l.map f).sum = 0 := by
  apply List.sum_eq_zero
  intro x hx
  obtain ⟨⟨todo, pc⟩, ht, rfl⟩ := List.mem_map.mp hx
  obtain ⟨-, hpc⟩ := hdone _ ht
  dsimp only at hpc
  subst hpc
  exact hf todo

/-- Once every thread has run all its operations, whatever the interleaving: each byte of the
    rank store is the largest rank of the calls on its bucket, `zeros` counts the buckets at 0,
    `rank_count[r]` those at `r`, and `denominator.get()` is `Σ 2^-rank` over the buckets. -/
theorem rank_histogram_invariant (getHash : UInt64 → UInt32) (threads : List (List Op))
    (cfg : Config CudaHyperLogLogCounter Thread) (h : Reachable updateStep (init getHash threads) cfg)
    (hdone : ∀ t ∈ cfg.threads, t.todo = [] ∧ t.pc = .idle) :
    (∀ b, (cfg.shared.rank_store b).toNat = maxRank (threads.flatMap fun ops => ops.flatMap (Op.updates getHash)) b) ∧
    (zeros cfg.shared).toNat = countOf cfg.shared 0 ∧
    (∀ r ≤ max_rank, (cfg.shared.rank_count r).toNat = countOf cfg.shared r) ∧
    get cfg.shared = ∑ b, ((2 : ℚ) ^ (cfg.shared.rank_store b).toNat)⁻¹ := by
  have hI := reachable_inv h
  have hrank : ∀ b, (cfg.shared.rank_store b).toNat =
      maxRank (threads.flatMap fun ops => ops.flatMap (Op.updates getHash)) b := by
    intro b
    have hnil : cfg.threads.flatMap Thread.remaining = [] := by
      apply List.flatMap_eq_nil_iff.mpr
      intro ⟨todo, pc⟩ ht
      obtain ⟨htodo, hpc⟩ := hdone _ ht
      dsimp only at htodo hpc
      subst htodo hpc
      rfl
    have hperm := hI.perm
    rw [hnil, List.append_nil] at hperm
    rw [hI.rank b, maxRank_perm hperm]
  have hcounts : ∀ r ≤ max_rank, (cfg.shared.rank_count r).toNat = countOf cfg.shared r := by
    intro r _
    have hc := hI.counts r
    rw [sum_done_threads hdone _ fun _ => rfl, sum_done_threads hdone _ fun _ => rfl] at hc
    have h1 := UInt32.toNat_lt (cfg.shared.rank_count r)
    have h2 := countOf_le cfg.shared r
    have h3 : bucket_count = 4096 := rfl
    omega
  refine ⟨hrank, ?_, hcounts, ?_⟩
  · have hz := hI.zeros
    rw [sum_done_threads hdone _ fun _ => rfl] at hz
    have h2 := countOf_le cfg.shared 0
    have h3 : bucket_count = 4096 := rfl
    rw [zeros, UInt32.toNat_toUInt16]
    omega
  · have hle : ∀ b, (cfg.shared.rank_store b).toNat ≤ max_rank := by
      intro b
      rw [hrank b]
      exact maxRank_le (jobs_le_max_rank getHash threads) b
    have hsum : ∑ i ∈ Finset.range max_rank, ((cfg.shared.rank_count i).toNat : ℚ) / 2 ^ i =
        ∑ i ∈ Finset.range max_rank, (countOf cfg.shared i : ℚ) / 2 ^ i := by
      refine Finset.sum_congr rfl fun i hi => ?_
      rw [hcounts i (Finset.mem_range.mp hi).le]
    rw [get, foldl_halve, hsum, hcounts max_rank le_rfl, ← sum_countOf _ hle, Finset.sum_range_succ, add_comm]

/-- Two threads insert values of buckets 1 and 2, in one word, and race on its `atomicCAS`. -/
theorem racing_inserts_into_one_word :
    let cfg := run updateStep (init (fun v => v.toUInt32) [[.insert 1], [.insert 2]])
      [0, 1, 0, 1, 0, 1, 0, 1, 0, 1, 0, 1, 1]
    get cfg.shared = ∑ b, ((2 : ℚ) ^ (cfg.shared.rank_store b).toNat)⁻¹ :=
  (rank_histogram_invariant _ _ _ (run_reachable _ _) (by decide +kernel)).2.2.2

end CudaHyperLogLogCounter

end ClickHouseGpu.Cuda
