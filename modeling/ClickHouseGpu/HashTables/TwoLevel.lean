import ClickHouseGpu.HashTables.SetSemantics
import Mathlib.Algebra.BigOperators.Fin

/-
  ClickHouseGpu.HashTables.TwoLevel — `TwoLevelHashTable` (Common/HashTable/TwoLevelHashTable.h):
  `NUM_BUCKETS = 256` hash tables, the buckets, and a key goes to the one that bits 24 to 31 of
  its hash name (`getBucketFromHash`).

  The buckets are `HashTable`s with the hash function of the whole table. Their grower is
  `TwoLevelHashTableGrower`, whose `increaseSize` grows by one degree from degree 15 on where
  `HashTableGrower` waits until 23; the model gives the buckets the single-level grower, which
  decides how large a bucket grows and nothing of what it holds (`resize_keeps`). An iterator is
  a bucket and an iterator of that bucket's table; `beginOfNextNonEmptyBucket` skips the buckets
  that are `empty()`, and `end()` is the end of the last bucket.

  The conversion `TwoLevelHashTable(src)` walks `src` from `begin()` to `end()`: a first key that
  is zero goes in by `insert`, every other by `insertUniqueNonZero` into its bucket, with no
  check that it is new.

  Proved:
  - `Buckets`: every bucket keeps the table invariant and represents the keys of a set that the
    hash sends to it. `create`, `emplace`, `insertUniqueNonZero` and the conversion from a table
    with the invariant give it (`buckets_create`, `Buckets.emplace`, `Buckets.insertUniqueNonZero`,
    `buckets_ofSource`).
  - `Buckets.find`, `Buckets.size`, `Buckets.mem`: `find`, `size()` and the keys of such a table
    read its set.
  - `Buckets.keys_eq`: the iteration from `begin()` to `end()` lists the keys of the buckets,
    bucket after bucket; so it lists the set, each key once.
-/

namespace ClickHouseGpu.HashTables.Table.HashTable

variable {K : Type}

/-- `empty()`. -/
def empty (t : HashTable K) : Bool := t.m_size == 0

end ClickHouseGpu.HashTables.Table.HashTable

namespace ClickHouseGpu.HashTables.TwoLevel

open ClickHouseGpu.HashTables.Table ClickHouseGpu.HashTables.Table.HashTable
open ClickHouseGpu.HashTables.SetSemantics (Inv create_spec emplace_spec insertUniqueNonZero_spec mem_keys keys_nodup
  keys_head)

/-- `BITS_FOR_BUCKET`, the template argument's default. -/
def BITS_FOR_BUCKET : Nat := 8

/-- `NUM_BUCKETS = 1ULL << BITS_FOR_BUCKET`. -/
def NUM_BUCKETS : Nat := 2 ^ BITS_FOR_BUCKET

def MAX_BUCKET : Fin NUM_BUCKETS := ⟨NUM_BUCKETS - 1, by decide⟩

/-- `getBucketFromHash(hash_value)`: `(hash_value >> (32 - BITS_FOR_BUCKET)) & MAX_BUCKET`. -/
def getBucketFromHash (hash_value : Nat) : Fin NUM_BUCKETS :=
  ⟨(hash_value >>> (32 - BITS_FOR_BUCKET)) &&& MAX_BUCKET.val,
    Nat.lt_of_le_of_lt Nat.and_le_right MAX_BUCKET.isLt⟩

structure TwoLevelHashTable (K : Type) where
  impls : Fin NUM_BUCKETS → HashTable K

/-- An iterator: its bucket and an iterator of the bucket's table. -/
structure Iterator where
  bucket : Fin NUM_BUCKETS
  current_it : Position
  deriving DecidableEq, Repr

/-! ## Positions of a table's iteration -/

section Positions

variable {K : Type} [Zero K] [DecidableEq K]

/-- A position the iteration of `u` can stand at: the zero key's cell when `u` has the zero key,
    an occupied cell, or the end. -/
def PosValid (u : HashTable K) : Position → Prop
  | .zero => u.has_zero = true
  | .cell i => i ≤ u.grower.bufSize ∧ (i < u.grower.bufSize → u.buf i ≠ 0)

/-- The keys the iteration of `u` lists from `p` to the end. -/
def keysAt (u : HashTable K) (p : Position) : List K := u.keysFrom (u.grower.bufSize + 2) p

variable {u : HashTable K}

theorem keysAt_end (u : HashTable K) : keysAt u u.end_ = [] := by
  rw [keysAt, show u.grower.bufSize + 2 = u.grower.bufSize + 1 + 1 from rfl, keysFrom, if_pos rfl]

theorem keysAt_begin (u : HashTable K) : keysAt u u.begin = u.keys := rfl

theorem posValid_begin (u : HashTable K) : PosValid u u.begin := by
  obtain ⟨-, h2, -, h4⟩ := u.skipZero_spec u.grower.bufSize 0 (by omega) (by omega)
  unfold begin
  cases hz : u.has_zero
  · exact ⟨h2, h4⟩
  · exact hz

/-- `operator++` from a position other than the end goes to an occupied cell or the end. -/
theorem posValid_next {p : Position} (hp : PosValid u p) (hne : p ≠ u.end_) :
    ∃ j, u.next p = .cell j ∧ PosValid u (.cell j) := by
  cases p with
  | zero =>
    obtain ⟨-, h2, -, h4⟩ := u.skipZero_spec u.grower.bufSize 0 (by omega) (by omega)
    exact ⟨_, rfl, h2, h4⟩
  | cell i =>
    have hi : i < u.grower.bufSize := by
      rcases Nat.lt_or_ge i u.grower.bufSize with h | h
      · exact h
      · exact absurd (by rw [Nat.le_antisymm hp.1 h]; rfl) hne
    obtain ⟨-, h2, -, h4⟩ := u.skipZero_spec u.grower.bufSize (i + 1) (by omega) (by omega)
    exact ⟨_, by simp [next, hp.2 hi], h2, h4⟩

/-- From a cell, enough fuel lists the same keys as `keysAt`. -/
theorem keysFrom_cell_eq_keysAt {j : Nat} (hp : PosValid u (.cell j)) {F : Nat}
    (hF : u.grower.bufSize + 1 ≤ F) : u.keysFrom F (.cell j) = keysAt u (.cell j) := by
  rw [keysAt, u.keysFrom_cell F j (by omega) hp.1 hp.2, u.keysFrom_cell _ j (by omega) hp.1 hp.2]

/-- One step of the iteration of `u`. -/
theorem keysAt_step {p : Position} (hp : PosValid u p) (hne : p ≠ u.end_) :
    keysAt u p = u.get p :: keysAt u (u.next p) ∧ PosValid u (u.next p) := by
  obtain ⟨j, hj, hv⟩ := posValid_next hp hne
  rw [hj]
  refine ⟨?_, hv⟩
  rw [keysAt, show u.grower.bufSize + 2 = u.grower.bufSize + 1 + 1 from rfl, keysFrom, if_neg hne, hj,
    keysFrom_cell_eq_keysAt hv le_rfl]

theorem length_keys_le (u : HashTable K) : u.keys.length ≤ u.grower.bufSize + 1 := by
  have hcells : (u.cellsFrom 0).length ≤ u.grower.bufSize := by
    simp only [cellsFrom, Nat.sub_zero]
    exact (List.length_filter_le _ _).trans (by simp)
  rw [keys_eq]
  cases u.has_zero <;> simp <;> omega

/-- `empty()` reads the keys of a table that represents a set. -/
theorem empty_iff_keys_eq_nil {S : Finset K} (hr : SetSemantics.Represents u S) : u.empty = true ↔ u.keys = [] := by
  simp only [empty, beq_iff_eq, hr.size, Finset.card_eq_zero, List.eq_nil_iff_forall_not_mem, mem_keys, hr.mem,
    Finset.eq_empty_iff_forall_notMem]

end Positions

namespace TwoLevelHashTable

variable {K : Type} [Zero K] [DecidableEq K]

/-- `TwoLevelHashTable()`: every bucket a new table. -/
def create (initial_size_degree : Nat) : TwoLevelHashTable K := ⟨fun _ => HashTable.create initial_size_degree⟩

/-- The table whose bucket `i` is `u`. -/
def update (t : TwoLevelHashTable K) (i : Fin NUM_BUCKETS) (u : HashTable K) : TwoLevelHashTable K :=
  ⟨Function.update t.impls i u⟩

/-- `end()`: the end of the last bucket. -/
def end_ (t : TwoLevelHashTable K) : Iterator := ⟨MAX_BUCKET, (t.impls MAX_BUCKET).end_⟩

section Ops

variable (initial_size_degree : Nat) (hash : K → Nat)

/-- `emplace(x, it, inserted, hash_value)`, into the bucket of the hash. -/
def emplace (t : TwoLevelHashTable K) (x : K) : Option (Iterator × Bool × TwoLevelHashTable K) :=
  let buck := getBucketFromHash (hash x)
  match (t.impls buck).emplace initial_size_degree hash x with
  | none => none
  | some (impl_it, inserted, u) => some (⟨buck, impl_it⟩, inserted, t.update buck u)

/-- `impls[getBucketFromHash(hash_value)].insertUniqueNonZero(cell, hash_value)`. -/
def insertUniqueNonZero (t : TwoLevelHashTable K) (x : K) : Option (TwoLevelHashTable K) :=
  let buck := getBucketFromHash (hash x)
  ((t.impls buck).insertUniqueNonZero initial_size_degree hash x).map (t.update buck)

/-- `find(x)`: the bucket's iterator, or `end()` when the bucket has not got the key. -/
def find (t : TwoLevelHashTable K) (x : K) : Option Iterator :=
  let buck := getBucketFromHash (hash x)
  ((t.impls buck).find hash x).map fun found =>
    if found ≠ (t.impls buck).end_ then ⟨buck, found⟩ else t.end_

/-- `TwoLevelHashTable(src)`: the keys of `src` in its iteration order; the zero key, kept apart,
    comes first when `src` has it, and goes in by `insert`. -/
def ofSource (src : HashTable K) : Option (TwoLevelHashTable K) :=
  match src.keys with
  | x :: rest =>
    if x = 0 then
      match (create initial_size_degree).emplace initial_size_degree hash x with
      | none => none
      | some (_, _, t) => rest.foldlM (insertUniqueNonZero initial_size_degree hash) t
    else (x :: rest).foldlM (insertUniqueNonZero initial_size_degree hash) (create initial_size_degree)
  | [] => some (create initial_size_degree)

end Ops

/-- `size()`: the sizes of the buckets added up. -/
def size (t : TwoLevelHashTable K) : Nat := ∑ i, (t.impls i).m_size

/-! ## Iteration -/

/-- `beginOfNextNonEmptyBucket(bucket)`: the first bucket from `bucket` on that is not `empty()`
    and its `begin()`, or `end()`. The loop's `bucket != NUM_BUCKETS` is `<` here, since it starts
    at most at `NUM_BUCKETS`. -/
def beginOfNextNonEmptyBucket (t : TwoLevelHashTable K) (bucket : Nat) : Iterator :=
  if h : bucket < NUM_BUCKETS then
    if (t.impls ⟨bucket, h⟩).empty then t.beginOfNextNonEmptyBucket (bucket + 1)
    else ⟨⟨bucket, h⟩, (t.impls ⟨bucket, h⟩).begin⟩
  else t.end_
termination_by NUM_BUCKETS - bucket

def begin (t : TwoLevelHashTable K) : Iterator := t.beginOfNextNonEmptyBucket 0

/-- The key an iterator points to. -/
def get (t : TwoLevelHashTable K) (it : Iterator) : K := (t.impls it.bucket).get it.current_it

/-- `operator++`: on in the bucket, and at its end to the next bucket that is not empty. -/
def next (t : TwoLevelHashTable K) (it : Iterator) : Iterator :=
  let current_it := (t.impls it.bucket).next it.current_it
  if current_it = (t.impls it.bucket).end_ then t.beginOfNextNonEmptyBucket (it.bucket.val + 1)
  else ⟨it.bucket, current_it⟩

/-- `for (it = begin(); it != end(); ++it)`, collecting the keys, for at most `fuel` steps. -/
def keysFrom (t : TwoLevelHashTable K) : Nat → Iterator → List K
  | 0, _ => []
  | fuel + 1, it => if it = t.end_ then [] else t.get it :: t.keysFrom fuel (t.next it)

/-- The keys from `begin()` to `end()`: a bucket's iteration has at most `bufSize() + 1` steps. -/
def keys (t : TwoLevelHashTable K) : List K :=
  t.keysFrom ((List.finRange NUM_BUCKETS).map fun i => (t.impls i).grower.bufSize + 2).sum t.begin

/-! ## What the buckets hold -/

/-- The keys a two-level table holds: those of its buckets. -/
def Mem (t : TwoLevelHashTable K) (k : K) : Prop := ∃ b, SetSemantics.Mem (t.impls b) k

/-- The buckets of `t` keep the table invariant, and bucket `b` represents the keys of `T` whose
    hash goes to `b`. -/
structure Buckets (hash : K → Nat) (t : TwoLevelHashTable K) (T : Finset K) : Prop where
  inv : ∀ b, Inv hash (t.impls b)
  represents : ∀ b, SetSemantics.Represents (t.impls b) (T.filter fun k => getBucketFromHash (hash k) = b)

section Buckets

variable {hash : K → Nat} {t : TwoLevelHashTable K} {T : Finset K}

omit [Zero K] [DecidableEq K] in
@[simp] theorem update_impls_self (t : TwoLevelHashTable K) (i : Fin NUM_BUCKETS) (u : HashTable K) :
    (t.update i u).impls i = u := Function.update_self ..

omit [Zero K] [DecidableEq K] in
theorem update_impls_of_ne {i j : Fin NUM_BUCKETS} (h : j ≠ i) (u : HashTable K) :
    (t.update i u).impls j = t.impls j := Function.update_of_ne h ..

/-- The step the insertions share: the bucket of `x` replaced by a table of its keys and `x`. -/
theorem Buckets.update (h : Buckets hash t T) {x : K} {u : HashTable K} (hi : Inv hash u)
    (hr : SetSemantics.Represents u
      (insert x (T.filter fun k => getBucketFromHash (hash k) = getBucketFromHash (hash x)))) :
    Buckets hash (t.update (getBucketFromHash (hash x)) u) (insert x T) where
  inv b := by
    by_cases hb : b = getBucketFromHash (hash x)
    · rw [hb, update_impls_self]
      exact hi
    · rw [update_impls_of_ne hb]
      exact h.inv b
  represents b := by
    by_cases hb : b = getBucketFromHash (hash x)
    · rw [hb, update_impls_self, Finset.filter_insert, if_pos rfl]
      exact hr
    · -- the other buckets and their keys stay
      rw [update_impls_of_ne hb, Finset.filter_insert, if_neg (Ne.symm hb)]
      exact h.represents b

theorem buckets_create {initial_size_degree : Nat} (hd : 1 ≤ initial_size_degree) :
    Buckets hash (create initial_size_degree : TwoLevelHashTable K) ∅ where
  inv _ := (@create_spec K _ _ hash _ hd).1
  represents _ := by
    rw [Finset.filter_empty]
    exact (@create_spec K _ _ hash _ hd).2

omit [Zero K] [DecidableEq K] in
/-- A key is in the bucket of its hash exactly when it is in the set. -/
theorem mem_filter_bucket (x : K) :
    x ∈ T.filter (fun k => getBucketFromHash (hash k) = getBucketFromHash (hash x)) ↔ x ∈ T := by
  simp

theorem Buckets.emplace (initial_size_degree : Nat) (h : Buckets hash t T) (x : K) :
    ∃ it ins t', t.emplace initial_size_degree hash x = some (it, ins, t') ∧ Buckets hash t' (insert x T) ∧
      ins = decide (x ∉ T) := by
  obtain ⟨it, ins, u, he, hi, hr, hins, -⟩ :=
    emplace_spec initial_size_degree (h.inv (getBucketFromHash (hash x))) (h.represents _) x
  refine ⟨⟨getBucketFromHash (hash x), it⟩, ins, _, by simp only [TwoLevelHashTable.emplace, he], h.update hi hr, ?_⟩
  rw [hins]
  simp

theorem Buckets.insertUniqueNonZero (initial_size_degree : Nat) (h : Buckets hash t T) {x : K} (hx : x ≠ 0)
    (hnot : x ∉ T) :
    ∃ t', t.insertUniqueNonZero initial_size_degree hash x = some t' ∧ Buckets hash t' (insert x T) := by
  obtain ⟨u, hu, hi, hr⟩ := insertUniqueNonZero_spec initial_size_degree (h.inv (getBucketFromHash (hash x)))
    (h.represents _) hx (by rwa [mem_filter_bucket])
  exact ⟨_, by simp only [TwoLevelHashTable.insertUniqueNonZero, hu, Option.map_some], h.update hi hr⟩

theorem Buckets.mem_bucket (h : Buckets hash t T) (b : Fin NUM_BUCKETS) (k : K) :
    SetSemantics.Mem (t.impls b) k ↔ k ∈ T ∧ getBucketFromHash (hash k) = b := by
  rw [(h.represents b).mem, Finset.mem_filter]

theorem Buckets.mem (h : Buckets hash t T) (k : K) : t.Mem k ↔ k ∈ T := by
  constructor
  · intro hk
    obtain ⟨b, hb⟩ := hk
    exact ((h.mem_bucket b k).mp hb).1
  · intro hk
    exact ⟨_, (h.mem_bucket _ k).mpr ⟨hk, rfl⟩⟩

/-- `size()` is the size of the set: each key is counted in its bucket. -/
theorem Buckets.size (h : Buckets hash t T) : t.size = T.card := by
  rw [TwoLevelHashTable.size, Finset.sum_congr rfl fun b _ => (h.represents b).size]
  exact (Finset.card_eq_sum_card_fiberwise fun x _ => Finset.mem_univ (getBucketFromHash (hash x))).symm

theorem Buckets.find (h : Buckets hash t T) (x : K) :
    ∃ it, t.find hash x = some it ∧ (x ∈ T ↔ it ≠ t.end_) ∧ (it ≠ t.end_ → t.get it = x) := by
  obtain ⟨found, hf, hmem, hget⟩ :=
    SetSemantics.find_spec (h.inv (getBucketFromHash (hash x))) (h.represents _) x
  rw [mem_filter_bucket] at hmem
  have hfind : t.find hash x = some (if found ≠ (t.impls (getBucketFromHash (hash x))).end_
      then ⟨getBucketFromHash (hash x), found⟩ else t.end_) := by
    simp only [TwoLevelHashTable.find, hf, Option.map_some]
  by_cases hend : found = (t.impls (getBucketFromHash (hash x))).end_
  · refine ⟨t.end_, by rw [hfind, if_neg (not_not_intro hend)], ?_, fun hne => absurd rfl hne⟩
    rw [hmem, hend]
    simp
  · -- a key found in its bucket is not at `end()`, the end of the last bucket
    have hne : (⟨getBucketFromHash (hash x), found⟩ : Iterator) ≠ t.end_ := by
      intro heq
      simp only [end_, Iterator.mk.injEq] at heq
      rw [heq.1] at hend
      exact hend heq.2
    exact ⟨_, by rw [hfind, if_pos hend], ⟨fun _ => hne, fun _ => hmem.mpr hend⟩, fun _ => hget hend⟩

end Buckets

/-! ## What the iteration lists -/

section Iteration

variable (t : TwoLevelHashTable K)

/-- The keys of the buckets from `c` on. -/
def keysAfter (c : Nat) : List K := ((List.finRange NUM_BUCKETS).drop c).flatMap fun b => (t.impls b).keys

/-- The keys the iteration lists from `it` on: the rest of its bucket, then the buckets after it. -/
def remaining (it : Iterator) : List K := keysAt (t.impls it.bucket) it.current_it ++ t.keysAfter (it.bucket.val + 1)

/-- An iterator the iteration can stand at: a position of its bucket's iteration, and the end of
    a bucket only in the last one. -/
structure IterValid (it : Iterator) : Prop where
  pos : PosValid (t.impls it.bucket) it.current_it
  last : it.current_it = (t.impls it.bucket).end_ → it.bucket = MAX_BUCKET

variable {t}

theorem keysAfter_of_lt {c : Nat} (h : c < NUM_BUCKETS) :
    t.keysAfter c = (t.impls ⟨c, h⟩).keys ++ t.keysAfter (c + 1) := by
  rw [keysAfter, List.drop_eq_getElem_cons (by simpa using h), List.flatMap_cons, List.getElem_finRange]
  rfl

theorem keysAfter_of_le {c : Nat} (h : NUM_BUCKETS ≤ c) : t.keysAfter c = [] := by
  rw [keysAfter, List.drop_eq_nil_of_le (by simpa using h), List.flatMap_nil]

theorem remaining_end : t.remaining t.end_ = [] := by
  have hmax : NUM_BUCKETS ≤ MAX_BUCKET.val + 1 := by decide
  rw [remaining, end_]
  dsimp only
  rw [keysAt_end, keysAfter_of_le hmax]
  rfl

omit [DecidableEq K] in
theorem iterValid_end : IterValid t t.end_ := ⟨⟨le_rfl, fun h => absurd h (Nat.lt_irrefl _)⟩, fun _ => rfl⟩

section Empty

variable (hempty : ∀ b, (t.impls b).empty = true ↔ (t.impls b).keys = [])
include hempty

/-- `beginOfNextNonEmptyBucket(c)` stands where the keys of the buckets from `c` on start. -/
theorem beginOfNextNonEmptyBucket_spec : ∀ c, c ≤ NUM_BUCKETS →
    IterValid t (t.beginOfNextNonEmptyBucket c) ∧ t.remaining (t.beginOfNextNonEmptyBucket c) = t.keysAfter c := by
  intro c hc
  -- the loop runs up to `NUM_BUCKETS`
  induction hn : NUM_BUCKETS - c generalizing c with
  | zero =>
    rw [beginOfNextNonEmptyBucket, dif_neg (by omega), keysAfter_of_le (by omega)]
    exact ⟨iterValid_end, remaining_end⟩
  | succ n ih =>
    have hlt : c < NUM_BUCKETS := by omega
    rw [beginOfNextNonEmptyBucket, dif_pos hlt, keysAfter_of_lt hlt]
    by_cases hemp : (t.impls ⟨c, hlt⟩).empty = true
    · rw [if_pos hemp, (hempty _).mp hemp, List.nil_append]
      exact ih (c + 1) (by omega) (by omega)
    · rw [if_neg hemp]
      refine ⟨⟨posValid_begin _, fun hb => absurd ((hempty _).mpr ?_) hemp⟩, rfl⟩
      dsimp only at hb
      rw [← keysAt_begin, hb, keysAt_end]

/-- One step of the two-level iteration. -/
theorem IterValid.next {it : Iterator} (hv : IterValid t it) (hne : it ≠ t.end_) :
    t.remaining it = t.get it :: t.remaining (t.next it) ∧ IterValid t (t.next it) := by
  obtain ⟨b, p⟩ := it
  have hp : p ≠ (t.impls b).end_ := by
    intro hp
    have hb : b = MAX_BUCKET := hv.last hp
    subst hb
    exact hne (by rw [hp]; rfl)
  obtain ⟨hstep, hvalid⟩ := keysAt_step hv.pos hp
  simp only [TwoLevelHashTable.next]
  by_cases hq : (t.impls b).next p = (t.impls b).end_
  · -- the bucket is done: on to the next bucket that is not empty
    rw [if_pos hq]
    obtain ⟨hv', hr'⟩ := beginOfNextNonEmptyBucket_spec hempty (b.val + 1) b.isLt
    refine ⟨?_, hv'⟩
    rw [hr', remaining, hstep, hq, keysAt_end]
    rfl
  · rw [if_neg hq]
    refine ⟨?_, ⟨hvalid, fun h => absurd h hq⟩⟩
    rw [remaining, remaining, hstep]
    rfl

theorem keysFrom_eq_remaining : ∀ fuel it, IterValid t it → (t.remaining it).length < fuel →
    t.keysFrom fuel it = t.remaining it := by
  intro fuel
  induction fuel with
  | zero =>
    intro it _ hlen
    exact absurd hlen (Nat.not_lt_zero _)
  | succ F ih =>
    intro it hv hlen
    by_cases hend : it = t.end_
    · rw [keysFrom, if_pos hend, hend, remaining_end]
    · obtain ⟨hstep, hv'⟩ := hv.next hempty hend
      rw [hstep] at hlen ⊢
      rw [keysFrom, if_neg hend, ih _ hv' (by simpa using hlen)]

end Empty

/-- The fuel of `keys` is more than the keys of all buckets. -/
theorem length_flatMap_keys_lt :
    ((List.finRange NUM_BUCKETS).flatMap fun b => (t.impls b).keys).length <
      ((List.finRange NUM_BUCKETS).map fun i => (t.impls i).grower.bufSize + 2).sum := by
  have hle : ∀ l : List (Fin NUM_BUCKETS),
      (l.flatMap fun b => (t.impls b).keys).length + l.length ≤ (l.map fun i => (t.impls i).grower.bufSize + 2).sum := by
    intro l
    induction l with
    | nil => simp
    | cons b l ih =>
      have hb := length_keys_le (t.impls b)
      simp only [List.flatMap_cons, List.length_append, List.length_cons, List.map_cons, List.sum_cons]
      omega
  have h := hle (List.finRange NUM_BUCKETS)
  rw [List.length_finRange] at h
  have hpos : 0 < NUM_BUCKETS := by decide
  omega

end Iteration

section Keys

variable {hash : K → Nat} {t : TwoLevelHashTable K} {T : Finset K}

/-- The iteration from `begin()` to `end()` lists the keys of the buckets, bucket after bucket. -/
theorem Buckets.keys_eq (h : Buckets hash t T) :
    t.keys = (List.finRange NUM_BUCKETS).flatMap fun b => (t.impls b).keys := by
  have hempty : ∀ b, (t.impls b).empty = true ↔ (t.impls b).keys = [] :=
    fun b => empty_iff_keys_eq_nil (h.represents b)
  obtain ⟨hv, hr⟩ := beginOfNextNonEmptyBucket_spec hempty 0 (Nat.zero_le _)
  have hlen : (t.remaining (t.beginOfNextNonEmptyBucket 0)).length <
      ((List.finRange NUM_BUCKETS).map fun i => (t.impls i).grower.bufSize + 2).sum := by
    rw [hr, keysAfter, List.drop_zero]
    exact length_flatMap_keys_lt
  rw [keys, TwoLevelHashTable.begin, keysFrom_eq_remaining hempty _ _ hv hlen, hr, keysAfter, List.drop_zero]

theorem Buckets.mem_keys (h : Buckets hash t T) (k : K) : k ∈ t.keys ↔ k ∈ T := by
  rw [h.keys_eq, List.mem_flatMap]
  constructor
  · intro hk
    obtain ⟨b, -, hkb⟩ := hk
    exact ((h.mem_bucket b k).mp ((SetSemantics.mem_keys k).mp hkb)).1
  · intro hk
    exact ⟨_, List.mem_finRange _, (SetSemantics.mem_keys k).mpr ((h.mem_bucket _ k).mpr ⟨hk, rfl⟩)⟩

/-- Each key is listed once: the buckets' keys have no key twice, and no key is in two buckets. -/
theorem Buckets.keys_nodup (h : Buckets hash t T) : t.keys.Nodup := by
  rw [h.keys_eq, List.nodup_flatMap]
  refine ⟨fun b _ => SetSemantics.keys_nodup (h.inv b).toWf, (List.nodup_finRange _).imp fun hab => ?_⟩
  intro k hka hkb
  have ha := ((h.mem_bucket _ k).mp ((SetSemantics.mem_keys k).mp hka)).2
  have hb := ((h.mem_bucket _ k).mp ((SetSemantics.mem_keys k).mp hkb)).2
  exact hab (ha.symm.trans hb)

end Keys

/-! ## The conversion from a single-level table -/

section Conversion

variable {hash : K → Nat} (initial_size_degree : Nat)

/-- The loop of `insertUniqueNonZero` over keys that are non-zero, new and distinct. -/
theorem Buckets.foldlM_insertUniqueNonZero : ∀ (xs : List K) {t : TwoLevelHashTable K} {T : Finset K},
    Buckets hash t T → xs.Nodup → (∀ x ∈ xs, x ≠ 0 ∧ x ∉ T) →
    ∃ t', xs.foldlM (TwoLevelHashTable.insertUniqueNonZero initial_size_degree hash) t = some t' ∧
      Buckets hash t' (T ∪ xs.toFinset) := by
  intro xs
  induction xs with
  | nil =>
    intro t T h _ _
    exact ⟨t, rfl, by simpa using h⟩
  | cons x xs ih =>
    intro t T h hnodup hxs
    obtain ⟨hx, hxs'⟩ := List.nodup_cons.mp hnodup
    obtain ⟨t1, h1, hb1⟩ := h.insertUniqueNonZero initial_size_degree (hxs x List.mem_cons_self).1
      (hxs x List.mem_cons_self).2
    -- the keys after `x` are not `x`, and were not in the set before it
    have hrest : ∀ y ∈ xs, y ≠ 0 ∧ y ∉ insert x T := fun y hy =>
      ⟨(hxs y (List.mem_cons_of_mem x hy)).1, fun hyT => (Finset.mem_insert.mp hyT).elim
        (fun hyx => hx (hyx ▸ hy)) (hxs y (List.mem_cons_of_mem x hy)).2⟩
    obtain ⟨t2, h2, hb2⟩ := ih hb1 hxs' hrest
    refine ⟨t2, by rw [List.foldlM_cons, h1]; exact h2, ?_⟩
    rwa [List.toFinset_cons, Finset.union_insert, ← Finset.insert_union]

/-- `TwoLevelHashTable(src)` of a table with the invariant: every key of `src` goes to the bucket
    of its hash. The zero key is first in `src`'s iteration order, and every other key is non-zero
    and listed once, so that `insertUniqueNonZero` is never given a key twice. -/
theorem buckets_ofSource (hd : 1 ≤ initial_size_degree) {src : HashTable K} {S : Finset K}
    (hi : Inv hash src) (hr : SetSemantics.Represents src S) :
    ∃ t, ofSource initial_size_degree hash src = some t ∧ Buckets hash t S := by
  have hnodup := SetSemantics.keys_nodup hi.toWf
  have hmem : ∀ k, k ∈ src.keys ↔ k ∈ S := fun k => (SetSemantics.mem_keys k).trans (hr.mem k)
  rcases hk : src.keys with _ | ⟨x, rest⟩
  · -- no key at all
    have hS : S = ∅ := Finset.eq_empty_of_forall_notMem fun k hkS => by simpa [hk] using (hmem k).mpr hkS
    refine ⟨create initial_size_degree, by simp only [ofSource, hk], hS ▸ buckets_create hd⟩
  rw [hk] at hnodup
  by_cases hx : x = 0
  · -- the zero key first, by `insert`
    subst hx
    obtain ⟨hx0, hrest⟩ := List.nodup_cons.mp hnodup
    obtain ⟨it, ins, t1, he, hb1, -⟩ := (@buckets_create K _ _ hash _ hd).emplace initial_size_degree (0 : K)
    have hrest0 : ∀ y ∈ rest, y ≠ 0 := fun y hy hy0 => hx0 (hy0 ▸ hy)
    obtain ⟨t2, h2, hb2⟩ := hb1.foldlM_insertUniqueNonZero initial_size_degree rest hrest fun y hy =>
      ⟨hrest0 y hy, by simpa using hrest0 y hy⟩
    refine ⟨t2, by simp only [ofSource, hk, he]; exact h2, ?_⟩
    convert hb2 using 1
    ext k
    rw [← hmem, hk]
    simp
  · -- no zero key: its flag would put it first
    have h0 : ∀ y ∈ x :: rest, y ≠ 0 := by
      intro y hy hy0
      subst hy0
      have hz : src.has_zero = true := by
        have hmem0 := (SetSemantics.mem_keys (0 : K)).mp (hk ▸ hy)
        simpa [SetSemantics.Mem] using hmem0
      have hhead := keys_head hz
      rw [hk] at hhead
      exact hx (Option.some.inj hhead)
    obtain ⟨t2, h2, hb2⟩ := (@buckets_create K _ _ hash _ hd).foldlM_insertUniqueNonZero initial_size_degree
      (x :: rest) hnodup fun y hy => ⟨h0 y hy, Finset.notMem_empty y⟩
    refine ⟨t2, by simp only [ofSource, hk, if_neg hx]; exact h2, ?_⟩
    convert hb2 using 1
    ext k
    rw [← hmem, hk]
    simp

end Conversion

end TwoLevelHashTable

/-! ## The conversion of a reachable table -/

section Reachable

variable {K : Type} [Zero K] [DecidableEq K]

open SetSemantics in
/-- `TwoLevelHashTable(src)` of a table that a run from `HashTable()` reached keeps its keys: each
    in the bucket of its hash, the zero key included. `find` finds what `src.find` finds,
    `size()` is `src.size()`, and the iteration lists `src`'s keys, each once. -/
theorem two_level_conversion_keeps_keys (hash : K → Nat) (initial_size_degree : Nat)
    (hd : 1 ≤ initial_size_degree) (ops : List (Op K)) (hadm : Admissible ∅ ops) {src : HashTable K}
    (hsrc : run initial_size_degree hash (HashTable.create initial_size_degree) ops = some src)
    (two_level_degree : Nat) (hd2 : 1 ≤ two_level_degree) :
    ∃ t, TwoLevelHashTable.ofSource two_level_degree hash src = some t ∧
      (∀ k, t.Mem k ↔ SetSemantics.Mem src k) ∧
      (∀ b k, SetSemantics.Mem (t.impls b) k ↔ SetSemantics.Mem src k ∧ getBucketFromHash (hash k) = b) ∧
      (∀ k, ∃ it p, t.find hash k = some it ∧ src.find hash k = some p ∧ (it ≠ t.end_ ↔ p ≠ src.end_)) ∧
      t.size = src.m_size ∧ t.keys.Nodup ∧ t.keys.Perm src.keys := by
  obtain ⟨hi0, hr0⟩ := @create_spec K _ _ hash _ hd
  obtain ⟨src', hrun, hi, hr⟩ := run_spec initial_size_degree ops _ _ hi0 hr0 hadm
  rw [hsrc, Option.some.injEq] at hrun
  subst hrun
  obtain ⟨t, ht, hb⟩ := TwoLevelHashTable.buckets_ofSource two_level_degree hd2 hi hr
  refine ⟨t, ht, fun k => (hb.mem k).trans (hr.mem k).symm, fun b k => ?_, fun k => ?_, ?_, hb.keys_nodup, ?_⟩
  · rw [hb.mem_bucket, hr.mem]
  · obtain ⟨it, hf, hiff, -⟩ := hb.find k
    obtain ⟨p, hp, hpiff, -⟩ := find_spec hi hr k
    exact ⟨it, p, hf, hp, hiff.symm.trans hpiff⟩
  · rw [hb.size, hr.size]
  · -- two lists without duplicates with the same members
    refine (List.perm_ext_iff_of_nodup hb.keys_nodup (keys_nodup hi.toWf)).mpr fun k => ?_
    rw [hb.mem_keys, mem_keys, hr.mem]

/-- The zero key and `5`, by `emplace` into a table of degree 8, go over to a two-level table. -/
theorem two_level_conversion_of_zero_and_five :
    ∃ src, SetSemantics.run 8 (fun k : Nat => k) (HashTable.create 8) [.emplace 0, .emplace 5] = some src ∧
      ∃ t, TwoLevelHashTable.ofSource 8 (fun k : Nat => k) src = some t ∧
        (∀ k, t.Mem k ↔ SetSemantics.Mem src k) ∧
        (∀ b k, SetSemantics.Mem (t.impls b) k ↔ SetSemantics.Mem src k ∧ getBucketFromHash k = b) ∧
        (∀ k, ∃ it p, t.find (fun k : Nat => k) k = some it ∧ src.find (fun k : Nat => k) k = some p ∧
          (it ≠ t.end_ ↔ p ≠ src.end_)) ∧
        t.size = src.m_size ∧ t.keys.Nodup ∧ t.keys.Perm src.keys := by
  obtain ⟨src, hsrc⟩ : ∃ src, SetSemantics.run 8 (fun k : Nat => k) (HashTable.create 8)
      [.emplace 0, .emplace 5] = some src := ⟨_, rfl⟩
  exact ⟨src, hsrc, two_level_conversion_keeps_keys (fun k : Nat => k) 8 (by decide) [.emplace 0, .emplace 5]
    ⟨trivial, trivial, trivial⟩ hsrc 8 (by decide)⟩

end Reachable

end ClickHouseGpu.HashTables.TwoLevel
