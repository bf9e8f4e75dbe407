import Mathlib
import ClickHouseGpu.HashTables.TwoLevel
import ClickHouseGpu.IO.VarInt

/-
  ClickHouseGpu.HashTables.Serialization — `HashTable::write` and `HashTable::read`
  (Common/HashTable/HashTable.h), and those of `TwoLevelHashTable`, for tables of key cells with
  `HashTableNoState`, whose `State::write` and `State::read` do nothing.

  `write` gives `m_size` as a VarUInt, then the zero key when the table has it, then the keys of
  the occupied cells in the order of the buffer. A cell writes its key by `writeBinary` and
  reads it by `readBinary`, which read back what they write (`KeyCodec`). `read` drops what the
  table held, allocates a zeroed buffer for the size it reads by `grower.set(n)`, and inserts
  the keys it reads one by one. `set` takes `static_cast<size_t>(log2(n - 1))` of the `double`
  `n - 1`: the model takes it as a parameter `log2`, at least the floor of the binary logarithm,
  as rounding `n - 1` to a `double` (which never goes below a power of two under it) and then
  `log2` give. A two-level table writes its buckets one after another and reads them back in the
  same order.

  Proved:
  - `write_eq`: `write` gives the size, then the keys in the order of the iteration.
  - `two_mul_le_bufSize_setWith`: `set(n)` gives at least `2n` cells, so `n` keys stay within
    `maxFill()` and no insertion of `read` resizes.
  - `read_write`, `TwoLevelHashTable.read_write`: reading what `write` wrote gives a table of the
    same keys and size, in the buffer that `set` sized.
-/

namespace ClickHouseGpu.HashTables.Serialization

open ClickHouseGpu.IO ClickHouseGpu.HashTables.Table ClickHouseGpu.HashTables.Table.HashTable
open ClickHouseGpu.HashTables.SetSemantics (Inv Represents create_spec emplace_spec mem_keys keys_nodup)

/-- `writeBinary` and `readBinary` of the key type: reading gives back the key written, and leaves
    the bytes after it. -/
structure KeyCodec (K : Type) where
  write : K → List UInt8
  read : ReadM K
  read_write : ∀ (k : K) (s : ReadBuffer) (l : List UInt8), s.bytes = write k ++ l →
    ∃ s', read s = .ok (k, s') ∧ s'.bytes = l

/-- `HashTableGrower::set(num_elems)` with `log2` for `static_cast<size_t>(log2(num_elems - 1))`. -/
def setWith (log2 : Nat → Nat) (initial_size_degree num_elems : Nat) : HashTableGrower :=
  ⟨if num_elems ≤ 1 then initial_size_degree
    else if initial_size_degree > log2 (num_elems - 1) + 2 then initial_size_degree
    else log2 (num_elems - 1) + 2⟩

/-- With the floor of the logarithm, `setWith` is the grower's `set`. -/
theorem setWith_log2 : setWith Nat.log2 = HashTableGrower.set := rfl

section Grower

variable {log2 : Nat → Nat} (hlog2 : ∀ m, Nat.log2 m ≤ log2 m) {initial_size_degree : Nat}
  (hd : 1 ≤ initial_size_degree)

include hd in
theorem one_le_degree_setWith (num_elems : Nat) : 1 ≤ (setWith log2 initial_size_degree num_elems).size_degree := by
  simp only [setWith]
  split_ifs <;> omega

include hlog2 hd in
/-- `set(n)` gives a buffer of at least `2n` cells. -/
theorem two_mul_le_bufSize_setWith (num_elems : Nat) :
    2 * num_elems ≤ (setWith log2 initial_size_degree num_elems).bufSize := by
  have hpow : ∀ e, 1 ≤ e → 2 ≤ 2 ^ e := fun e he => by
    calc 2 = 2 ^ 1 := rfl
      _ ≤ 2 ^ e := Nat.pow_le_pow_right (by decide) he
  by_cases hn : num_elems ≤ 1
  · simp only [setWith, if_pos hn, HashTableGrower.bufSize]
    have := hpow _ hd
    omega
  · -- `n - 1 < 2 ^ (log2 (n - 1) + 1)`, and the degree is at least one more
    have hlt : num_elems - 1 < 2 ^ (Nat.log2 (num_elems - 1) + 1) := Nat.lt_log2_self
    have hdeg : Nat.log2 (num_elems - 1) + 2 ≤ (setWith log2 initial_size_degree num_elems).size_degree := by
      simp only [setWith, if_neg hn]
      have := hlog2 (num_elems - 1)
      split_ifs <;> omega
    calc 2 * num_elems ≤ 2 * 2 ^ (Nat.log2 (num_elems - 1) + 1) := by omega
      _ = 2 ^ (Nat.log2 (num_elems - 1) + 2) := by rw [Nat.pow_succ 2 (Nat.log2 (num_elems - 1) + 1), Nat.mul_comm]
      _ ≤ (setWith log2 initial_size_degree num_elems).bufSize := Nat.pow_le_pow_right (by decide) hdeg

include hlog2 hd in
theorem le_maxFill_setWith (num_elems : Nat) : num_elems ≤ (setWith log2 initial_size_degree num_elems).maxFill := by
  have h := two_mul_le_bufSize_setWith hlog2 hd num_elems
  rw [HashTableGrower.bufSize_eq_two_mul_maxFill (one_le_degree_setWith hd num_elems)] at h
  omega

end Grower

end ClickHouseGpu.HashTables.Serialization

namespace ClickHouseGpu.HashTables.Table.HashTable

open ClickHouseGpu.IO ClickHouseGpu.HashTables.Serialization

variable {K : Type} [Zero K] [DecidableEq K] (codec : KeyCodec K)

/-- `write(wb)`: the size, the zero key's cell, then the occupied cells in the buffer's order. -/
def write (t : HashTable K) : List UInt8 :=
  writeVarUInt t.m_size.toUInt64 ++ (if t.has_zero then codec.write 0 else []) ++
    (List.range t.grower.bufSize).flatMap fun i => if t.buf i ≠ 0 then codec.write (t.buf i) else []

section Read

variable (log2 : Nat → Nat) (initial_size_degree : Nat) (hash : K → Nat)

/-- The loop of `read(rb)`: `n` cells, each read by `x.read(rb)` and its key inserted by
    `insert`; `none` where an insertion would not finish. -/
def readCells : Nat → HashTable K → ReadM (Option (HashTable K))
  | 0, t => pure (some t)
  | n + 1, t => do
    let x ← codec.read
    match t.emplace initial_size_degree hash x with
    | none => pure none
    | some (_, _, t) => readCells n t

/-- `read(rb)`: the old keys dropped, a zeroed buffer that `set(new_size)` sizes, then the loop. -/
def read (t : HashTable K) : ReadM (Option (HashTable K)) := do
  let new_size ← readVarUInt
  let t : HashTable K := { t with
    has_zero := false
    m_size := 0
    grower := setWith log2 initial_size_degree new_size.toNat
    buf := fun _ => 0 }
  readCells codec initial_size_degree hash new_size.toNat t

end Read

end ClickHouseGpu.HashTables.Table.HashTable

namespace ClickHouseGpu.HashTables.TwoLevel.TwoLevelHashTable

open ClickHouseGpu.IO ClickHouseGpu.HashTables.Table ClickHouseGpu.HashTables.Serialization

variable {K : Type} [Zero K] [DecidableEq K] (codec : KeyCodec K)

/-- `write(wb)`: the buckets one after another. -/
def write (t : TwoLevelHashTable K) : List UInt8 := (List.finRange NUM_BUCKETS).flatMap fun i => (t.impls i).write codec

section Read

variable (log2 : Nat → Nat) (initial_size_degree : Nat) (hash : K → Nat)

/-- `impls[i].read(rb)` for the buckets `is`, in order. -/
def readImpls (t : TwoLevelHashTable K) : List (Fin NUM_BUCKETS) → ReadM (Option (TwoLevelHashTable K))
  | [] => pure (some t)
  | i :: is => do
    match ← (t.impls i).read codec log2 initial_size_degree hash with
    | none => pure none
    | some u => readImpls (t.update i u) is

/-- `read(rb)`: `for (i = 0; i < NUM_BUCKETS; ++i) impls[i].read(rb)`. -/
def read (t : TwoLevelHashTable K) : ReadM (Option (TwoLevelHashTable K)) :=
  t.readImpls codec log2 initial_size_degree hash (List.finRange NUM_BUCKETS)

end Read

end ClickHouseGpu.HashTables.TwoLevel.TwoLevelHashTable

namespace ClickHouseGpu.HashTables.Serialization

open ClickHouseGpu.IO ClickHouseGpu.HashTables.Table ClickHouseGpu.HashTables.Table.HashTable
open ClickHouseGpu.HashTables.TwoLevel
open ClickHouseGpu.HashTables.SetSemantics (Inv Represents create_spec emplace_spec mem_keys keys_nodup)

variable {K : Type} [Zero K] [DecidableEq K] (codec : KeyCodec K)

/-- `write` gives the size, then the keys in the order of the iteration from `begin()`. -/
theorem write_eq (t : HashTable K) : t.write codec = writeVarUInt t.m_size.toUInt64 ++ t.keys.flatMap codec.write := by
  -- the occupied cells of a run of cells, in order
  have hcells : ∀ l : List Nat, ((l.map t.buf).filter (· ≠ 0)).flatMap codec.write =
      l.flatMap fun i => if t.buf i ≠ 0 then codec.write (t.buf i) else [] := by
    intro l
    induction l with
    | nil => rfl
    | cons i l ih =>
      rw [List.map_cons, List.filter_cons, List.flatMap_cons, ← ih]
      by_cases hi : t.buf i ≠ 0 <;> simp [hi]
  rw [HashTable.write, keys_eq, List.flatMap_append, cellsFrom, Nat.sub_zero, hcells, ← List.range_eq_range',
    List.append_assoc]
  cases t.has_zero <;> simp

/-- An insertion that cannot overflow keeps the buffer: it finishes without `resize`. -/
theorem emplace_grower {initial_size_degree : Nat} {hash : K → Nat} {t t' : HashTable K} {x : K}
    {it : Position} {ins : Bool} (hfill : t.m_size < t.grower.maxFill)
    (h : t.emplace initial_size_degree hash x = some (it, ins, t')) : t'.grower = t.grower := by
  have hover : (t.grower.overflow (t.m_size + 1)) = false := by
    simp only [HashTableGrower.overflow, decide_eq_false_iff_not]
    omega
  unfold emplace emplaceIfZero at h
  by_cases hx : x = 0
  · -- the zero key's flag
    simp only [hx, if_true] at h
    split_ifs at h <;> (simp only [Option.some.injEq, Prod.mk.injEq] at h; rw [← h.2.2])
  · simp only [hx, if_false] at h
    unfold emplaceNonZero at h
    split at h
    · cases h
    · split_ifs at h with hbp
      · simp only [Option.some.injEq, Prod.mk.injEq] at h
        rw [← h.2.2]
      · -- the key goes into an empty cell, and the size stays within `maxFill()`
        dsimp only at h
        simp only [hover, Bool.false_eq_true, if_false, Option.some.injEq, Prod.mk.injEq] at h
        rw [← h.2.2]

/-! ## Reading back -/

section Read

variable {log2 : Nat → Nat} {initial_size_degree : Nat} {hash : K → Nat}

/-- The loop of `read` over keys written one after another: with room for them under
    `maxFill()`, it inserts them all into the buffer it was given. -/
theorem readCells_spec : ∀ (ks : List K) {t : HashTable K} {S : Finset K} {s : ReadBuffer} {l : List UInt8},
    Inv hash t → Represents t S → S.card + ks.length ≤ t.grower.maxFill → s.bytes = ks.flatMap codec.write ++ l →
    ∃ t' s', t.readCells codec initial_size_degree hash ks.length s = .ok (some t', s') ∧ s'.bytes = l ∧
      Inv hash t' ∧ Represents t' (S ∪ ks.toFinset) ∧ t'.grower = t.grower := by
  intro ks
  induction ks with
  | nil =>
    intro t S s l hi hr _ hs
    exact ⟨t, s, rfl, by simpa using hs, hi, by simpa using hr, rfl⟩
  | cons x ks ih =>
    intro t S s l hi hr hfill hs
    rw [List.flatMap_cons, List.append_assoc] at hs
    obtain ⟨s1, hread, hs1⟩ := codec.read_write x s _ hs
    obtain ⟨it, ins, t1, he, hi1, hr1, -⟩ := emplace_spec initial_size_degree hi hr x
    rw [List.length_cons] at hfill
    -- room for one more key: the insertion does not resize
    have hg : t1.grower = t.grower := emplace_grower (by rw [hr.size]; omega) he
    have hfill1 : (insert x S).card + ks.length ≤ t1.grower.maxFill := by
      have := Finset.card_insert_le x S
      rw [hg]
      omega
    obtain ⟨t', s', hcells, hs', hi', hr', hg'⟩ := ih hi1 hr1 hfill1 hs1
    refine ⟨t', s', ?_, hs', hi', ?_, hg'.trans hg⟩
    · rw [List.length_cons, readCells, bind_of_ok hread]
      simp only [he]
      exact hcells
    · rwa [List.toFinset_cons, Finset.union_insert, ← Finset.insert_union]

/-- Reading what `write` wrote: whatever `u` held, the table read holds the keys and size of `t`,
    in the buffer `set(size())` gave it, with no resize. -/
theorem read_write (hlog2 : ∀ m, Nat.log2 m ≤ log2 m) (hd : 1 ≤ initial_size_degree) {t : HashTable K}
    {S : Finset K} (hi : Inv hash t) (hr : Represents t S) (hsize : t.m_size < 2 ^ 63) (u : HashTable K)
    {s : ReadBuffer} {l : List UInt8} (hs : s.bytes = t.write codec ++ l) :
    ∃ u' s', u.read codec log2 initial_size_degree hash s = .ok (some u', s') ∧ s'.bytes = l ∧ Inv hash u' ∧
      Represents u' S ∧ u'.grower = setWith log2 initial_size_degree t.m_size := by
  rw [write_eq, List.append_assoc] at hs
  obtain ⟨v, s1, hv, hvn, hs1⟩ := readVarUInt_writeVarUInt _ hs
  -- the size comes back whole: it has fewer than 63 bits
  have hm : v.toNat = t.m_size := by
    rw [hvn]
    simp only [Nat.toUInt64_eq, UInt64.toNat_ofNat']
    omega
  -- the keys written are those of the set, each once
  have hset : t.keys.toFinset = S := by
    ext k
    rw [List.mem_toFinset, mem_keys, hr.mem]
  have hlen : t.keys.length = t.m_size := by
    rw [hr.size, ← hset, List.toFinset_card_of_nodup (keys_nodup hi.toWf)]
  obtain ⟨hi0, hr0⟩ := @create_spec K _ _ hash _ (one_le_degree_setWith hd t.m_size)
  have hroom : (∅ : Finset K).card + t.keys.length ≤
      (HashTable.create (setWith log2 initial_size_degree t.m_size).size_degree : HashTable K).grower.maxFill := by
    rw [Finset.card_empty, Nat.zero_add, hlen]
    exact le_maxFill_setWith hlog2 hd t.m_size
  obtain ⟨u', s', hcells, hs', hi', hr', hg'⟩ := readCells_spec codec t.keys hi0 hr0 hroom hs1
  rw [hlen] at hcells
  refine ⟨u', s', ?_, hs', hi', by rwa [Finset.empty_union, hset] at hr', hg'⟩
  rw [HashTable.read, bind_of_ok hv, hm]
  exact hcells

end Read

/-! ## Reading back a two-level table -/

section TwoLevelRead

variable {log2 : Nat → Nat} (hlog2 : ∀ m, Nat.log2 m ≤ log2 m) {initial_size_degree : Nat}
  (hd : 1 ≤ initial_size_degree) {hash : K → Nat}

include hlog2 hd in
/-- The loop of `read` over the buckets `is`: each bucket read holds the keys of the bucket
    written, and the others are as they were. -/
theorem readImpls_spec {t : TwoLevelHashTable K} {T : Finset K} (hb : TwoLevelHashTable.Buckets hash t T)
    (hsize : ∀ b, (t.impls b).m_size < 2 ^ 63) :
    ∀ (is : List (Fin NUM_BUCKETS)) (u : TwoLevelHashTable K) {s : ReadBuffer} {l : List UInt8},
      s.bytes = is.flatMap (fun i => (t.impls i).write codec) ++ l →
      ∃ u' s', u.readImpls codec log2 initial_size_degree hash is s = .ok (some u', s') ∧ s'.bytes = l ∧
        (∀ b ∈ is, Inv hash (u'.impls b) ∧
          Represents (u'.impls b) (T.filter fun k => getBucketFromHash (hash k) = b) ∧
          (u'.impls b).grower = setWith log2 initial_size_degree (t.impls b).m_size) ∧
        ∀ b ∉ is, u'.impls b = u.impls b := by
  intro is
  induction is with
  | nil =>
    intro u s l hs
    exact ⟨u, s, rfl, by simpa using hs, fun b hb => absurd hb List.not_mem_nil, fun _ _ => rfl⟩
  | cons i is ih =>
    intro u s l hs
    rw [List.flatMap_cons, List.append_assoc] at hs
    obtain ⟨v, s1, hread, hs1, hiv, hrv, hgv⟩ :=
      read_write codec hlog2 hd (hb.inv i) (hb.represents i) (hsize i) (u.impls i) hs
    obtain ⟨u', s', hrec, hs', hall, hout⟩ := ih (u.update i v) hs1
    refine ⟨u', s', ?_, hs', fun b hbi => ?_, fun b hbi => ?_⟩
    · rw [TwoLevelHashTable.readImpls, bind_of_ok hread]
      exact hrec
    · -- bucket `i` was read last unless a later read took it again
      by_cases hbis : b ∈ is
      · exact hall b hbis
      · have hbi' : b = i := (List.mem_cons.mp hbi).resolve_right hbis
        subst hbi'
        rw [hout b hbis, TwoLevelHashTable.update_impls_self]
        exact ⟨hiv, hrv, hgv⟩
    · have hne : b ≠ i := fun h => hbi (h ▸ List.mem_cons_self)
      rw [hout b fun h => hbi (List.mem_cons_of_mem i h), TwoLevelHashTable.update_impls_of_ne hne]

include hlog2 hd in
/-- Reading what a two-level table wrote, bucket by bucket: the table read has the same buckets
    and size, each bucket in the buffer `set` gave it. -/
theorem TwoLevelHashTable.read_write {t : TwoLevelHashTable K} {T : Finset K}
    (hb : TwoLevelHashTable.Buckets hash t T) (hsize : ∀ b, (t.impls b).m_size < 2 ^ 63) (u : TwoLevelHashTable K)
    {s : ReadBuffer} {l : List UInt8} (hs : s.bytes = t.write codec ++ l) :
    ∃ u' s', u.read codec log2 initial_size_degree hash s = .ok (some u', s') ∧ s'.bytes = l ∧
      TwoLevelHashTable.Buckets hash u' T ∧ u'.size = t.size ∧
      ∀ b, (u'.impls b).grower = setWith log2 initial_size_degree (t.impls b).m_size := by
  obtain ⟨u', s', hread, hs', hall, -⟩ := readImpls_spec codec hlog2 hd hb hsize (List.finRange NUM_BUCKETS) u hs
  have hbu : TwoLevelHashTable.Buckets hash u' T :=
    ⟨fun b => (hall b (List.mem_finRange b)).1, fun b => (hall b (List.mem_finRange b)).2.1⟩
  exact ⟨u', s', hread, hs', hbu, by rw [hbu.size, hb.size], fun b => (hall b (List.mem_finRange b)).2.2⟩

end TwoLevelRead

/-! ## The round trip of a reachable table -/

/-- `write` then `read`, for a table a run from `HashTable()` reached and for a two-level table
    whose buckets have the table invariant: the table read holds the same keys and has the same
    size, and `set(size())` sized its buffer (each bucket's) for at least twice as many cells, so
    that no insertion of `read` resized it. -/
theorem read_restores_written_table (log2 : Nat → Nat) (hlog2 : ∀ m, Nat.log2 m ≤ log2 m) (hash : K → Nat)
    (initial_size_degree : Nat) (hd : 1 ≤ initial_size_degree) :
    (∀ (ops : List (SetSemantics.Op K)) (t : HashTable K), SetSemantics.Admissible ∅ ops →
      SetSemantics.run initial_size_degree hash (HashTable.create initial_size_degree) ops = some t →
      t.m_size < 2 ^ 63 → ∀ (u : HashTable K) (s : ReadBuffer) (l : List UInt8), s.bytes = t.write codec ++ l →
      ∃ u' s', u.read codec log2 initial_size_degree hash s = .ok (some u', s') ∧ s'.bytes = l ∧
        (∀ k, SetSemantics.Mem u' k ↔ SetSemantics.Mem t k) ∧ u'.m_size = t.m_size ∧
        u'.grower = setWith log2 initial_size_degree t.m_size ∧ 2 * t.m_size ≤ u'.grower.bufSize) ∧
    (∀ (t : TwoLevelHashTable K) (T : Finset K), TwoLevelHashTable.Buckets hash t T →
      (∀ b, (t.impls b).m_size < 2 ^ 63) → ∀ (u : TwoLevelHashTable K) (s : ReadBuffer) (l : List UInt8),
      s.bytes = t.write codec ++ l →
      ∃ u' s', u.read codec log2 initial_size_degree hash s = .ok (some u', s') ∧ s'.bytes = l ∧
        (∀ k, u'.Mem k ↔ t.Mem k) ∧ u'.size = t.size ∧
        ∀ b, (u'.impls b).grower = setWith log2 initial_size_degree (t.impls b).m_size ∧
          2 * (t.impls b).m_size ≤ (u'.impls b).grower.bufSize) := by
  constructor
  · intro ops t hadm ht hsize u s l hs
    obtain ⟨hi0, hr0⟩ := @create_spec K _ _ hash _ hd
    obtain ⟨t', hrun, hi, hr⟩ := SetSemantics.run_spec initial_size_degree ops _ _ hi0 hr0 hadm
    rw [ht, Option.some.injEq] at hrun
    subst hrun
    obtain ⟨u', s', hread, hs', -, hr', hg'⟩ := read_write codec hlog2 hd hi hr hsize u hs
    refine ⟨u', s', hread, hs', fun k => (hr'.mem k).trans (hr.mem k).symm, hr'.size.trans hr.size.symm, hg', ?_⟩
    rw [hg']
    exact two_mul_le_bufSize_setWith hlog2 hd _
  · intro t T hb hsize u s l hs
    obtain ⟨u', s', hread, hs', hbu, hsz, hg⟩ := TwoLevelHashTable.read_write codec hlog2 hd hb hsize u hs
    refine ⟨u', s', hread, hs', fun k => (hbu.mem k).trans (hb.mem k).symm, hsz, fun b => ⟨hg b, ?_⟩⟩
    rw [hg b]
    exact two_mul_le_bufSize_setWith hlog2 hd _

/-- One-byte keys: `writeBinary` writes the byte, and `readBinary` reads it back. -/
def uint8Codec : KeyCodec UInt8 where
  write k := [k]
  read := readChar
  read_write _ _ _ h := readChar_of_cons h

/-- The keys `1` and `0` of a table of degree 8, and the empty two-level table, read back from
    what they wrote. -/
theorem read_restores_one_and_zero :
    ∃ t, SetSemantics.run 8 (fun k : UInt8 => k.toNat) (HashTable.create 8) [.emplace 1, .emplace 0] = some t ∧
      (∃ u' s', (HashTable.create 8 : HashTable UInt8).read uint8Codec Nat.log2 8 (fun k : UInt8 => k.toNat)
          ⟨t.write uint8Codec, [], by simp⟩ = .ok (some u', s') ∧
        (∀ k, SetSemantics.Mem u' k ↔ SetSemantics.Mem t k) ∧ u'.m_size = t.m_size) ∧
      ∃ u' s', (TwoLevelHashTable.create 8 : TwoLevelHashTable UInt8).read uint8Codec Nat.log2 8
          (fun k : UInt8 => k.toNat) ⟨(TwoLevelHashTable.create 8).write uint8Codec, [], by simp⟩ = .ok (some u', s') ∧
        u'.size = 0 := by
  obtain ⟨t, hrun, -, -, -, -, -, hsize, -⟩ := SetSemantics.run_set_semantics (fun k : UInt8 => k.toNat) 8
    (by decide) [.emplace 1, .emplace 0] ⟨trivial, trivial, trivial⟩
  have hsmall : t.m_size < 2 ^ 63 := by
    rw [hsize]
    decide
  obtain ⟨h1, h2⟩ := read_restores_written_table uint8Codec Nat.log2 (fun m => le_rfl) (fun k : UInt8 => k.toNat) 8
    (by decide)
  obtain ⟨u', s', hread, -, hmem, hsz, -⟩ := h1 [.emplace 1, .emplace 0] t ⟨trivial, trivial, trivial⟩ hrun hsmall
    (HashTable.create 8) ⟨t.write uint8Codec, [], by simp⟩ [] (by simp [ChunkedStream.Stream.bytes])
  -- the empty two-level table: every bucket new and empty
  have hb : TwoLevelHashTable.Buckets (fun k : UInt8 => k.toNat) (TwoLevelHashTable.create 8) ∅ :=
    TwoLevelHashTable.buckets_create (by decide)
  obtain ⟨v', r', hread2, -, -, hsz2, -⟩ := h2 (TwoLevelHashTable.create 8) ∅ hb (fun _ => Nat.two_pow_pos 63)
    (TwoLevelHashTable.create 8) ⟨(TwoLevelHashTable.create 8).write uint8Codec, [], by simp⟩ []
    (by simp [ChunkedStream.Stream.bytes])
  refine ⟨t, hrun, ⟨u', s', hread, hmem, hsz⟩, v', r', hread2, ?_⟩
  rw [hsz2, hb.size, Finset.card_empty]

end ClickHouseGpu.HashTables.Serialization
