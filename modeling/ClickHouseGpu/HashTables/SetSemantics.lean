import Mathlib
import ClickHouseGpu.HashTables.Resize

/-
  ClickHouseGpu.HashTables.SetSemantics — `HashTable` as a set of keys: every run of `emplace`,
  `insertUniqueNonZero`, `resize` and `clear` from a new table keeps the table's invariant and
  represents the set the same operations build, and `has`, `find`, the iterators and `size()`
  answer for that set.

  The abstract model is a finite set of keys with `insert` and the empty set (`Op.apply`). A
  table represents a set (`Represents`) when the keys it holds (`Mem`: the zero key by its flag,
  the others by their cells) are the set's, and `m_size` is its size. `Inv` adds to `Wf` that
  `m_size` counts the occupied cells and the zero key, and that the cells hold at most
  `maxFill()` keys, so that the buffer always has an empty cell and every probe ends.

  Proved:
  - `emplace_spec`, `insertUniqueNonZero_spec`, `resize_keeps`, `clear_spec`: each operation
    keeps `Inv` and does to the set what `Op.apply` says; `emplace` answers whether the key is
    new and an iterator to it.
  - `has_spec`, `find_spec`: the lookups of a table with `Inv` read its set.
  - `keys_eq`: the iteration from `begin()` to `end()` lists the zero key, then the keys of the
    cells in order; with `Inv` it lists the set, each key once (`keys_nodup`, `mem_keys`).
  - `run_spec`: the run lemma, by induction on the operations.
  - `run_set_semantics`: from `HashTable()` every run of operations (with `insertUniqueNonZero`
    only for new non-zero keys) finishes; the table answers `has`, `find`, the iteration and
    `size()` for the set of keys inserted since the last `clear`, keeps every key on its probe
    chain with no hole, and holds at most `maxFill()` keys in its cells, so that
    `size() ≤ maxFill() + 1`.
  - `emplace_zero_exceeds_maxFill`: `emplaceIfZero` counts the zero key without the overflow
    check, so a table of initial degree 3 (as `uniqExact` keeps for strings) that is given
    `1, 2, 3, 4, 0` has `size() = 5 > maxFill() = 4`.
-/

namespace ClickHouseGpu.HashTables.SetSemantics

open LinearProbe ClickHouseGpu.HashTables.Table ClickHouseGpu.HashTables.Table.HashTable
  ClickHouseGpu.HashTables.Resize

variable {K : Type} [Zero K] [DecidableEq K]

/-! ## The set of keys and the operations -/

/-- The operations that change a table. -/
inductive Op (K : Type) where
  | emplace (x : K)
  | insertUniqueNonZero (x : K)
  | resize (for_num_elems for_buf_size : Nat)
  | clear

namespace Op

/-- What an operation does to the set of keys. -/
def apply (S : Finset K) : Op K → Finset K
  | emplace x => insert x S
  | insertUniqueNonZero x => insert x S
  | resize _ _ => S
  | clear => ∅

/-- The caller's promise: `insertUniqueNonZero` only for a non-zero key not in the table. -/
def Allowed (S : Finset K) : Op K → Prop
  | insertUniqueNonZero x => x ≠ 0 ∧ x ∉ S
  | _ => True

end Op

/-- The caller keeps its promise all along a run. -/
def Admissible : Finset K → List (Op K) → Prop
  | _, [] => True
  | S, op :: ops => op.Allowed S ∧ Admissible (op.apply S) ops

section Run

variable (initial_size_degree : Nat) (hash : K → Nat)

def step (t : HashTable K) : Op K → Option (HashTable K)
  | .emplace x => (t.emplace initial_size_degree hash x).map fun r => r.2.2
  | .insertUniqueNonZero x => t.insertUniqueNonZero initial_size_degree hash x
  | .resize for_num_elems for_buf_size => t.resize initial_size_degree hash for_num_elems for_buf_size
  | .clear => some t.clear

def run (t : HashTable K) (ops : List (Op K)) : Option (HashTable K) :=
  ops.foldlM (step initial_size_degree hash) t

end Run

/-- The keys a table holds: the zero key by its flag, the others by their cells. -/
def Mem (t : HashTable K) (k : K) : Prop :=
  (k = 0 ∧ t.has_zero = true) ∨ (k ≠ 0 ∧ ∃ j, j < t.grower.bufSize ∧ t.buf j = k)

/-- The invariant of a table between operations. -/
structure Inv (hash : K → Nat) (t : HashTable K) : Prop extends Wf hash t where
  size_eq : t.m_size = (occupied t.buf t.grower.bufSize).card + if t.has_zero then 1 else 0
  fill : (occupied t.buf t.grower.bufSize).card ≤ t.grower.maxFill

/-- The table represents the set `S`. -/
structure Represents (t : HashTable K) (S : Finset K) : Prop where
  mem : ∀ k, Mem t k ↔ k ∈ S
  size : t.m_size = S.card

/-! ## Probing a table with the invariant -/

section Probing

variable {hash : K → Nat} {t : HashTable K}

theorem Inv.exists_empty (hi : Inv hash t) : ∃ q, q < t.grower.bufSize ∧ t.buf q = 0 := by
  by_contra hno
  push Not at hno
  have hrun := card_occupied_of_run (le_refl _) (fun c (_ : 0 ≤ c) hc => hno c hc)
  have h2 := HashTableGrower.bufSize_eq_two_mul_maxFill hi.degree_pos
  have h1 := t.grower.one_le_maxFill
  have := hi.fill
  omega

/-- What `findCell` answers for a non-zero key: the key's cell when a cell holds it, else an
    empty cell, in both cases at the end of a chain with no hole. -/
theorem findCell_wf (hw : Wf hash t) (hq : ∃ q, q < t.grower.bufSize ∧ t.buf q = 0) {k : K} (hk : k ≠ 0) :
    ∃ p, t.findCell k (hash k % t.grower.bufSize) = some p ∧ p < t.grower.bufSize ∧
      (t.buf p = 0 ∨ t.buf p = k) ∧ ChainOK t.buf t.grower.bufSize (hash k % t.grower.bufSize) p ∧
      ∀ j, j < t.grower.bufSize → t.buf j = k → p = j := by
  obtain ⟨q, hqN, hbq⟩ := hq
  have hh : hash k % t.grower.bufSize < t.grower.bufSize := Nat.mod_lt _ t.grower.bufSize_pos
  obtain ⟨p, hp⟩ := findCell_isSome hh hqN (.inl hbq : t.buf q = 0 ∨ t.buf q = k)
  obtain ⟨hpN, hstop, hchain⟩ := findCell_spec hh hp
  refine ⟨p, hp, hpN, hstop, fun c hc => (hchain c hc).1, fun j hj hbj => ?_⟩
  by_contra hpj
  rcases hstop with hbp | hbp
  · -- the walk met an empty cell: it is not on the key's chain, and the key's cell is not
    -- before it
    rcases before_total hpN hj hpj with hb | hb
    · have hch := hw.chain j hj (by rw [hbj]; exact hk)
      rw [hbj] at hch
      exact hch p hb hbp
    · exact (hchain j hb).2 hbj
  · exact hpj (hw.distinct p j hpN hj (by rw [hbp]; exact hk) (hbp.trans hbj.symm))

/-- A key is held in the cells exactly when `findCell` stops at an occupied cell. -/
theorem findCell_mem (hw : Wf hash t) (hq : ∃ q, q < t.grower.bufSize ∧ t.buf q = 0) {k : K} (hk : k ≠ 0) :
    ∃ p, t.findCell k (hash k % t.grower.bufSize) = some p ∧ p < t.grower.bufSize ∧
      ChainOK t.buf t.grower.bufSize (hash k % t.grower.bufSize) p ∧
      (t.buf p ≠ 0 ↔ Mem t k) ∧ (t.buf p ≠ 0 → t.buf p = k) := by
  obtain ⟨p, hp, hpN, hstop, hch, huniq⟩ := findCell_wf hw hq hk
  refine ⟨p, hp, hpN, hch, ⟨fun hbp => .inr ⟨hk, p, hpN, hstop.resolve_left hbp⟩, ?_⟩,
    fun hbp => hstop.resolve_left hbp⟩
  rintro (⟨hk0, _⟩ | ⟨_, j, hj, hbj⟩)
  · exact absurd hk0 hk
  · rw [huniq j hj hbj, hbj]
    exact hk

theorem has_spec (hi : Inv hash t) {S : Finset K} (hr : Represents t S) (k : K) :
    t.has hash k = some (decide (k ∈ S)) := by
  by_cases hk : k = 0
  · subst hk
    have hzero : (0 : K) ∈ S ↔ t.has_zero = true := by rw [← hr.mem]; simp [Mem]
    cases hz : t.has_zero
    · have hnot : (0 : K) ∉ S := by rw [hzero, hz]; decide
      simp [has, hz, hnot]
    · simp [has, hz, hzero.mpr hz]
  · obtain ⟨p, hp, -, -, hmem, -⟩ := findCell_mem hi.toWf hi.exists_empty hk
    have hkS : t.buf p ≠ 0 ↔ k ∈ S := hmem.trans (hr.mem k)
    simp only [has, hk, if_false, HashTableGrower.place_eq_mod, hp, Option.map_some, Option.some.injEq]
    by_cases hbp : t.buf p = 0
    · have hnot : k ∉ S := fun h => hkS.mpr h hbp
      simp [hbp, hnot]
    · simp [hbp, hkS.mp hbp]

theorem find_spec (hi : Inv hash t) {S : Finset K} (hr : Represents t S) (k : K) :
    ∃ it, t.find hash k = some it ∧ (k ∈ S ↔ it ≠ t.end_) ∧ (it ≠ t.end_ → t.get it = k) := by
  rw [← hr.mem k]
  by_cases hk : k = 0
  · subst hk
    cases hz : t.has_zero
    · refine ⟨t.end_, by simp [find, hz], ?_, fun h => absurd rfl h⟩
      simp [Mem, hz]
    · refine ⟨.zero, by simp [find, hz], ?_, fun _ => rfl⟩
      simp [Mem, hz, end_]
  · obtain ⟨p, hp, hpN, -, hmem, hkey⟩ := findCell_mem hi.toWf hi.exists_empty hk
    have hfind : t.find hash k = some (if t.buf p ≠ 0 then .cell p else t.end_) := by
      simp only [find, hk, if_false, HashTableGrower.place_eq_mod, hp, Option.map_some]
    by_cases hbp : t.buf p = 0
    · refine ⟨t.end_, by simp [hfind, hbp], ?_, fun h => absurd rfl h⟩
      simp only [ne_eq, not_true_eq_false, iff_false]
      exact fun h => hmem.mpr h hbp
    · refine ⟨.cell p, by simp [hfind, hbp], ⟨fun _ => ?_, fun _ => hmem.mp hbp⟩, fun _ => hkey hbp⟩
      simp only [end_, ne_eq, Position.cell.injEq]
      omega

end Probing

/-! ## Inserting a key -/

section Insert

variable {hash : K → Nat} {t : HashTable K}

omit [DecidableEq K] in
/-- A new non-zero key put into the empty cell that ends its chain keeps `Wf`. -/
theorem wf_fill (hw : Wf hash t) {x : K} (hnew : ∀ j, j < t.grower.bufSize → t.buf j ≠ x)
    {p : Nat} (hbp : t.buf p = 0) (hch : ChainOK t.buf t.grower.bufSize (hash x % t.grower.bufSize) p)
    (m : Nat) : Wf hash { t with buf := upd t.buf p x, m_size := m } := by
  -- an occupied cell stays occupied
  have hkeep : ∀ c, t.buf c ≠ 0 → upd t.buf p x c ≠ 0 := by
    intro c hc
    rw [upd_apply]
    split
    · rename_i hcp
      exact absurd (hcp ▸ hbp) hc
    · exact hc
  refine ⟨hw.degree_pos, fun i j hi hj hbi hij => ?_, fun j hj hbj => ?_⟩
  · dsimp only at hi hj hbi hij
    by_cases hip : i = p <;> by_cases hjp : j = p
    · rw [hip, hjp]
    · rw [hip, upd_same, upd_ne _ _ hjp] at hij
      exact absurd hij.symm (hnew j hj)
    · rw [hjp, upd_same, upd_ne _ _ hip] at hij
      exact absurd hij (hnew i hi)
    · rw [upd_ne _ _ hip, upd_ne _ _ hjp] at hij
      rw [upd_ne _ _ hip] at hbi
      exact hw.distinct i j hi hj hbi hij
  · dsimp only at hj hbj ⊢
    by_cases hjp : j = p
    · subst hjp
      rw [upd_same]
      exact fun c hc => hkeep c (hch c hc)
    · rw [upd_ne _ _ hjp] at hbj ⊢
      exact fun c hc => hkeep c (hw.chain j hj hbj c hc)

omit [DecidableEq K] in
/-- The keys of a table whose empty cell `p` is given the non-zero key `x`. -/
theorem mem_fill {p : Nat} (hp : p < t.grower.bufSize) (hbp : t.buf p = 0) {x : K} (hx : x ≠ 0) (m : Nat) (k : K) :
    Mem { t with buf := upd t.buf p x, m_size := m } k ↔ k = x ∨ Mem t k := by
  simp only [Mem]
  constructor
  · rintro (hz | ⟨hk, j, hj, hbj⟩)
    · exact .inr (.inl hz)
    · by_cases hjp : j = p
      · rw [hjp, upd_same] at hbj
        exact .inl hbj.symm
      · rw [upd_ne _ _ hjp] at hbj
        exact .inr (.inr ⟨hk, j, hj, hbj⟩)
  · rintro (rfl | hz | ⟨hk, j, hj, hbj⟩)
    · exact .inr ⟨hx, p, hp, upd_same _ _ _⟩
    · exact .inl hz
    · have hjp : j ≠ p := by
        rintro rfl
        exact hk (hbj ▸ hbp)
      exact .inr ⟨hk, j, hj, by rw [upd_ne _ _ hjp]; exact hbj⟩

/-- A table whose `m_size` stays within `maxFill()` has `Inv`. -/
theorem inv_of_not_overflow (hw : Wf hash t)
    (hsize : t.m_size = (occupied t.buf t.grower.bufSize).card + if t.has_zero then 1 else 0)
    (hover : t.grower.overflow t.m_size = false) : Inv hash t := by
  refine ⟨hw, hsize, ?_⟩
  simp only [HashTableGrower.overflow, gt_iff_lt, decide_eq_false_iff_not, Nat.not_lt] at hover
  omega

/-- `resize()` after an insertion that overflowed: the keys fill at most `maxFill() + 1` cells,
    and the grown table takes twice as many. -/
theorem resize_after_insert (initial_size_degree : Nat) (hw : Wf hash t)
    (hsize : t.m_size = (occupied t.buf t.grower.bufSize).card + if t.has_zero then 1 else 0)
    (hfill : (occupied t.buf t.grower.bufSize).card ≤ t.grower.maxFill + 1) :
    ∃ t', resize initial_size_degree hash t 0 0 = some t' ∧ Inv hash t' ∧ Regrown t t' := by
  obtain ⟨t', hres, hw', hreg, hinc⟩ := resize_spec initial_size_degree hash hw 0 0 hfill (.inl ⟨rfl, rfl⟩)
  have hmax : 2 * t.grower.maxFill ≤ t'.grower.maxFill := by
    have h1 := HashTableGrower.bufSize_eq_two_mul_maxFill hw.degree_pos
    have h2 := HashTableGrower.bufSize_eq_two_mul_maxFill hw'.degree_pos
    have h3 := HashTableGrower.bufSize_lt_of_degree_lt (hinc rfl rfl ▸ t.grower.degree_lt_increaseSize)
    omega
  have h1 := t.grower.one_le_maxFill
  refine ⟨t', hres, ⟨hw', ?_, ?_⟩, hreg⟩
  · rw [hreg.m_size, hreg.has_zero, hreg.card, hsize]
  · rw [hreg.card]
    omega

/-- The end of `insertUniqueNonZero`. -/
theorem overflow_spec (initial_size_degree : Nat) (hw : Wf hash t)
    (hsize : t.m_size = (occupied t.buf t.grower.bufSize).card + if t.has_zero then 1 else 0)
    (hfill : (occupied t.buf t.grower.bufSize).card ≤ t.grower.maxFill + 1) :
    ∃ t', (if t.grower.overflow t.m_size then resize initial_size_degree hash t 0 0 else some t) = some t' ∧
      Inv hash t' ∧ Regrown t t' := by
  cases hover : t.grower.overflow t.m_size
  · exact ⟨t, rfl, inv_of_not_overflow hw hsize hover, Regrown.refl t⟩
  · exact resize_after_insert initial_size_degree hw hsize hfill

/-- The keys of a table after `resize`. -/
theorem mem_regrown {t' : HashTable K} (hreg : Regrown t t') (k : K) : Mem t' k ↔ Mem t k := by
  simp only [Mem, hreg.has_zero]
  constructor
  · rintro (hz | ⟨hk, hcell⟩)
    · exact .inl hz
    · exact .inr ⟨hk, (hreg.keys k hk).mp hcell⟩
  · rintro (hz | ⟨hk, hcell⟩)
    · exact .inl hz
    · exact .inr ⟨hk, (hreg.keys k hk).mpr hcell⟩

variable {S : Finset K}

theorem emplace_spec (initial_size_degree : Nat) (hi : Inv hash t) (hr : Represents t S) (x : K) :
    ∃ it ins t', t.emplace initial_size_degree hash x = some (it, ins, t') ∧ Inv hash t' ∧
      Represents t' (insert x S) ∧ ins = decide (x ∉ S) ∧ it ≠ t'.end_ ∧ t'.get it = x := by
  by_cases hx : x = 0
  · -- the zero key: its flag
    subst hx
    have hzero : (0 : K) ∈ S ↔ t.has_zero = true := by rw [← hr.mem]; simp [Mem]
    cases hz : t.has_zero
    · have hnot : (0 : K) ∉ S := by rw [hzero, hz]; decide
      refine ⟨.zero, true, { t with m_size := t.m_size + 1, has_zero := true }, by simp [emplace, emplaceIfZero, hz],
        ⟨⟨hi.degree_pos, hi.distinct, hi.chain⟩, ?_, hi.fill⟩, ⟨fun k => ?_, ?_⟩, by simp [hnot], by simp [end_], rfl⟩
      · have hs := hi.size_eq
        rw [hz] at hs
        show t.m_size + 1 = (occupied t.buf t.grower.bufSize).card + 1
        simpa using hs
      · rw [Finset.mem_insert, ← hr.mem]
        simp only [Mem]
        by_cases hk : k = 0 <;> simp [hk]
      · rw [Finset.card_insert_of_notMem hnot, ← hr.size]
    · have hin : (0 : K) ∈ S := hzero.mpr hz
      refine ⟨.zero, false, t, by simp [emplace, emplaceIfZero, hz], hi, by rwa [Finset.insert_eq_of_mem hin],
        by simp [hin], by simp [end_], rfl⟩
  · -- a non-zero key: its cell, or the empty cell that ends its chain
    have hemp : t.emplace initial_size_degree hash x = t.emplaceNonZero initial_size_degree hash x := by
      simp [emplace, emplaceIfZero, hx]
    obtain ⟨p, hp, hpN, hch, hmem, hkey⟩ := findCell_mem hi.toWf hi.exists_empty hx
    have hxS : x ∈ S ↔ t.buf p ≠ 0 := by rw [← hr.mem, hmem]
    by_cases hbp : t.buf p = 0
    · have hnot : x ∉ S := by rw [hxS]; exact not_not_intro hbp
      have hnew : ∀ j, j < t.grower.bufSize → t.buf j ≠ x := fun j hj hbj =>
        hnot (hr.mem x |>.mp (.inr ⟨hx, j, hj, hbj⟩))
      -- the table with the key in its cell, before the overflow check
      obtain ⟨t1, ht1⟩ : ∃ t1 : HashTable K, t1 = { t with buf := upd t.buf p x, m_size := t.m_size + 1 } :=
        ⟨_, rfl⟩
      have ht1g : t1.grower = t.grower := by rw [ht1]
      have hw1 : Wf hash t1 := ht1 ▸ wf_fill hi.toWf hnew hbp hch _
      have hcard1 : (occupied t1.buf t1.grower.bufSize).card = (occupied t.buf t.grower.bufSize).card + 1 := by
        rw [ht1]
        exact card_occupied_fill hpN hbp hx
      have hsize1 : t1.m_size = (occupied t1.buf t1.grower.bufSize).card + if t1.has_zero then 1 else 0 := by
        rw [hcard1]
        have := hi.size_eq
        rw [ht1]
        dsimp only
        omega
      have hmem1 : ∀ k, Mem t1 k ↔ k ∈ insert x S := fun k => by
        rw [ht1, mem_fill hpN hbp hx, Finset.mem_insert, hr.mem]
      have hsizeS : t1.m_size = (insert x S).card := by
        rw [Finset.card_insert_of_notMem hnot, ← hr.size, ht1]
      have hres : t.emplaceNonZero initial_size_degree hash x =
          if t1.grower.overflow t1.m_size then
            (resize initial_size_degree hash t1 0 0).bind fun t'' => (t''.find hash x).map fun it => (it, true, t'')
          else some (.cell p, true, t1) := by
        rw [ht1]
        simp only [emplaceNonZero, HashTableGrower.place_eq_mod, hp, ne_eq, hbp, not_true_eq_false, if_false]
        -- the `match` of `emplaceNonZero` on the result of `resize` is `Option.bind`
        congr 1
        split <;> simp_all
      rw [hemp, hres]
      cases hover : t1.grower.overflow t1.m_size
      · refine ⟨.cell p, true, t1, rfl, inv_of_not_overflow hw1 hsize1 hover, ⟨hmem1, hsizeS⟩,
          by simp [hnot], ?_, by simp [HashTable.get, ht1]⟩
        simp only [end_, ht1g, ne_eq, Position.cell.injEq]
        exact Nat.ne_of_lt hpN
      · obtain ⟨t2, hres2, hi2, hreg⟩ := resize_after_insert initial_size_degree hw1 hsize1
          (by rw [hcard1, ht1g]; exact Nat.add_le_add_right hi.fill 1)
        have hr2 : Represents t2 (insert x S) :=
          ⟨fun k => by rw [mem_regrown hreg, hmem1], by rw [hreg.m_size, hsizeS]⟩
        obtain ⟨it, hfind, hitS, hget⟩ := find_spec hi2 hr2 x
        have hit : it ≠ t2.end_ := hitS.mp (Finset.mem_insert_self x S)
        refine ⟨it, true, t2, by simp [hres2, hfind], hi2, hr2, by simp [hnot], hit, hget hit⟩
    · -- the key is there already
      have hin : x ∈ S := hxS.mpr hbp
      have hres : t.emplaceNonZero initial_size_degree hash x = some (.cell p, false, t) := by
        simp [emplaceNonZero, hp, hbp]
      refine ⟨.cell p, false, t, by rw [hemp, hres], hi, by rwa [Finset.insert_eq_of_mem hin],
        by simp [hin], ?_, hkey hbp⟩
      simp only [end_, ne_eq, Position.cell.injEq]
      exact Nat.ne_of_lt hpN

theorem insertUniqueNonZero_spec (initial_size_degree : Nat) (hi : Inv hash t) (hr : Represents t S) {x : K}
    (hx : x ≠ 0) (hnot : x ∉ S) :
    ∃ t', t.insertUniqueNonZero initial_size_degree hash x = some t' ∧ Inv hash t' ∧ Represents t' (insert x S) := by
  obtain ⟨q, hqN, hbq⟩ := hi.exists_empty
  have hh : t.grower.place (hash x) < t.grower.bufSize := by
    rw [HashTableGrower.place_eq_mod]
    exact Nat.mod_lt _ t.grower.bufSize_pos
  obtain ⟨p, hp⟩ := findEmptyCell_isSome hh hqN hbq
  obtain ⟨hpN, hbp, hch⟩ := findEmptyCell_spec hh hp
  rw [HashTableGrower.place_eq_mod] at hch
  have hnew : ∀ j, j < t.grower.bufSize → t.buf j ≠ x := fun j hj hbj =>
    hnot (hr.mem x |>.mp (.inr ⟨hx, j, hj, hbj⟩))
  obtain ⟨t1, ht1⟩ : ∃ t1 : HashTable K, t1 = { t with buf := upd t.buf p x, m_size := t.m_size + 1 } :=
    ⟨_, rfl⟩
  have ht1g : t1.grower = t.grower := by rw [ht1]
  have hw1 : Wf hash t1 := ht1 ▸ wf_fill hi.toWf hnew hbp hch _
  have hcard1 : (occupied t1.buf t1.grower.bufSize).card = (occupied t.buf t.grower.bufSize).card + 1 := by
    rw [ht1]
    exact card_occupied_fill hpN hbp hx
  have hsize1 : t1.m_size = (occupied t1.buf t1.grower.bufSize).card + if t1.has_zero then 1 else 0 := by
    rw [hcard1]
    have := hi.size_eq
    rw [ht1]
    dsimp only
    omega
  obtain ⟨t2, hres, hi2, hreg⟩ := overflow_spec initial_size_degree hw1 hsize1
    (by rw [hcard1, ht1g]; exact Nat.add_le_add_right hi.fill 1)
  refine ⟨t2, by rw [← hres, ht1]; simp only [insertUniqueNonZero, hp], hi2, ⟨fun k => ?_, ?_⟩⟩
  · rw [mem_regrown hreg, ht1, mem_fill hpN hbp hx, Finset.mem_insert, hr.mem]
  · rw [hreg.m_size, Finset.card_insert_of_notMem hnot, ← hr.size, ht1]

end Insert

/-! ## Resize and clear -/

section Other

variable {hash : K → Nat} {t : HashTable K} {S : Finset K}

theorem resize_keeps (initial_size_degree : Nat) (hi : Inv hash t) (hr : Represents t S)
    (for_num_elems for_buf_size : Nat) :
    ∃ t', t.resize initial_size_degree hash for_num_elems for_buf_size = some t' ∧ Inv hash t' ∧
      Represents t' S := by
  obtain ⟨t', hres, hw', hreg, -⟩ := resize_spec initial_size_degree hash hi.toWf for_num_elems for_buf_size
    (Nat.le_succ_of_le hi.fill) (.inr hi.fill)
  have hmax := HashTableGrower.maxFill_le_of_degree_le hreg.degree_le
  refine ⟨t', hres, ⟨hw', ?_, ?_⟩, ⟨fun k => by rw [mem_regrown hreg, hr.mem], by rw [hreg.m_size, hr.size]⟩⟩
  · rw [hreg.m_size, hreg.has_zero, hreg.card, hi.size_eq]
  · rw [hreg.card]
    exact hi.fill.trans hmax

theorem clear_spec (hi : Inv hash t) : Inv hash t.clear ∧ Represents t.clear (∅ : Finset K) := by
  -- every cell of the buffer is zero
  have hzero : ∀ j, j < t.grower.bufSize → t.clear.buf j = 0 := fun j hj => by simp [clear, hj]
  have hocc : occupied t.clear.buf t.clear.grower.bufSize = ∅ := by
    ext j
    simp only [mem_occupied, Finset.notMem_empty, iff_false, not_and, not_not]
    exact hzero j
  refine ⟨⟨⟨hi.degree_pos, fun i j hi' _ hbi _ => absurd (hzero i hi') hbi,
    fun j hj hbj => absurd (hzero j hj) hbj⟩, ?_, ?_⟩, ⟨fun k => ?_, rfl⟩⟩
  · rw [hocc]
    simp [clear]
  · rw [hocc]
    simp
  · constructor
    · rintro (⟨_, hz⟩ | ⟨hk, j, hj, hbj⟩)
      · simp [clear] at hz
      · exact absurd (hbj.symm.trans (hzero j hj)) hk
    · intro h
      exact absurd h (Finset.notMem_empty k)

end Other

/-! ## Iteration -/

section Iteration

variable {t : HashTable K}

theorem mem_keys (k : K) : k ∈ t.keys ↔ Mem t k := by
  rw [keys_eq, List.mem_append, mem_cellsFrom_zero, Mem]
  cases t.has_zero <;> simp

theorem keys_nodup {hash : K → Nat} (hw : Wf hash t) : t.keys.Nodup := by
  have hcells : (t.cellsFrom 0).Nodup := by
    simp only [cellsFrom, Nat.sub_zero]
    rw [List.filter_map]
    refine List.Nodup.map_on (fun a ha b hb hab => ?_) ((List.nodup_range' ..).filter _)
    simp only [List.mem_filter, List.mem_range', Function.comp, decide_eq_true_eq] at ha hb
    exact hw.distinct a b (by omega) (by omega) ha.2 hab
  rw [keys_eq]
  cases t.has_zero
  · simpa using hcells
  · simp only [if_true, List.singleton_append, List.nodup_cons]
    exact ⟨fun h => ((t.mem_cellsFrom_zero 0).mp h).1 rfl, hcells⟩

theorem keys_head (hz : t.has_zero = true) : t.keys.head? = some 0 := by
  simp [keys_eq, hz]

end Iteration

/-! ## Runs -/

section Runs

variable {hash : K → Nat}

theorem step_spec (initial_size_degree : Nat) {t : HashTable K} {S : Finset K} (hi : Inv hash t)
    (hr : Represents t S) (op : Op K) (hop : op.Allowed S) :
    ∃ t', step initial_size_degree hash t op = some t' ∧ Inv hash t' ∧ Represents t' (op.apply S) := by
  cases op with
  | emplace x =>
    obtain ⟨it, ins, t', he, hi', hr', -⟩ := emplace_spec initial_size_degree hi hr x
    exact ⟨t', by simp [step, he], hi', hr'⟩
  | insertUniqueNonZero x => exact insertUniqueNonZero_spec initial_size_degree hi hr hop.1 hop.2
  | resize a b => exact resize_keeps initial_size_degree hi hr a b
  | clear =>
    obtain ⟨hi', hr'⟩ := clear_spec hi
    exact ⟨t.clear, rfl, hi', hr'⟩

/-- The run lemma: a run the caller keeps its promise on finishes with the invariant and
    represents the set the same operations build. -/
theorem run_spec (initial_size_degree : Nat) :
    ∀ (ops : List (Op K)) (t : HashTable K) (S : Finset K), Inv hash t → Represents t S → Admissible S ops →
      ∃ t', run initial_size_degree hash t ops = some t' ∧ Inv hash t' ∧ Represents t' (ops.foldl Op.apply S) := by
  intro ops
  induction ops with
  | nil => intro t S hi hr _; exact ⟨t, rfl, hi, hr⟩
  | cons op ops ih =>
    intro t S hi hr hadm
    obtain ⟨t1, hstep, hi1, hr1⟩ := step_spec initial_size_degree hi hr op hadm.1
    obtain ⟨t2, hrun, hi2, hr2⟩ := ih t1 (op.apply S) hi1 hr1 hadm.2
    exact ⟨t2, by simp only [run, List.foldlM_cons, hstep]; exact hrun, hi2, hr2⟩

theorem create_spec {initial_size_degree : Nat} (hd : 1 ≤ initial_size_degree) :
    Inv hash (create initial_size_degree : HashTable K) ∧ Represents (create initial_size_degree : HashTable K) ∅ := by
  have hocc : occupied (create initial_size_degree : HashTable K).buf (create initial_size_degree : HashTable K).grower.bufSize = ∅ := by
    ext j
    simp [create]
  refine ⟨⟨⟨hd, fun i j _ _ hbi _ => absurd rfl hbi, fun j _ hbj => absurd rfl hbj⟩, ?_, ?_⟩,
    ⟨fun k => ?_, rfl⟩⟩
  · rw [hocc]
    rfl
  · rw [hocc]
    exact Nat.zero_le _
  · constructor
    · rintro (⟨_, hz⟩ | ⟨hk, j, _, hbj⟩)
      · exact absurd hz Bool.false_ne_true
      · exact absurd hbj.symm hk
    · intro h
      exact absurd h (Finset.notMem_empty k)

end Runs

/-! ## The set semantics of a whole run -/

theorem run_set_semantics (hash : K → Nat) (initial_size_degree : Nat) (hd : 1 ≤ initial_size_degree)
    (ops : List (Op K)) (hadm : Admissible ∅ ops) :
    ∃ t, run initial_size_degree hash (create initial_size_degree) ops = some t ∧
      (∀ k, t.has hash k = some (decide (k ∈ ops.foldl Op.apply ∅))) ∧
      (∀ k, ∃ it, t.find hash k = some it ∧ (k ∈ ops.foldl Op.apply ∅ ↔ it ≠ t.end_) ∧
        (it ≠ t.end_ → t.get it = k)) ∧
      t.keys.Nodup ∧ (∀ k, k ∈ t.keys ↔ k ∈ ops.foldl Op.apply ∅) ∧
      ((0 : K) ∈ ops.foldl Op.apply ∅ → t.keys.head? = some 0) ∧
      t.m_size = (ops.foldl Op.apply ∅).card ∧
      (∀ j, j < t.grower.bufSize → t.buf j ≠ 0 →
        ChainOK t.buf t.grower.bufSize (t.grower.place (hash (t.buf j))) j) ∧
      (occupied t.buf t.grower.bufSize).card ≤ t.grower.maxFill ∧ t.m_size ≤ t.grower.maxFill + 1 := by
  obtain ⟨hi0, hr0⟩ : Inv hash (create initial_size_degree : HashTable K) ∧
      Represents (create initial_size_degree : HashTable K) ∅ := create_spec hd
  obtain ⟨t, hrun, hi, hr⟩ := run_spec initial_size_degree ops _ _ hi0 hr0 hadm
  refine ⟨t, hrun, has_spec hi hr, find_spec hi hr, keys_nodup hi.toWf,
    fun k => by rw [mem_keys, hr.mem], fun h0 => keys_head ?_, hr.size, fun j hj hbj => ?_, hi.fill, ?_⟩
  · have := (hr.mem 0).mpr h0
    simpa [Mem] using this
  · rw [HashTableGrower.place_eq_mod]
    exact hi.chain j hj hbj
  · have := hi.size_eq
    have := hi.fill
    split at * <;> omega

/-- `1`, then `2` by `insertUniqueNonZero`, then the zero key: the run finishes with three keys. -/
theorem run_set_semantics_small :
    ∃ t, run 3 (fun k : Nat => k) (create 3) [.emplace 1, .insertUniqueNonZero 2, .emplace 0] = some t ∧
      t.m_size = 3 := by
  obtain ⟨t, hrun, -, -, -, -, -, hsize, -⟩ := run_set_semantics (fun k : Nat => k) 3 (by decide)
    [.emplace 1, .insertUniqueNonZero 2, .emplace 0] ⟨trivial, ⟨by decide, by decide⟩, trivial, trivial⟩
  exact ⟨t, hrun, by rw [hsize]; decide⟩

/-- `1, 2, 3, 4` fill the four cells `maxFill()` allows in a table of initial degree 3; the
    zero key then makes `size()` five. -/
theorem emplace_zero_exceeds_maxFill :
    (run 3 (fun k : Nat => k) (create 3) [.emplace 1, .emplace 2, .emplace 3, .emplace 4, .emplace 0]).map
      (fun t => (t.m_size, t.grower.maxFill)) = some (5, 4) := by
  rfl

end ClickHouseGpu.HashTables.SetSemantics
