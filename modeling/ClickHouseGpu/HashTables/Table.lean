import ClickHouseGpu.Lib.Probe

/-
  ClickHouseGpu.HashTables.Table — `HashTable` (Common/HashTable/HashTable.h) with
  `HashTableGrower` and `HashTableCell`: the open-addressing table behind `HashSet`, `HashMap`
  and the exact aggregation states.

  The buffer has `2 ^ size_degree` cells; a key goes to `place(hash) = hash & mask()` and, by
  linear probing, to the first cell from there that is empty or holds it. The zero key never
  enters the buffer, where a zero cell means empty: it lives in its own cell (`has_zero`), and
  the iterator visits it first. `emplace` counts a new key in `m_size`; a new non-zero key that
  makes `m_size > maxFill()` grows the buffer in place (`resize`): `realloc` keeps the old
  cells and zeroes the new ones, every old cell is re-placed in order (`reinsert`), and then
  the run of cells that starts at the old end.

  Keys are of any type with a zero and decidable equality, the hash any map to naturals (a
  `size_t` masked by `mask()`, so only its low bits matter). `HashTableCell` stores the key
  only, and `setMapped`, `setHash` and the destructors are no-ops for it. A loop of the source
  that runs until it finds a cell is a `walk` over the buffer (`grower.next(pos)` is
  `(pos + 1) & mask()`, the walk's step), and `none` where it would run for ever or read past
  the buffer. `log2` of the grower is the floor of the binary logarithm.

  Proved here, for the proofs of the modules that follow: the grower's arithmetic and the
  specifications of `findCell`, `findEmptyCell` and `reinsert`, read off `walk_spec`.
-/

namespace ClickHouseGpu.HashTables.Table

open LinearProbe

/-- `HashTableGrower<initial_size_degree>`; the initial degree is passed where it is read. -/
structure HashTableGrower where
  size_degree : Nat
  deriving DecidableEq, Repr

namespace HashTableGrower

def bufSize (g : HashTableGrower) : Nat := 2 ^ g.size_degree

def maxFill (g : HashTableGrower) : Nat := 2 ^ (g.size_degree - 1)

def mask (g : HashTableGrower) : Nat := g.bufSize - 1

def place (g : HashTableGrower) (x : Nat) : Nat := x &&& g.mask

def overflow (g : HashTableGrower) (elems : Nat) : Bool := elems > g.maxFill

def increaseSize (g : HashTableGrower) : HashTableGrower :=
  ⟨g.size_degree + if g.size_degree ≥ 23 then 1 else 2⟩

/-- `set(num_elems)`: the degree for a table of `num_elems` elements. -/
def set (initial_size_degree num_elems : Nat) : HashTableGrower :=
  ⟨if num_elems ≤ 1 then initial_size_degree
    else if initial_size_degree > Nat.log2 (num_elems - 1) + 2 then initial_size_degree
    else Nat.log2 (num_elems - 1) + 2⟩

def setBufSize (buf_size : Nat) : HashTableGrower := ⟨Nat.log2 (buf_size - 1) + 1⟩

theorem bufSize_pos (g : HashTableGrower) : 0 < g.bufSize := Nat.two_pow_pos _

@[simp] theorem place_eq_mod (g : HashTableGrower) (x : Nat) : g.place x = x % g.bufSize := by
  simp only [place, mask, bufSize, Nat.and_two_pow_sub_one_eq_mod]

/-- With a degree of at least one, the buffer is twice `maxFill()`. -/
theorem bufSize_eq_two_mul_maxFill {g : HashTableGrower} (h : 1 ≤ g.size_degree) :
    g.bufSize = 2 * g.maxFill := by
  simp only [bufSize, maxFill]
  conv_lhs => rw [show g.size_degree = g.size_degree - 1 + 1 by omega]
  rw [Nat.pow_succ, Nat.mul_comm]

theorem bufSize_lt_of_degree_lt {g g' : HashTableGrower} (h : g.size_degree < g'.size_degree) :
    2 * g.bufSize ≤ g'.bufSize := by
  simp only [bufSize]
  rw [← Nat.pow_succ']
  exact Nat.pow_le_pow_right (by decide) h

theorem bufSize_dvd_of_degree_le {g g' : HashTableGrower} (h : g.size_degree ≤ g'.size_degree) :
    g.bufSize ∣ g'.bufSize :=
  Nat.pow_dvd_pow 2 h

theorem one_le_maxFill (g : HashTableGrower) : 1 ≤ g.maxFill := Nat.one_le_two_pow

theorem two_le_maxFill (g : HashTableGrower) (h : 2 ≤ g.size_degree) : 2 ≤ g.maxFill :=
  Nat.pow_le_pow_right (show 2 > 0 by decide) (show 1 ≤ g.size_degree - 1 by omega)

/-- `increaseSize()` doubles a buffer of `2^23` cells or more and quadruples a smaller one. -/
theorem bufSize_increaseSize (g : HashTableGrower) :
    g.increaseSize.bufSize = if g.size_degree ≥ 23 then 2 * g.bufSize else 4 * g.bufSize := by
  simp only [increaseSize, bufSize]
  split <;> rw [Nat.pow_add] <;> omega

theorem degree_lt_increaseSize (g : HashTableGrower) : g.size_degree < g.increaseSize.size_degree := by
  simp only [increaseSize]
  split <;> omega

theorem maxFill_le_of_degree_le {g g' : HashTableGrower} (h : g.size_degree ≤ g'.size_degree) :
    g.maxFill ≤ g'.maxFill :=
  Nat.pow_le_pow_right (by decide) (by omega)

theorem degree_lt_of_bufSize_lt {g g' : HashTableGrower} (h : g.bufSize < g'.bufSize) :
    g.size_degree < g'.size_degree :=
  (Nat.pow_lt_pow_iff_right (by decide)).mp h

end HashTableGrower

/-- An iterator: the cell of the zero key, or cell `i` of the buffer. -/
inductive Position where
  | zero
  | cell (i : Nat)
  deriving DecidableEq, Repr

structure HashTable (K : Type) where
  m_size : Nat
  has_zero : Bool
  grower : HashTableGrower
  buf : Nat → K

namespace HashTable

variable {K : Type} [Zero K] [DecidableEq K]

/-- `HashTable()`: an empty table over a zeroed buffer of the initial size. -/
def create (initial_size_degree : Nat) : HashTable K := ⟨0, false, ⟨initial_size_degree⟩, fun _ => 0⟩

/-! ## Probing -/

/-- `findCell(x, hash_value, place_value)`: the first cell from `place_value` that is empty or
    holds `x`. -/
def findCell (t : HashTable K) (x : K) (place_value : Nat) : Option Nat :=
  walk t.grower.bufSize (fun p => decide (t.buf p = 0) || decide (t.buf p = x)) t.grower.bufSize place_value

/-- `findEmptyCell(place_value)`. -/
def findEmptyCell (t : HashTable K) (place_value : Nat) : Option Nat :=
  walk t.grower.bufSize (fun p => decide (t.buf p = 0)) t.grower.bufSize place_value

section Ops

variable (initial_size_degree : Nat) (hash : K → Nat)

/-- `reinsert(buf[i], hash)` during `resize`: the cell's key goes to the first cell of its chain
    that is empty, unless it meets itself first. -/
def reinsert (t : HashTable K) (i : Nat) : Option (HashTable K) :=
  let x := t.buf i
  let place_value := t.grower.place (hash x)
  if i = place_value then some t
  else
    match t.findCell x place_value with
    | none => none
    | some p =>
      -- the key stays in its place in the old chain
      if t.buf p ≠ 0 then some t
      else some { t with buf := upd (upd t.buf p x) i 0 }

/-- `for (i = 0; i < old_size; ++i) if (!buf[i].isZero()) reinsert(buf[i], ...)`. -/
def reinsertOld (t : HashTable K) (old_size : Nat) : Option (HashTable K) :=
  (List.range old_size).foldlM (fun t i => if t.buf i ≠ 0 then reinsert hash t i else some t) t

/-- `for (; !buf[i].isZero(); ++i) reinsert(buf[i], ...)`: the run of cells from the old end,
    for at most `fuel` cells; reading past the buffer is `none`. -/
def reinsertTail : Nat → Nat → HashTable K → Option (HashTable K)
  | 0, _, _ => none
  | fuel + 1, i, t =>
    if t.grower.bufSize ≤ i then none
    else if t.buf i = 0 then some t
    else
      match reinsert hash t i with
      | none => none
      | some t' => reinsertTail fuel (i + 1) t'

/-- The part of `resize` after the new size is chosen: `realloc` keeps the old cells and zeroes
    the new ones, then the two loops. -/
def grow (t : HashTable K) (new_grower : HashTableGrower) : Option (HashTable K) :=
  let old_size := t.grower.bufSize
  let t1 : HashTable K := { t with grower := new_grower, buf := fun j => if j < old_size then t.buf j else 0 }
  match reinsertOld hash t1 old_size with
  | none => none
  | some t2 => reinsertTail hash (new_grower.bufSize - old_size + 1) old_size t2

/-- `resize(for_num_elems, for_buf_size)`. -/
def resize (t : HashTable K) (for_num_elems for_buf_size : Nat) : Option (HashTable K) :=
  let new_grower :=
    if for_num_elems ≠ 0 then HashTableGrower.set initial_size_degree for_num_elems
    else if for_buf_size ≠ 0 then HashTableGrower.setBufSize for_buf_size
    else t.grower.increaseSize
  if (for_num_elems ≠ 0 ∨ for_buf_size ≠ 0) ∧ new_grower.bufSize ≤ t.grower.bufSize then some t
  else grow hash t new_grower

/-- `end()`: one past the last cell. -/
def end_ (t : HashTable K) : Position := .cell t.grower.bufSize

/-- `find(x)`. -/
def find (t : HashTable K) (x : K) : Option Position :=
  if x = 0 then some (if t.has_zero then .zero else t.end_)
  else (t.findCell x (t.grower.place (hash x))).map fun p => if t.buf p ≠ 0 then .cell p else t.end_

/-- `has(x)`. -/
def has (t : HashTable K) (x : K) : Option Bool :=
  if x = 0 then some t.has_zero
  else (t.findCell x (t.grower.place (hash x))).map fun p => decide (t.buf p ≠ 0)

/-- `emplaceIfZero`: `none` when the key is not zero (the source's `return false`). -/
def emplaceIfZero (t : HashTable K) (x : K) : Option (Position × Bool × HashTable K) :=
  if x = 0 then
    if !t.has_zero then some (.zero, true, { t with m_size := t.m_size + 1, has_zero := true })
    else some (.zero, false, t)
  else none

/-- `emplaceNonZero`: the iterator, whether the key is new, and the table. -/
def emplaceNonZero (t : HashTable K) (x : K) : Option (Position × Bool × HashTable K) :=
  match t.findCell x (t.grower.place (hash x)) with
  | none => none
  | some place_value =>
    if t.buf place_value ≠ 0 then some (.cell place_value, false, t)
    else
      let t' := { t with buf := upd t.buf place_value x, m_size := t.m_size + 1 }
      if t'.grower.overflow t'.m_size then
        match resize initial_size_degree hash t' 0 0 with
        | none => none
        | some t'' => (t''.find hash x).map fun it => (it, true, t'')
      else some (.cell place_value, true, t')

/-- `emplace(x, it, inserted)`; `insert(x)` of a set cell is the same. -/
def emplace (t : HashTable K) (x : K) : Option (Position × Bool × HashTable K) :=
  match t.emplaceIfZero x with
  | some r => some r
  | none => t.emplaceNonZero initial_size_degree hash x

/-- `insertUniqueNonZero(cell, hash)`: for a non-zero key the table does not hold. -/
def insertUniqueNonZero (t : HashTable K) (x : K) : Option (HashTable K) :=
  match t.findEmptyCell (t.grower.place (hash x)) with
  | none => none
  | some place_value =>
    let t' := { t with buf := upd t.buf place_value x, m_size := t.m_size + 1 }
    if t'.grower.overflow t'.m_size then resize initial_size_degree hash t' 0 0 else some t'

end Ops

/-- `clear()`: `memset` of the buffer's cells to zero. -/
def clear (t : HashTable K) : HashTable K :=
  { t with has_zero := false, m_size := 0, buf := fun j => if j < t.grower.bufSize then 0 else t.buf j }

/-! ## Iteration -/

/-- `while (ptr < buf + bufSize() && ptr->isZero()) ++ptr`, from cell `i`, for at most `fuel`
    cells. -/
def skipZero (t : HashTable K) : Nat → Nat → Nat
  | 0, i => i
  | fuel + 1, i => if i < t.grower.bufSize ∧ t.buf i = 0 then t.skipZero fuel (i + 1) else i

/-- `begin()`. -/
def begin (t : HashTable K) : Position :=
  if t.has_zero then .zero else .cell (t.skipZero t.grower.bufSize 0)

/-- The key an iterator points to. -/
def get (t : HashTable K) : Position → K
  | .zero => 0
  | .cell i => t.buf i

/-- `operator++`: from the zero key's cell (whose key is zero) to the buffer's start, else one
    cell on; then past the empty cells. -/
def next (t : HashTable K) : Position → Position
  | .zero => .cell (t.skipZero t.grower.bufSize 0)
  | .cell i =>
    if t.buf i = 0 then .cell (t.skipZero t.grower.bufSize 0)
    else .cell (t.skipZero t.grower.bufSize (i + 1))

/-- `for (it = begin(); it != end(); ++it)`, collecting the keys, for at most `fuel` steps. -/
def keysFrom (t : HashTable K) : Nat → Position → List K
  | 0, _ => []
  | fuel + 1, it => if it = t.end_ then [] else t.get it :: t.keysFrom fuel (t.next it)

/-- The keys from `begin()` to `end()`. -/
def keys (t : HashTable K) : List K := t.keysFrom (t.grower.bufSize + 2) t.begin

/-! ## What the iteration lists -/

section Iteration

variable (t : HashTable K)

/-- The keys of the cells from `i` on, in the order of the cells. -/
def cellsFrom (i : Nat) : List K := ((List.range' i (t.grower.bufSize - i)).map t.buf).filter (· ≠ 0)

/-- `skipZero` stops at the first occupied cell from `i` on, or at the end. -/
theorem skipZero_spec : ∀ fuel i, i ≤ t.grower.bufSize → t.grower.bufSize - i ≤ fuel →
    i ≤ t.skipZero fuel i ∧ t.skipZero fuel i ≤ t.grower.bufSize ∧
      (∀ c, i ≤ c → c < t.skipZero fuel i → t.buf c = 0) ∧
      (t.skipZero fuel i < t.grower.bufSize → t.buf (t.skipZero fuel i) ≠ 0) := by
  intro fuel
  induction fuel with
  | zero =>
    intro i hi hf
    simp only [skipZero]
    exact ⟨le_rfl, hi, fun c h1 h2 => absurd h2 (by omega), fun h => absurd h (by omega)⟩
  | succ f ih =>
    intro i hi hf
    by_cases hskip : i < t.grower.bufSize ∧ t.buf i = 0
    · simp only [skipZero, if_pos hskip]
      obtain ⟨h1, h2, h3, h4⟩ := ih (i + 1) (by omega) (by omega)
      refine ⟨by omega, h2, fun c hc1 hc2 => ?_, h4⟩
      by_cases hci : c = i
      · rw [hci]
        exact hskip.2
      · exact h3 c (by omega) hc2
    · simp only [skipZero, if_neg hskip]
      refine ⟨le_rfl, hi, fun c h1 h2 => absurd h2 (by omega), fun h hz => hskip ⟨h, hz⟩⟩

theorem cellsFrom_succ {i : Nat} (hi : i < t.grower.bufSize) :
    t.cellsFrom i = (if t.buf i ≠ 0 then [t.buf i] else []) ++ t.cellsFrom (i + 1) := by
  simp only [cellsFrom]
  rw [show t.grower.bufSize - i = (t.grower.bufSize - (i + 1)) + 1 by omega, List.range'_succ,
    List.map_cons, List.filter_cons]
  split <;> simp_all

/-- Empty cells add nothing to the keys from `i` on. -/
theorem cellsFrom_skip : ∀ d i, i + d ≤ t.grower.bufSize → (∀ c, i ≤ c → c < i + d → t.buf c = 0) →
    t.cellsFrom i = t.cellsFrom (i + d) := by
  intro d
  induction d with
  | zero => intro i _ _; rfl
  | succ d ih =>
    intro i hd hz
    rw [t.cellsFrom_succ (by omega), if_neg (not_not_intro (hz i le_rfl (by omega))), List.nil_append,
      ih (i + 1) (by omega) (fun c h1 h2 => hz c (by omega) (by omega))]
    rw [show i + 1 + d = i + (d + 1) by omega]

/-- From an occupied cell `i` (or the end), the iteration lists the keys of the cells from `i` on. -/
theorem keysFrom_cell : ∀ fuel i, t.grower.bufSize - i + 1 ≤ fuel → i ≤ t.grower.bufSize →
    (i < t.grower.bufSize → t.buf i ≠ 0) → t.keysFrom fuel (.cell i) = t.cellsFrom i := by
  intro fuel
  induction fuel with
  | zero => intro i hf; omega
  | succ f ih =>
    intro i hf hi hbi
    by_cases hend : i = t.grower.bufSize
    · subst hend
      simp [keysFrom, end_, cellsFrom]
    have hlt : i < t.grower.bufSize := by omega
    -- one step of `operator++`: past the empty cells after `i`
    obtain ⟨h1, h2, h3, h4⟩ := t.skipZero_spec t.grower.bufSize (i + 1) (by omega) (by omega)
    have hnext : t.next (.cell i) = .cell (t.skipZero t.grower.bufSize (i + 1)) := by
      simp [next, hbi hlt]
    have hne : Position.cell i ≠ t.end_ := by simp [end_, hend]
    rw [keysFrom, if_neg hne, hnext, ih _ (by omega) h2 h4, t.cellsFrom_succ hlt, if_pos (hbi hlt)]
    simp only [get, List.singleton_append, List.cons.injEq, true_and]
    have hskip := t.cellsFrom_skip (t.skipZero t.grower.bufSize (i + 1) - (i + 1)) (i + 1) (by omega)
      (fun c hc1 hc2 => h3 c hc1 (by omega))
    rw [hskip, Nat.add_sub_cancel' h1]

/-- The iteration from `begin()` to `end()`: the zero key, then the keys of the cells in order. -/
theorem keys_eq : t.keys = (if t.has_zero then [0] else []) ++ t.cellsFrom 0 := by
  obtain ⟨h1, h2, h3, h4⟩ := t.skipZero_spec t.grower.bufSize 0 (by omega) (by omega)
  -- from the first occupied cell on: the empty cells before it add nothing
  have hcells : ∀ fuel, t.grower.bufSize + 1 ≤ fuel →
      t.keysFrom fuel (.cell (t.skipZero t.grower.bufSize 0)) = t.cellsFrom 0 := by
    intro fuel hfuel
    have hskip := t.cellsFrom_skip (t.skipZero t.grower.bufSize 0) 0 (by omega)
      (fun c hc1 hc2 => h3 c hc1 (by omega))
    rw [t.keysFrom_cell _ _ (by omega) h2 h4, hskip, Nat.zero_add]
  cases hz : t.has_zero
  · simp only [keys, begin, hz, Bool.false_eq_true, if_false, List.nil_append]
    exact hcells _ (by omega)
  · have hne : Position.zero ≠ t.end_ := by simp [end_]
    simp only [keys, begin, hz, if_true]
    rw [show t.grower.bufSize + 2 = t.grower.bufSize + 1 + 1 from rfl, keysFrom, if_neg hne]
    simp only [next, get, List.singleton_append]
    rw [hcells _ le_rfl]

theorem mem_cellsFrom_zero (k : K) : k ∈ t.cellsFrom 0 ↔ k ≠ 0 ∧ ∃ j, j < t.grower.bufSize ∧ t.buf j = k := by
  simp only [cellsFrom, Nat.sub_zero, List.mem_filter, List.mem_map, List.mem_range'_1, Nat.zero_add,
    decide_eq_true_eq]
  constructor
  · rintro ⟨⟨j, ⟨-, hj⟩, rfl⟩, hk⟩
    exact ⟨hk, j, hj, rfl⟩
  · rintro ⟨hk, j, hj, rfl⟩
    exact ⟨⟨j, ⟨Nat.zero_le j, hj⟩, rfl⟩, hk⟩

end Iteration

/-! ## What one probe finds -/

theorem findCell_spec {t : HashTable K} {x : K} {b p : Nat} (hb : b < t.grower.bufSize)
    (h : t.findCell x b = some p) :
    p < t.grower.bufSize ∧ (t.buf p = 0 ∨ t.buf p = x) ∧
      ∀ c, Before t.grower.bufSize b p c → t.buf c ≠ 0 ∧ t.buf c ≠ x := by
  obtain ⟨hp, hs, hc⟩ := walk_spec _ b p hb h
  refine ⟨hp, by simpa using hs, fun c hbc => ?_⟩
  simpa [not_or] using hc c hbc

theorem findCell_isSome {t : HashTable K} {x : K} {b q : Nat} (hb : b < t.grower.bufSize)
    (hq : q < t.grower.bufSize) (hs : t.buf q = 0 ∨ t.buf q = x) : ∃ p, t.findCell x b = some p :=
  walk_isSome_of_stop hb hq (by simpa using hs)

theorem findEmptyCell_spec {t : HashTable K} {b p : Nat} (hb : b < t.grower.bufSize)
    (h : t.findEmptyCell b = some p) :
    p < t.grower.bufSize ∧ t.buf p = 0 ∧ ChainOK t.buf t.grower.bufSize b p := by
  obtain ⟨hp, hs, hc⟩ := walk_spec _ b p hb h
  exact ⟨hp, by simpa using hs, fun c hbc => by simpa using hc c hbc⟩

theorem findEmptyCell_isSome {t : HashTable K} {b q : Nat} (hb : b < t.grower.bufSize)
    (hq : q < t.grower.bufSize) (hs : t.buf q = 0) : ∃ p, t.findEmptyCell b = some p :=
  walk_isSome_of_stop hb hq (by simpa using hs)

/-- What `reinsert` does with an occupied cell `i` whose key no other cell holds: it leaves the
    table as it is and the chain from the key's place to `i` has no hole, or it moves the key
    into the first empty cell `p` of that chain, which it reaches before `i`. -/
theorem reinsert_spec (hash : K → Nat) {t : HashTable K} {i : Nat} (hi : i < t.grower.bufSize)
    (hx : t.buf i ≠ 0) (hdist : ∀ j, j < t.grower.bufSize → t.buf j = t.buf i → j = i) :
    (reinsert hash t i = some t ∧
      ChainOK t.buf t.grower.bufSize (hash (t.buf i) % t.grower.bufSize) i) ∨
    ∃ p, p < t.grower.bufSize ∧ t.buf p = 0 ∧
      ChainOK t.buf t.grower.bufSize (hash (t.buf i) % t.grower.bufSize) p ∧
      ¬ Before t.grower.bufSize (hash (t.buf i) % t.grower.bufSize) p i ∧
      reinsert hash t i = some { t with buf := upd (upd t.buf p (t.buf i)) i 0 } := by
  have hb : hash (t.buf i) % t.grower.bufSize < t.grower.bufSize := Nat.mod_lt _ t.grower.bufSize_pos
  by_cases hplace : i = hash (t.buf i) % t.grower.bufSize
  · -- the key is at its place: the chain is empty
    refine .inl ⟨?_, fun c hc => ?_⟩
    · simp only [reinsert, HashTableGrower.place_eq_mod]
      rw [if_pos hplace]
    · rw [← hplace] at hc
      exact absurd hc (not_before_empty _ _ _)
  obtain ⟨p, hp⟩ := findCell_isSome hb hi (.inr rfl : t.buf i = 0 ∨ t.buf i = t.buf i)
  obtain ⟨hpn, hstop, hchain⟩ := findCell_spec hb hp
  have hnot : ¬ Before t.grower.bufSize (hash (t.buf i) % t.grower.bufSize) p i :=
    fun h => (hchain i h).2 rfl
  have hreinsert : reinsert hash t i =
      if t.buf p ≠ 0 then some t else some { t with buf := upd (upd t.buf p (t.buf i)) i 0 } := by
    simp only [reinsert, HashTableGrower.place_eq_mod, if_neg hplace, hp]
  by_cases hbp : t.buf p = 0
  · rw [if_neg (not_not_intro hbp)] at hreinsert
    exact .inr ⟨p, hpn, hbp, fun c hc => (hchain c hc).1, hnot, hreinsert⟩
  · -- the walk met the key itself, which no other cell holds
    have hpi : p = i := hdist p hpn (hstop.resolve_left hbp)
    subst hpi
    rw [if_pos hbp] at hreinsert
    exact .inl ⟨hreinsert, fun c hc => (hchain c hc).1⟩

end HashTable

end ClickHouseGpu.HashTables.Table
