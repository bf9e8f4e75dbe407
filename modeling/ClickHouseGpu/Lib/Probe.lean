import Mathlib.Order.Interval.Finset.Nat

/-
  ClickHouseGpu.Lib.Probe — linear probing over a cyclic buffer of `n` cells, for any cell
  type: the walk `walk n stop fuel p` looks at `p, p+1, …` (mod `n`) and answers the first
  cell where `stop` holds, within `fuel` cells.

  A buffer is a function from positions to cells, changed one cell at a time by `upd`.
  Positions on the way from `p` to `q` are described without `%` by `Before n p q j`: the
  cells the walk passes before it reaches `q`, when `p ≤ q` those of `[p, q)`, and when the
  walk wraps those of `[p, n)` and `[0, q)`.

  A chain from `b` to `j` has no hole (`ChainOK`) when every cell passed on the way holds
  something; the occupied cells of `[0, n)` are counted by `occupied`.

  Proved: the walk's answer is a `stop` cell and no earlier cell on the way is one
  (`walk_spec`); a walk of `n` steps from `p < n` answers as soon as some cell stops it
  (`walk_isSome_of_stop`), and inside `[p, q]` when `q` stops it (`walk_le_of_stop`). Moving a
  value into an empty cell keeps the number of occupied cells (`card_occupied_move`), and a run
  of occupied cells bounds that number from below (`card_occupied_of_run`).
-/

namespace LinearProbe

/-- The buffer `f` with cell `i` set to `v`. -/
def upd {α : Type} (f : Nat → α) (i : Nat) (v : α) : Nat → α := fun j => if j = i then v else f j

@[simp] theorem upd_same {α : Type} (f : Nat → α) (i : Nat) (v : α) : upd f i v i = v := by simp [upd]

@[simp] theorem upd_ne {α : Type} (f : Nat → α) {i j : Nat} (v : α) (h : j ≠ i) : upd f i v j = f j := by
  simp [upd, h]

theorem upd_apply {α : Type} (f : Nat → α) (i : Nat) (v : α) (j : Nat) :
    upd f i v j = if j = i then v else f j := rfl

/-- The first cell from `p` on (cyclically, in `n` cells) where `stop` holds, looking at no
    more than `fuel` cells. -/
def walk (n : Nat) (stop : Nat → Bool) : Nat → Nat → Option Nat
  | 0, _ => none
  | fuel + 1, p => if stop p then some p else walk n stop fuel ((p + 1) % n)

/-- `j` is passed on the way from `p` to `q`, before `q` is reached. -/
def Before (n p q j : Nat) : Prop := j < n ∧ if p ≤ q then p ≤ j ∧ j < q else p ≤ j ∨ j < q

instance (n p q j : Nat) : Decidable (Before n p q j) := by unfold Before; infer_instance

theorem before_step {n p q j : Nat} (hp : p < n) (hq : q < n) (hne : p ≠ q) :
    Before n ((p + 1) % n) q j ↔ Before n p q j ∧ j ≠ p := by
  unfold Before
  by_cases h1 : p + 1 < n
  · rw [Nat.mod_eq_of_lt h1]
    by_cases h2 : p ≤ q <;> by_cases h3 : p + 1 ≤ q <;> simp only [h2, h3, if_true, if_false] <;>
      constructor <;> intro h <;> omega
  · have hn : p + 1 = n := by omega
    rw [hn, Nat.mod_self]
    by_cases h2 : p ≤ q <;> simp only [h2, Nat.zero_le, if_true, if_false, true_and] <;>
      constructor <;> intro h <;> omega

theorem not_before_self (n p q : Nat) : ¬ Before n p q q := by
  unfold Before; split <;> omega

/-- The way from a cell to itself passes nothing. -/
theorem not_before_empty (n p j : Nat) : ¬ Before n p p j := by
  unfold Before; split <;> omega

theorem before_start {n p q : Nat} (hp : p < n) (hne : p ≠ q) : Before n p q p := by
  unfold Before; split <;> omega

theorem before_of_le {n b j c : Nat} (hj : j < n) (hbc : b ≤ c) (hcj : c < j) : Before n b j c := by
  unfold Before; split <;> omega

/-- On a way that wraps past the end, the cells from `b` to the end and those below `j`. -/
theorem before_of_wrap {n b j c : Nat} (hjb : j < b) (hc : c < n) (h : b ≤ c ∨ c < j) :
    Before n b j c := by
  unfold Before; split <;> omega

/-- Of two cells, one comes first on the way from `h`. -/
theorem before_total {n h p q : Nat} (hp : p < n) (hq : q < n) (hpq : p ≠ q) :
    Before n h q p ∨ Before n h p q := by
  unfold Before
  split <;> split <;> omega

theorem before_iff_of_le {n b j c : Nat} (hbj : b ≤ j) (hj : j < n) : Before n b j c ↔ b ≤ c ∧ c < j := by
  unfold Before
  rw [if_pos hbj]
  constructor <;> intro h <;> omega

/-- What the walk answers: a cell that stops it, reached without passing another. -/
theorem walk_spec {n : Nat} {stop : Nat → Bool} :
    ∀ (fuel p q : Nat), p < n → walk n stop fuel p = some q →
      q < n ∧ stop q = true ∧ ∀ j, Before n p q j → stop j = false := by
  intro fuel
  induction fuel with
  | zero => intro p q _ h; simp [walk] at h
  | succ k ih =>
    intro p q hp h
    simp only [walk] at h
    by_cases hs : stop p = true
    · simp only [hs, if_true, Option.some.injEq] at h
      subst h
      exact ⟨hp, hs, fun j hj => by simp only [Before, Nat.le_refl, if_true] at hj; omega⟩
    · simp only [hs, Bool.false_eq_true, if_false] at h
      have hn : 0 < n := by omega
      obtain ⟨hq, hsq, hb⟩ := ih _ q (Nat.mod_lt _ hn) h
      have hne : p ≠ q := by intro e; subst e; exact hs hsq
      refine ⟨hq, hsq, fun j hj => ?_⟩
      by_cases e : j = p
      · subst e; simpa using hs
      · exact hb j ((before_step hp hq hne).mpr ⟨hj, e⟩)

/-- The walk never answers more than `fuel` cells on. -/
theorem walk_none_of_no_stop {n : Nat} {stop : Nat → Bool} (fuel p : Nat) (hp : p < n)
    (h : ∀ j < n, stop j = false) : walk n stop fuel p = none := by
  induction fuel generalizing p with
  | zero => rfl
  | succ k ih =>
    simp only [walk, h p hp, Bool.false_eq_true, if_false]
    exact ih _ (Nat.mod_lt _ (by omega))

/-- The walk answers nothing only when none of the `fuel` cells it looks at stops it. -/
theorem walk_none_stops {n : Nat} {stop : Nat → Bool} :
    ∀ (fuel p : Nat), p < n → walk n stop fuel p = none → ∀ k < fuel, stop ((p + k) % n) = false := by
  intro fuel
  induction fuel with
  | zero => intro p _ _ k hk; omega
  | succ m ih =>
    intro p hp h k hk
    simp only [walk] at h
    by_cases hs : stop p = true
    · simp only [hs, if_true, reduceCtorEq] at h
    · simp only [hs, Bool.false_eq_true, if_false] at h
      cases k with
      | zero => simpa [Nat.mod_eq_of_lt hp] using hs
      | succ k =>
        have hrest := ih _ (Nat.mod_lt _ (by omega)) h k (by omega)
        rwa [Nat.mod_add_mod, show p + 1 + k = p + (k + 1) by omega] at hrest

/-- A walk of `n` steps answers whenever some cell stops it: the `n` cells from `p` are all
    the cells. -/
theorem walk_isSome_of_stop {n : Nat} {stop : Nat → Bool} {p q : Nat} (hp : p < n) (hq : q < n)
    (hs : stop q = true) : ∃ r, walk n stop n p = some r := by
  cases h : walk n stop n p with
  | some r => exact ⟨r, rfl⟩
  | none =>
    have hcover : (p + (q + n - p) % n) % n = q := by
      rw [Nat.add_mod_mod, show p + (q + n - p) = q + n by omega, Nat.add_mod_right, Nat.mod_eq_of_lt hq]
    have hq' := walk_none_stops n p hp h ((q + n - p) % n) (Nat.mod_lt _ (by omega))
    rw [hcover, hs] at hq'
    cases hq'

/-- When `q` stops the walk from `p ≤ q`, the walk answers a cell of `[p, q]`. -/
theorem walk_le_of_stop {n : Nat} {stop : Nat → Bool} {fuel p q r : Nat} (hpq : p ≤ q) (hq : q < n)
    (hs : stop q = true) (h : walk n stop fuel p = some r) : p ≤ r ∧ r ≤ q := by
  obtain ⟨_, _, hb⟩ := walk_spec fuel p r (by omega) h
  have hnot : ¬ Before n p r q := fun hbq => by rw [hb q hbq] at hs; exact Bool.false_ne_true hs
  unfold Before at hnot
  split at hnot <;> omega

/-! ## Chains and occupied cells -/

/-- A cell that held something and is not the emptied one still holds something after a move. -/
theorem upd_move_ne_zero {α : Type} [Zero α] {buf : Nat → α} {p i c : Nat} {x : α} (hx : x ≠ 0)
    (hc : buf c ≠ 0) (hci : c ≠ i) : upd (upd buf p x) i 0 c ≠ 0 := by
  rw [upd_ne _ _ hci, upd_apply]
  split <;> assumption

section Occupied

variable {α : Type} [Zero α] [DecidableEq α]

/-- Every cell passed on the way from `b` to `j` holds something. -/
def ChainOK (buf : Nat → α) (n b j : Nat) : Prop := ∀ c, Before n b j c → buf c ≠ 0

/-- The cells of `[0, n)` that hold something. -/
def occupied (buf : Nat → α) (n : Nat) : Finset Nat := (Finset.range n).filter (fun j => buf j ≠ 0)

@[simp] theorem mem_occupied {buf : Nat → α} {n j : Nat} : j ∈ occupied buf n ↔ j < n ∧ buf j ≠ 0 := by
  simp [occupied]

theorem occupied_congr {buf buf' : Nat → α} {n : Nat} (h : ∀ j, j < n → buf' j = buf j) :
    occupied buf' n = occupied buf n :=
  Finset.filter_congr fun j hj => by rw [h j (Finset.mem_range.mp hj)]

/-- Empty cells past `n` add nothing. -/
theorem occupied_of_zero_above {buf : Nat → α} {n m : Nat} (hnm : n ≤ m)
    (h : ∀ j, n ≤ j → j < m → buf j = 0) : occupied buf m = occupied buf n := by
  ext j
  simp only [mem_occupied]
  constructor
  · rintro ⟨hj, hb⟩
    exact ⟨Nat.lt_of_not_le fun hnj => hb (h j hnj hj), hb⟩
  · rintro ⟨hj, hb⟩
    exact ⟨by omega, hb⟩

/-- Moving the value of cell `i` into the empty cell `p` keeps the number of occupied cells. -/
theorem card_occupied_move {buf : Nat → α} {n p i : Nat} (hp : p < n) (hi : i < n) (hbp : buf p = 0)
    (hbi : buf i ≠ 0) : (occupied (upd (upd buf p (buf i)) i 0) n).card = (occupied buf n).card := by
  have hpi : p ≠ i := fun e => hbi (e ▸ hbp)
  have heq : occupied (upd (upd buf p (buf i)) i 0) n = insert p ((occupied buf n).erase i) := by
    ext j
    by_cases hji : j = i
    · subst hji
      simp [Ne.symm hpi]
    · by_cases hjp : j = p
      · subst hjp
        simp [hji, hp, hbi]
      · simp [hji, hjp]
  have hmem : i ∈ occupied buf n := mem_occupied.mpr ⟨hi, hbi⟩
  have hpos : 0 < (occupied buf n).card := Finset.card_pos.mpr ⟨i, hmem⟩
  rw [heq, Finset.card_insert_of_notMem (by simp [hbp]), Finset.card_erase_of_mem hmem]
  omega

/-- Filling the empty cell `p` adds one occupied cell. -/
theorem card_occupied_fill {buf : Nat → α} {n p : Nat} {x : α} (hp : p < n) (hbp : buf p = 0)
    (hx : x ≠ 0) : (occupied (upd buf p x) n).card = (occupied buf n).card + 1 := by
  have heq : occupied (upd buf p x) n = insert p (occupied buf n) := by
    ext j
    by_cases hjp : j = p
    · subst hjp
      simp [hp, hx]
    · simp [hjp]
  rw [heq, Finset.card_insert_of_notMem (by simp [hbp])]

/-- A run `[lo, hi)` of occupied cells makes at least `hi - lo` occupied cells. -/
theorem card_occupied_of_run {buf : Nat → α} {n lo hi : Nat} (hhi : hi ≤ n)
    (hrun : ∀ c, lo ≤ c → c < hi → buf c ≠ 0) : hi - lo ≤ (occupied buf n).card := by
  have hsub : Finset.Ico lo hi ⊆ occupied buf n := by
    intro c hc
    obtain ⟨h1, h2⟩ := Finset.mem_Ico.mp hc
    exact mem_occupied.mpr ⟨by omega, hrun c h1 h2⟩
  simpa [Nat.card_Ico] using Finset.card_le_card hsub

/-- A run `[lo, hi)` of occupied cells and one more occupied cell outside it make at least
    `hi - lo + 1` occupied cells. -/
theorem card_occupied_of_run_of_mem {buf : Nat → α} {n lo hi j : Nat} (hhi : hi ≤ n)
    (hrun : ∀ c, lo ≤ c → c < hi → buf c ≠ 0) (hj : j < n) (hout : j < lo ∨ hi ≤ j) (hbj : buf j ≠ 0) :
    hi - lo + 1 ≤ (occupied buf n).card := by
  have hsub : insert j (Finset.Ico lo hi) ⊆ occupied buf n := by
    intro c hc
    rcases Finset.mem_insert.mp hc with rfl | hc
    · exact mem_occupied.mpr ⟨hj, hbj⟩
    · obtain ⟨h1, h2⟩ := Finset.mem_Ico.mp hc
      exact mem_occupied.mpr ⟨by omega, hrun c h1 h2⟩
  have hcard := Finset.card_le_card hsub
  rwa [Finset.card_insert_of_notMem (by simp only [Finset.mem_Ico]; omega), Nat.card_Ico] at hcard

end Occupied

end LinearProbe
