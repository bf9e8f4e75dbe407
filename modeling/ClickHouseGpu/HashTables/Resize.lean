import ClickHouseGpu.HashTables.Table

/-
  ClickHouseGpu.HashTables.Resize — `HashTable::resize` grows the buffer in place and keeps the
  table's representation invariant.

  The invariant `Wf`: the buffer has at least two cells, no key sits in two cells, and every key
  sits on the probe chain from its place with no empty cell on the way (`ChainOK`). After
  `realloc` the old `N` cells are followed by `M - N` zero cells (`M ≥ 2N`) and every key has a
  new place `hash % M`, which is its old place or that place plus a multiple of `N`.

  The first loop visits the old cells in order. A key moved by the visit of cell `i` lands below
  `i` or in the new cells, so the cells `[i, N)` are still the old ones when it reaches them
  (`OldPass`). After it every key below `N` has a chain with no hole, and so has every key in the
  new cells whose place is a new cell; a key whose place is an old cell but which the loop put in
  the new cells (its old chain wrapped past the end) sits in the run of occupied cells that
  starts at `N`, and the cells on its chain below `N` may have been emptied since. The second
  loop re-places exactly that run (`TailPass`), each key moving left or staying. Two counting
  facts keep the wrapped cases apart: the new cells are never all occupied while an old cell is,
  and the old cells are never all occupied while a new one is (`tail_not_full`,
  `low_not_full`); they need at most `N` keys and fewer than `M - N`.

  Proved:
  - `grow_spec`: from a table with `Wf` and few enough keys, the two loops of `resize` finish
    and give a table with `Wf` for the new size that holds the same keys in as many cells.
  - `resize_spec`: `resize` of a table whose keys fill at most `maxFill() + 1` cells (at most
    `maxFill()` when it is asked for a size) finishes with `Wf`, the same keys in as many cells
    and a degree that has not shrunk (`Regrown`); `resize()` with no argument grows to
    `increaseSize()`.
-/

namespace ClickHouseGpu.HashTables.Resize

open LinearProbe ClickHouseGpu.HashTables.Table ClickHouseGpu.HashTables.Table.HashTable

variable {K : Type} [Zero K] [DecidableEq K]

/-- The representation invariant of the buffer. -/
structure Wf (hash : K → Nat) (t : HashTable K) : Prop where
  degree_pos : 1 ≤ t.grower.size_degree
  distinct : ∀ i j, i < t.grower.bufSize → j < t.grower.bufSize → t.buf i ≠ 0 → t.buf i = t.buf j → i = j
  chain : ∀ j, j < t.grower.bufSize → t.buf j ≠ 0 →
    ChainOK t.buf t.grower.bufSize (hash (t.buf j) % t.grower.bufSize) j

/-- A place in the bigger buffer below the old size is the old place. -/
theorem mod_eq_of_mod_lt {x N M : Nat} (hdvd : N ∣ M) (h : x % M < N) : x % M = x % N := by
  rw [← Nat.mod_mod_of_dvd x hdvd, Nat.mod_eq_of_lt h]

section Passes

variable (hash : K → Nat) (B0 : Nat → K) (N M : Nat)

/-- What the buffer keeps of the buffer `B0` that `realloc` returned: the same keys, each in one
    cell, in as many cells. -/
structure SameKeys (B : Nat → K) : Prop where
  keys : ∀ k, k ≠ 0 → ((∃ j, j < M ∧ B j = k) ↔ (∃ j, j < N ∧ B0 j = k))
  distinct : ∀ i j, i < M → j < M → B i ≠ 0 → B i = B j → i = j
  card : (occupied B M).card = (occupied B0 M).card

variable {hash B0 N M}

/-- Moving a key into an empty cell keeps the keys. -/
theorem SameKeys.move {B : Nat → K} (h : SameKeys B0 N M B) {p i : Nat} (hp : p < M) (hi : i < M)
    (hbp : B p = 0) (hbi : B i ≠ 0) : SameKeys B0 N M (upd (upd B p (B i)) i 0) := by
  have hpi : p ≠ i := fun e => hbi (e ▸ hbp)
  -- the new buffer is the old one with `B i` at `p` and nothing at `i`
  have hval : ∀ j, upd (upd B p (B i)) i 0 j = if j = i then 0 else if j = p then B i else B j := by
    intro j
    simp only [upd_apply]
  refine ⟨fun k hk => ?_, fun a c ha hc hz hac => ?_, ?_⟩
  · rw [← h.keys k hk]
    constructor
    · rintro ⟨j, hj, hbj⟩
      rw [hval] at hbj
      by_cases hji : j = i
      · simp only [hji, if_true] at hbj
        exact absurd hbj.symm hk
      by_cases hjp : j = p
      · simp only [hjp, hpi, if_false, if_true] at hbj
        exact ⟨i, hi, hbj⟩
      · simp only [hji, hjp, if_false] at hbj
        exact ⟨j, hj, hbj⟩
    · rintro ⟨j, hj, hbj⟩
      by_cases hji : j = i
      · subst hji
        exact ⟨p, hp, by rw [hval]; simp [hpi, hbj]⟩
      · have hjp : j ≠ p := by
          rintro rfl
          exact hk (hbj.symm.trans hbp)
        exact ⟨j, hj, by rw [hval]; simp [hji, hjp, hbj]⟩
  · rw [hval] at hz
    rw [hval, hval] at hac
    by_cases hai : a = i
    · simp [hai] at hz
    by_cases hci : c = i
    · simp only [hai, hci, if_false, if_true] at hz hac
      exact absurd hac hz
    simp only [hai, hci, if_false] at hz hac
    by_cases hap : a = p <;> by_cases hcp : c = p
    · exact hap.trans hcp.symm
    · simp only [hap, hcp, if_true, if_false] at hac
      exact absurd (h.distinct i c hi hc hbi hac) (Ne.symm hci)
    · simp only [hap, hcp, if_true, if_false] at hz hac
      exact absurd (h.distinct a i ha hi hz hac) hai
    · simp only [hap, hcp, if_false] at hz hac
      exact h.distinct a c ha hc hz hac
  · rw [card_occupied_move hp hi hbp hbi, h.card]

variable (hash B0 N M)

/-- What the first loop keeps once it has visited the cells `[0, i)`. -/
structure OldPass (i : Nat) (B : Nat → K) : Prop extends SameKeys B0 N M B where
  unvisited : ∀ j, i ≤ j → j < N → B j = B0 j
  settled : ∀ j, j < i → B j ≠ 0 →
    ChainOK B M (hash (B j) % M) j ∧ (hash (B j) % M ≤ j ∨ N ≤ hash (B j) % M)
  tail : ∀ j, N ≤ j → j < M → B j ≠ 0 →
    (N ≤ hash (B j) % M ∧ hash (B j) % M ≤ j ∧ ChainOK B M (hash (B j) % M) j) ∨
    (hash (B j) % M < N ∧ ∀ c, N ≤ c → c < j → B c ≠ 0)

/-- What the second loop keeps once it has visited the cells `[N, i)` of the run `[N, e)`. -/
structure TailPass (e i : Nat) (B : Nat → K) : Prop extends SameKeys B0 N M B where
  full : ∀ j, i ≤ j → j < e → B j ≠ 0
  stop : B e = 0
  settled : ∀ j, j < M → B j ≠ 0 → (j < i ∨ e ≤ j) →
    ChainOK B M (hash (B j) % M) j ∧ ∀ c, Before M (hash (B j) % M) j c → c < i ∨ e ≤ c
  home_le : ∀ j, i ≤ j → j < e → hash (B j) % M ≤ j

variable {hash B0 N M}

/-! ## Counting -/

section Counting

variable {B : Nat → K} (hs : SameKeys B0 N M B)
include hs

/-- With fewer than `M - N` keys, the new cells are not all occupied. -/
theorem tail_not_full (hfew : (occupied B0 M).card < M - N)
    (htail : ∀ c, N ≤ c → c < M → B c ≠ 0) : False := by
  have hrun := card_occupied_of_run (le_refl M) htail
  rw [hs.card] at hrun
  omega

/-- With at most `N` keys, the old cells are not all occupied while a new cell is. -/
theorem low_not_full (hfew : (occupied B0 M).card ≤ N) (hlow : ∀ c, c < N → B c ≠ 0) {j : Nat}
    (hNj : N ≤ j) (hj : j < M) (hbj : B j ≠ 0) : False := by
  have hrun := card_occupied_of_run_of_mem (by omega) (fun c (_ : 0 ≤ c) (hc : c < N) => hlow c hc) hj
    (.inr hNj) hbj
  rw [hs.card] at hrun
  omega

end Counting

/-! ## The first loop -/

section OldLoop

variable (hNM : 2 * N ≤ M) (hdvd : N ∣ M)
  (hold : ∀ j, j < N → B0 j ≠ 0 → ChainOK B0 N (hash (B0 j) % N) j)
  (hfew1 : (occupied B0 M).card ≤ N) (hfew2 : (occupied B0 M).card < M - N)

/-- An empty cell is passed over. -/
theorem oldPass_skip {i : Nat} {B : Nat → K} (hinv : OldPass hash B0 N M i B) (hbi : B i = 0) :
    OldPass hash B0 N M (i + 1) B := by
  refine ⟨hinv.toSameKeys, fun j hj hjN => hinv.unvisited j (by omega) hjN, fun j hj hbj => ?_, hinv.tail⟩
  by_cases hji : j = i
  · exact absurd (hji ▸ hbj) (not_not_intro hbi)
  · exact hinv.settled j (by omega) hbj

include hfew2 in
/-- A key that stays in its cell has a chain that does not wrap through the new cells. -/
theorem oldPass_stay {i : Nat} {B : Nat → K} (hinv : OldPass hash B0 N M i B) (hi : i < N)
    (hbi : B i ≠ 0) (hch : ChainOK B M (hash (B i) % M) i) : OldPass hash B0 N M (i + 1) B := by
  refine ⟨hinv.toSameKeys, fun j hj hjN => hinv.unvisited j (by omega) hjN, fun j hj hbj => ?_, hinv.tail⟩
  by_cases hji : j = i
  · subst hji
    refine ⟨hch, ?_⟩
    -- a chain from an old place above `i` would run through every new cell
    by_contra hwrap
    exact tail_not_full hinv.toSameKeys hfew2
      (fun c hNc hcM => hch c (before_of_wrap (by omega) hcM (.inl (by omega))))
  · exact hinv.settled j (by omega) hbj

include hNM hdvd hold hfew1 hfew2 in
/-- A key that the visit of cell `i` moves lands below `i` or in the new cells, and its chain
    has no hole. -/
theorem oldPass_move {i : Nat} {B : Nat → K} (hinv : OldPass hash B0 N M i B) (hi : i < N)
    (hbi : B i ≠ 0) {p : Nat} (hp : p < M) (hbp : B p = 0) (hch : ChainOK B M (hash (B i) % M) p)
    (hnot : ¬ Before M (hash (B i) % M) p i) :
    OldPass hash B0 N M (i + 1) (upd (upd B p (B i)) i 0) := by
  have hpi : p ≠ i := fun e => hbi (e ▸ hbp)
  have hbM : hash (B i) % M < M := Nat.mod_lt _ (by omega)
  have hBp : upd (upd B p (B i)) i 0 p = B i := by rw [upd_ne _ _ hpi, upd_same]
  have hBne : ∀ c, B c ≠ 0 → c ≠ i → upd (upd B p (B i)) i 0 c ≠ 0 :=
    fun c hc hci => upd_move_ne_zero hbi hc hci
  -- the walk cannot stop in the unvisited old cells: they are still the old ones, and the old
  -- chain of the key runs through them
  have hloc : p < i ∨ N ≤ p := by
    by_contra hc
    have hb : i < hash (B i) % M ∧ hash (B i) % M ≤ p := by
      unfold Before at hnot
      split at hnot <;> omega
    have hx0 : B0 i = B i := (hinv.unvisited i le_rfl hi).symm
    have hbN : hash (B i) % M = hash (B i) % N := mod_eq_of_mod_lt hdvd (by omega)
    have hold_i := hold i hi (hx0 ▸ hbi)
    rw [hx0] at hold_i
    have hp0 : B0 p ≠ 0 := hold_i p (before_of_wrap (by omega) (by omega) (.inl (by omega)))
    exact hp0 (hinv.unvisited p (by omega) (by omega) ▸ hbp)
  refine ⟨hinv.toSameKeys.move hp (by omega) hbp hbi, fun j hj hjN => ?_, fun j hj hbj => ?_,
    fun j hNj hjM hbj => ?_⟩
  · -- unvisited
    rw [upd_ne _ _ (by omega), upd_ne _ _ (by omega)]
    exact hinv.unvisited j (by omega) hjN
  · -- settled
    by_cases hji : j = i
    · rw [hji, upd_same] at hbj
      exact absurd rfl hbj
    by_cases hjp : j = p
    · subst hjp
      rw [hBp]
      refine ⟨fun c hc => hBne c (hch c hc) fun e => hnot (e ▸ hc), ?_⟩
      by_contra hwrap
      exact tail_not_full hinv.toSameKeys hfew2
        (fun c hNc hcM => hch c (before_of_wrap (by omega) hcM (.inl (by omega))))
    · rw [upd_ne _ _ hji, upd_ne _ _ hjp] at hbj ⊢
      obtain ⟨hchj, hside⟩ := hinv.settled j (by omega) hbj
      refine ⟨fun c hc => hBne c (hchj c hc) ?_, hside⟩
      -- the chain of a settled key stays below it or in the new cells
      unfold Before at hc
      split at hc <;> omega
  · -- tail
    have hji : j ≠ i := by omega
    by_cases hjp : j = p
    · subst hjp
      rw [hBp]
      by_cases hbN : N ≤ hash (B i) % M
      · have hle : hash (B i) % M ≤ j := by
          -- a chain from a new place above `j` would run through every old cell
          by_contra hwrap
          exact low_not_full hinv.toSameKeys hfew1
            (fun c hc => hch c (before_of_wrap (by omega) (by omega) (.inr (by omega)))) hbN hbM
            (hch _ (before_of_wrap (by omega) hbM (.inl le_rfl)))
        refine .inl ⟨hbN, hle, fun c hc => hBne c (hch c hc) ?_⟩
        rw [before_iff_of_le hle hp] at hc
        omega
      · exact .inr ⟨by omega, fun c hNc hcj =>
          hBne c (hch c (before_of_le hp (by omega) hcj)) (by omega)⟩
    · rw [upd_ne _ _ hji, upd_ne _ _ hjp] at hbj ⊢
      rcases hinv.tail j hNj hjM hbj with ⟨hN, hle, hchj⟩ | ⟨hlt, hrun⟩
      · refine .inl ⟨hN, hle, fun c hc => hBne c (hchj c hc) ?_⟩
        rw [before_iff_of_le hle hjM] at hc
        omega
      · exact .inr ⟨hlt, fun c hNc hcj => hBne c (hrun c hNc hcj) (by omega)⟩

include hNM hdvd hold hfew1 hfew2 in
/-- One turn of the first loop. -/
theorem oldPass_step {i : Nat} (t : HashTable K) (hM : t.grower.bufSize = M)
    (hinv : OldPass hash B0 N M i t.buf) (hi : i < N) :
    ∃ B, (if t.buf i ≠ 0 then reinsert hash t i else some t) = some { t with buf := B } ∧
      OldPass hash B0 N M (i + 1) B := by
  by_cases hbi : t.buf i = 0
  · exact ⟨t.buf, by simp [hbi], oldPass_skip hinv hbi⟩
  rw [if_pos hbi]
  have hdist : ∀ j, j < t.grower.bufSize → t.buf j = t.buf i → j = i :=
    fun j hj hji => hinv.distinct i j (by omega) (by omega) hbi hji.symm ▸ rfl
  rcases reinsert_spec hash (by omega) hbi hdist with ⟨hre, hch⟩ | ⟨p, hp, hbp, hch, hnot, hre⟩
  · rw [hM] at hch
    exact ⟨t.buf, hre, oldPass_stay hfew2 hinv hi hbi hch⟩
  · rw [hM] at hp hch hnot
    exact ⟨_, hre, oldPass_move hNM hdvd hold hfew1 hfew2 hinv hi hbi hp hbp hch hnot⟩

include hNM hdvd hold hfew1 hfew2 in
/-- The first loop finishes, and after it every old cell has been visited. -/
theorem reinsertOld_spec (t : HashTable K) (hM : t.grower.bufSize = M)
    (hinv : OldPass hash B0 N M 0 t.buf) :
    ∀ k, k ≤ N → ∃ B, (List.range k).foldlM (fun t i => if t.buf i ≠ 0 then reinsert hash t i else some t) t =
      some { t with buf := B } ∧ OldPass hash B0 N M k B := by
  intro k
  induction k with
  | zero => intro _; exact ⟨t.buf, rfl, hinv⟩
  | succ k ih =>
    intro hk
    obtain ⟨B, hfold, hB⟩ := ih (by omega)
    obtain ⟨B', hstep, hB'⟩ := oldPass_step hNM hdvd hold hfew1 hfew2 { t with buf := B } hM hB (by omega)
    refine ⟨B', ?_, hB'⟩
    rw [List.range_succ, List.foldlM_append, hfold]
    simpa using hstep

end OldLoop

/-! ## The second loop -/

section TailLoop

variable {e : Nat} (he : e < M)

include he in
/-- Where the first loop ends the second begins: at `N`, with `e` the first empty cell from
    `N` on. -/
theorem tailPass_start {B : Nat → K} (hinv : OldPass hash B0 N M N B) (hNe : N ≤ e)
    (hbe : B e = 0) (hrun : ∀ c, N ≤ c → c < e → B c ≠ 0) : TailPass hash B0 N M e N B := by
  refine ⟨hinv.toSameKeys, hrun, hbe, fun j hjM hbj hj => ?_, fun j hNj hje => ?_⟩
  · rcases hj with hjN | hej
    · obtain ⟨hch, hside⟩ := hinv.settled j hjN hbj
      refine ⟨hch, fun c hc => ?_⟩
      -- a chain that wraps from a new place passes `e` unless it starts above `e`
      by_cases hle : hash (B j) % M ≤ j
      · rw [before_iff_of_le hle hjM] at hc
        omega
      · have hgt : e < hash (B j) % M := by
          by_contra hge
          exact hbe ▸ hch e (before_of_wrap (by omega) (by omega) (.inl (by omega))) <| rfl
        unfold Before at hc
        split at hc <;> omega
    · have hej' : e < j := by
        rcases Nat.lt_or_eq_of_le hej with h | h
        · exact h
        · exact absurd (h ▸ hbe) hbj
      rcases hinv.tail j (by omega) hjM hbj with ⟨hN, hle, hch⟩ | ⟨_, hrunj⟩
      · have hgt : e < hash (B j) % M := by
          by_contra hge
          exact hbe ▸ hch e ((before_iff_of_le hle hjM).mpr ⟨by omega, hej'⟩) <| rfl
        refine ⟨hch, fun c hc => ?_⟩
        rw [before_iff_of_le hle hjM] at hc
        omega
      · exact absurd hbe (hrunj e hNe hej')
  · have hbj := hrun j hNj hje
    rcases hinv.tail j hNj (by omega) hbj with ⟨_, hle, _⟩ | ⟨hlt, _⟩
    · exact hle
    · omega

/-- A key of the run that stays in its cell. -/
theorem tailPass_stay {i : Nat} {B : Nat → K} (hinv : TailPass hash B0 N M e i B) (hie : i < e)
    (hch : ChainOK B M (hash (B i) % M) i) : TailPass hash B0 N M e (i + 1) B := by
  have hle := hinv.home_le i le_rfl hie
  refine ⟨hinv.toSameKeys, fun j hj hje => hinv.full j (by omega) hje, hinv.stop,
    fun j hjM hbj hj => ?_, fun j hj hje => hinv.home_le j (by omega) hje⟩
  by_cases hji : j = i
  · subst hji
    refine ⟨hch, fun c hc => ?_⟩
    rw [before_iff_of_le hle hjM] at hc
    omega
  · obtain ⟨hchj, havoid⟩ := hinv.settled j hjM hbj (by omega)
    exact ⟨hchj, fun c hc => by have := havoid c hc; omega⟩

include he in
/-- A key of the run that moves goes left, into the first hole of its chain. -/
theorem tailPass_move {i : Nat} {B : Nat → K} (hinv : TailPass hash B0 N M e i B) (hie : i < e)
    {p : Nat} (hp : p < M) (hbp : B p = 0) (hch : ChainOK B M (hash (B i) % M) p)
    (hnot : ¬ Before M (hash (B i) % M) p i) :
    TailPass hash B0 N M e (i + 1) (upd (upd B p (B i)) i 0) := by
  have hbi := hinv.full i le_rfl hie
  have hpi : p ≠ i := fun e => hbi (e ▸ hbp)
  have hle := hinv.home_le i le_rfl hie
  -- the walk from a place at or below `i` stops at or before `i`
  have hloc : hash (B i) % M ≤ p ∧ p < i := by
    unfold Before at hnot
    split at hnot <;> omega
  have hBne : ∀ c, B c ≠ 0 → c ≠ i → upd (upd B p (B i)) i 0 c ≠ 0 :=
    fun c hc hci => upd_move_ne_zero hbi hc hci
  refine ⟨hinv.toSameKeys.move hp (by omega) hbp hbi, fun j hj hje => ?_, ?_,
    fun j hjM hbj hj => ?_, fun j hj hje => ?_⟩
  · exact hBne j (hinv.full j (by omega) hje) (by omega) |> fun h => by
      rwa [upd_ne _ _ (show j ≠ i by omega), upd_ne _ _ (show j ≠ p by omega)] at h ⊢
  · rw [upd_ne _ _ (show e ≠ i by omega), upd_ne _ _ (show e ≠ p by omega)]
    exact hinv.stop
  · by_cases hji : j = i
    · rw [hji, upd_same] at hbj
      exact absurd rfl hbj
    by_cases hjp : j = p
    · subst hjp
      rw [upd_ne _ _ hpi, upd_same]
      refine ⟨fun c hc => hBne c (hch c hc) fun e => hnot (e ▸ hc), fun c hc => ?_⟩
      rw [before_iff_of_le hloc.1 hp] at hc
      omega
    · rw [upd_ne _ _ hji, upd_ne _ _ hjp] at hbj ⊢
      obtain ⟨hchj, havoid⟩ := hinv.settled j hjM hbj (by omega)
      refine ⟨fun c hc => hBne c (hchj c hc) ?_, fun c hc => ?_⟩
      · have := havoid c hc
        omega
      · have := havoid c hc
        omega
  · rw [upd_ne _ _ (show j ≠ i by omega), upd_ne _ _ (show j ≠ p by omega)]
    exact hinv.home_le j (by omega) hje

include he in
/-- The second loop finishes at `e`, once every key of the run has been re-placed. -/
theorem reinsertTail_spec : ∀ (d fuel i : Nat) (t : HashTable K), e - i = d → i ≤ e → d + 1 ≤ fuel →
    t.grower.bufSize = M → TailPass hash B0 N M e i t.buf →
    ∃ B, reinsertTail hash fuel i t = some { t with buf := B } ∧ TailPass hash B0 N M e e B := by
  intro d
  induction d with
  | zero =>
    intro fuel i t hd hie hfuel hM hinv
    obtain ⟨f, rfl⟩ : ∃ f, fuel = f + 1 := ⟨fuel - 1, by omega⟩
    have hi : i = e := by omega
    subst hi
    refine ⟨t.buf, ?_, hinv⟩
    simp [reinsertTail, hM, Nat.not_le.mpr he, hinv.stop]
  | succ d ih =>
    intro fuel i t hd hie hfuel hM hinv
    obtain ⟨f, rfl⟩ : ∃ f, fuel = f + 1 := ⟨fuel - 1, by omega⟩
    have hie' : i < e := by omega
    have hbi := hinv.full i le_rfl hie'
    have hdist : ∀ j, j < t.grower.bufSize → t.buf j = t.buf i → j = i :=
      fun j hj hji => hinv.distinct i j (by omega) (by omega) hbi hji.symm ▸ rfl
    have hstep : ∀ t', reinsert hash t i = some t' → reinsertTail hash (f + 1) i t = reinsertTail hash f (i + 1) t' := by
      intro t' hre
      simp only [reinsertTail, hM, Nat.not_le.mpr (show i < M by omega), if_false, hbi, hre]
    rcases reinsert_spec hash (by omega) hbi hdist with ⟨hre, hch⟩ | ⟨p, hp, hbp, hch, hnot, hre⟩
    · rw [hM] at hch
      obtain ⟨B, hrun, hB⟩ := ih f (i + 1) t (by omega) hie' (by omega) hM (tailPass_stay hinv hie' hch)
      exact ⟨B, (hstep _ hre).trans hrun, hB⟩
    · rw [hM] at hp hch hnot
      obtain ⟨B, hrun, hB⟩ := ih f (i + 1) { t with buf := upd (upd t.buf p (t.buf i)) i 0 } (by omega)
        hie' (by omega) hM (tailPass_move he hinv hie' hp hbp hch hnot)
      exact ⟨B, (hstep _ hre).trans hrun, hB⟩

end TailLoop

end Passes

/-! ## The whole resize -/

/-- The two loops of `resize` finish and re-establish the invariant for the new size, with the
    same keys in as many cells. -/
theorem grow_spec (hash : K → Nat) {t : HashTable K} {g' : HashTableGrower} (hw : Wf hash t)
    (hdeg : t.grower.size_degree < g'.size_degree)
    (hfew1 : (occupied t.buf t.grower.bufSize).card ≤ t.grower.bufSize)
    (hfew2 : (occupied t.buf t.grower.bufSize).card < g'.bufSize - t.grower.bufSize) :
    ∃ B, grow hash t g' = some { t with grower := g', buf := B } ∧ Wf hash { t with grower := g', buf := B } ∧
      (∀ k, k ≠ 0 → ((∃ j, j < g'.bufSize ∧ B j = k) ↔ (∃ j, j < t.grower.bufSize ∧ t.buf j = k))) ∧
      (occupied B g'.bufSize).card = (occupied t.buf t.grower.bufSize).card := by
  -- the old size `N`, the new size `M`, and the buffer `realloc` returns
  set N := t.grower.bufSize with hN
  set M := g'.bufSize with hM
  set B0 : Nat → K := fun j => if j < N then t.buf j else 0 with hB0
  have hNM : 2 * N ≤ M := HashTableGrower.bufSize_lt_of_degree_lt hdeg
  have hdvd : N ∣ M := HashTableGrower.bufSize_dvd_of_degree_le (by omega)
  have hB0low : ∀ j, j < N → B0 j = t.buf j := fun j hj => by simp [hB0, hj]
  have hocc : occupied B0 M = occupied t.buf N := by
    rw [occupied_of_zero_above (show N ≤ M by omega) (fun j hNj _ => by simp [hB0, Nat.not_lt.mpr hNj]),
      occupied_congr hB0low]
  have hold : ∀ j, j < N → B0 j ≠ 0 → ChainOK B0 N (hash (B0 j) % N) j := by
    intro j hj hbj
    rw [hB0low j hj] at hbj ⊢
    intro c hc
    rw [hB0low c hc.1]
    exact hw.chain j hj hbj c hc
  have hc1 : (occupied B0 M).card ≤ N := hocc ▸ hfew1
  have hc2 : (occupied B0 M).card < M - N := hocc ▸ hfew2
  -- the buffer right after `realloc` starts the first loop
  have hstart : OldPass hash B0 N M 0 B0 := by
    refine ⟨⟨fun k _ => ?_, fun i j hi hj hbi hij => ?_, rfl⟩, fun _ _ _ => rfl, fun j hj => absurd hj (by omega),
      fun j hNj _ hbj => absurd (by simp [hB0, Nat.not_lt.mpr hNj]) hbj⟩
    · constructor
      · rintro ⟨j, _, hbj⟩
        by_cases hjN : j < N
        · exact ⟨j, hjN, hbj⟩
        · exact absurd hbj (by simp only [hB0, if_neg hjN]; exact fun h => ‹k ≠ 0› h.symm)
      · rintro ⟨j, hjN, hbj⟩
        exact ⟨j, by omega, hbj⟩
    · have hiN : i < N := Nat.lt_of_not_le fun h => hbi (by simp [hB0, Nat.not_lt.mpr h])
      have hjN : j < N := Nat.lt_of_not_le fun h => hbi (hij.trans (by simp [hB0, Nat.not_lt.mpr h]))
      rw [hB0low i hiN, hB0low j hjN] at hij
      exact hw.distinct i j hiN hjN (by rwa [hB0low i hiN] at hbi) hij
  let t1 : HashTable K := { t with grower := g', buf := B0 }
  obtain ⟨B1, hfold, hB1⟩ := reinsertOld_spec hNM hdvd hold hc1 hc2 t1 rfl hstart N le_rfl
  -- the first empty cell from `N` on ends the run the second loop visits
  have hex : ∃ e, N ≤ e ∧ e < M ∧ B1 e = 0 := by
    by_contra hno
    push Not at hno
    exact tail_not_full hB1.toSameKeys hc2 fun c hNc hcM => hno c hNc hcM
  obtain ⟨hNe, heM, hbe⟩ := Nat.find_spec hex
  have hrun : ∀ c, N ≤ c → c < Nat.find hex → B1 c ≠ 0 :=
    fun c hNc hce hbc => Nat.find_min hex hce ⟨hNc, by omega, hbc⟩
  obtain ⟨B2, htail, hB2⟩ := reinsertTail_spec heM (Nat.find hex - N) (M - N + 1) N { t1 with buf := B1 } rfl
    hNe (Nat.add_le_add_right (Nat.sub_le_sub_right heM.le N) 1) rfl (tailPass_start heM hB1 hNe hbe hrun)
  have hgrow : grow hash t g' = some { t with grower := g', buf := B2 } := by
    simp only [grow, reinsertOld]
    rw [hfold]
    exact htail
  refine ⟨B2, hgrow, ⟨hw.degree_pos.trans hdeg.le, hB2.distinct, fun j hj hbj => (hB2.settled j hj hbj (Nat.lt_or_ge j _)).1⟩,
    fun k hk => ?_, by rw [hB2.card, hocc]⟩
  rw [hB2.keys k hk]
  constructor
  · rintro ⟨j, hj, hbj⟩
    exact ⟨j, hj, hB0low j hj ▸ hbj⟩
  · rintro ⟨j, hj, hbj⟩
    exact ⟨j, hj, (hB0low j hj).symm ▸ hbj⟩

/-- What `resize` keeps: the counters, the zero flag and the keys, in as many cells, in a buffer
    that is no smaller. -/
structure Regrown (t t' : HashTable K) : Prop where
  m_size : t'.m_size = t.m_size
  has_zero : t'.has_zero = t.has_zero
  degree_le : t.grower.size_degree ≤ t'.grower.size_degree
  keys : ∀ k, k ≠ 0 →
    ((∃ j, j < t'.grower.bufSize ∧ t'.buf j = k) ↔ (∃ j, j < t.grower.bufSize ∧ t.buf j = k))
  card : (occupied t'.buf t'.grower.bufSize).card = (occupied t.buf t.grower.bufSize).card

theorem Regrown.refl (t : HashTable K) : Regrown t t := ⟨rfl, rfl, le_rfl, fun _ _ => Iff.rfl, rfl⟩

theorem resize_spec (initial_size_degree : Nat) (hash : K → Nat) {t : HashTable K} (hw : Wf hash t)
    (for_num_elems for_buf_size : Nat)
    (hfill : (occupied t.buf t.grower.bufSize).card ≤ t.grower.maxFill + 1)
    (hask : for_num_elems = 0 ∧ for_buf_size = 0 ∨
      (occupied t.buf t.grower.bufSize).card ≤ t.grower.maxFill) :
    ∃ t', resize initial_size_degree hash t for_num_elems for_buf_size = some t' ∧ Wf hash t' ∧
      Regrown t t' ∧ (for_num_elems = 0 → for_buf_size = 0 → t'.grower = t.grower.increaseSize) := by
  -- the grower `resize` picks
  obtain ⟨g', hg'⟩ : ∃ g', g' = (if for_num_elems ≠ 0 then HashTableGrower.set initial_size_degree for_num_elems
      else if for_buf_size ≠ 0 then HashTableGrower.setBufSize for_buf_size else t.grower.increaseSize) :=
    ⟨_, rfl⟩
  have hres : resize initial_size_degree hash t for_num_elems for_buf_size =
      if (for_num_elems ≠ 0 ∨ for_buf_size ≠ 0) ∧ g'.bufSize ≤ t.grower.bufSize then some t
      else grow hash t g' := by
    rw [hg']
    rfl
  rw [hres]
  by_cases hret : (for_num_elems ≠ 0 ∨ for_buf_size ≠ 0) ∧ g'.bufSize ≤ t.grower.bufSize
  · rw [if_pos hret]
    exact ⟨t, rfl, hw, Regrown.refl t, fun h1 h2 => absurd hret.1 (by omega)⟩
  rw [if_neg hret]
  have hN := HashTableGrower.bufSize_eq_two_mul_maxFill hw.degree_pos
  have hmf := t.grower.one_le_maxFill
  -- asked for a size: the buffer grows, and the keys fill at most `maxFill()` cells
  -- grown by `increaseSize()`: fewer keys than new cells, since a doubled buffer has
  -- `maxFill() ≥ 2`
  have hbig : t.grower.size_degree < g'.size_degree ∧
      (occupied t.buf t.grower.bufSize).card < g'.bufSize - t.grower.bufSize := by
    by_cases hask' : for_num_elems ≠ 0 ∨ for_buf_size ≠ 0
    · have hlt : t.grower.bufSize < g'.bufSize := Nat.lt_of_not_le fun h => hret ⟨hask', h⟩
      have hdeg := HashTableGrower.degree_lt_of_bufSize_lt hlt
      have hM := HashTableGrower.bufSize_lt_of_degree_lt hdeg
      refine ⟨hdeg, ?_⟩
      rcases hask with h | h
      · omega
      · omega
    · have hinc : g' = t.grower.increaseSize := by
        rw [hg', if_neg (by omega), if_neg (by omega)]
      have hM := t.grower.bufSize_increaseSize
      rw [← hinc] at hM
      refine ⟨hinc ▸ t.grower.degree_lt_increaseSize, ?_⟩
      split at hM
      · have := t.grower.two_le_maxFill (by omega)
        omega
      · omega
  obtain ⟨B, hgrow, hwf, hkeys, hcard⟩ := grow_spec hash hw hbig.1 (by omega) hbig.2
  refine ⟨_, hgrow, hwf, ⟨rfl, rfl, hbig.1.le, hkeys, hcard⟩, fun h1 h2 => ?_⟩
  simp only [hg', h1, h2, ne_eq, not_true_eq_false, if_false]

end ClickHouseGpu.HashTables.Resize
