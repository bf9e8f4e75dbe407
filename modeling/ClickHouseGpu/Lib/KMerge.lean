import Mathlib

/-
  KMerge — the k-way merge of streams by a key.

  `kmerge key ss` takes, again and again, the least head of the streams `ss`: the one of the
  smallest key, and of those the one of the lowest stream. Each element comes out with the
  number of its stream. On streams sorted by key this is the stable merge: the elements in the
  order of their keys, ties in the order of the streams and, within a stream, of the positions.

  Proved:
  - `least_eq_some_iff`, `least_eq_none_iff`: `least` finds the least head, and fails exactly
    when every stream is empty.
  - `kmerge_of_isLeast`: when stream `i` starts with `x` and `x` comes before every other head,
    the merge starts with `(i, x)` and goes on with `x` taken off stream `i`.
  - `kmerge_of_block`: the same for a run at the front of stream `i` whose elements all come
    before every other head.
  - `kmerge_of_forall_nil`: the merge of empty streams is empty; `kmerge_of_least`: one step.
  - `perm_kmerge`: the merge gives every element of the streams once.
  - `sortedKey_kmerge`: on streams sorted by key the merge is sorted by key, and `filter_kmerge`:
    the elements of one key come out stream by stream, each stream's in its order.
  - `SortedKey.eq_of_filter_key_eq`: a list sorted by key is determined by its elements of each
    key.
-/

namespace KMerge

variable {ρ κ : Type} [LinearOrder κ] (key : ρ → κ)

/-- `x` of stream `i` comes before `y` of stream `j`. -/
def Precedes (i : Nat) (x : ρ) (j : Nat) (y : ρ) : Prop := key x < key y ∨ (key x = key y ∧ i < j)

/-- Stream `i` starts with `x`, and `x` comes before the head of every other stream. -/
def IsLeast (ss : List (List ρ)) (i : Nat) (x : ρ) : Prop :=
  (∃ t, ss[i]? = some (x :: t)) ∧ ∀ j y t, j ≠ i → ss[j]? = some (y :: t) → Precedes key i x j y

/-- The number of the stream with the least head, and that head. -/
def least : List (List ρ) → Option (Nat × ρ)
  | [] => none
  | [] :: ss => (least ss).map fun p => (p.1 + 1, p.2)
  | (x :: _) :: ss =>
    match least ss with
    | none => some (0, x)
    | some (j, y) => if key y < key x then some (j + 1, y) else some (0, x)

/-- The number of elements left. -/
def size (ss : List (List ρ)) : Nat := (ss.map List.length).sum

variable {key}

theorem Precedes.asymm {i j : Nat} {x y : ρ} (h : Precedes key i x j y) : ¬ Precedes key j y i x := by
  rintro (hlt | ⟨heq, hji⟩)
  · rcases h with hlt' | ⟨heq', -⟩
    · exact lt_asymm hlt hlt'
    · exact ne_of_lt hlt heq'.symm
  · rcases h with hlt' | ⟨-, hij⟩
    · exact ne_of_lt hlt' heq.symm
    · omega

theorem IsLeast.unique {ss : List (List ρ)} {i i' : Nat} {x x' : ρ} (h : IsLeast key ss i x)
    (h' : IsLeast key ss i' x') : i = i' ∧ x = x' := by
  obtain ⟨⟨t, ht⟩, hmin⟩ := h
  obtain ⟨⟨t', ht'⟩, hmin'⟩ := h'
  by_cases hii : i = i'
  · subst hii
    rw [ht] at ht'
    exact ⟨rfl, (List.cons.inj (Option.some.inj ht')).1⟩
  · exact absurd (hmin i' x' t' (Ne.symm hii) ht') (hmin' i x t hii ht).asymm

theorem isLeast_cons_zero {s : List ρ} {ss : List (List ρ)} {x : ρ} {t : List ρ} (hs : s = x :: t)
    (h : ∀ j y t', ss[j]? = some (y :: t') → Precedes key 0 x (j + 1) y) : IsLeast key (s :: ss) 0 x := by
  refine ⟨⟨t, by simp [hs]⟩, ?_⟩
  rintro (_ | j) y t' hj hget
  · exact absurd rfl hj
  · exact h j y t' (by simpa using hget)

theorem isLeast_cons_succ {s : List ρ} {ss : List (List ρ)} {j : Nat} {y : ρ} (h : IsLeast key ss j y)
    (hs : ∀ x t, s = x :: t → Precedes key (j + 1) y 0 x) : IsLeast key (s :: ss) (j + 1) y := by
  obtain ⟨⟨t, ht⟩, hmin⟩ := h
  refine ⟨⟨t, by simpa using ht⟩, ?_⟩
  rintro (_ | k) z t' hk hget
  · exact hs z t' (by simpa using hget)
  · rcases hmin k z t' (by omega) (by simpa using hget) with hlt | ⟨heq, hkj⟩
    · exact .inl hlt
    · exact .inr ⟨heq, by omega⟩

theorem least_eq_none_iff {ss : List (List ρ)} : least key ss = none ↔ ∀ s ∈ ss, s = [] := by
  induction ss with
  | nil => simp [least]
  | cons s ss ih =>
    rcases s with _ | ⟨x, t⟩
    · simp [least, ih]
    · simp only [least, List.mem_cons, forall_eq_or_imp, reduceCtorEq, false_and, iff_false]
      split
      · simp
      · split <;> simp

/-- `least` finds the stream with the least head. -/
theorem isLeast_of_least {ss : List (List ρ)} {i : Nat} {x : ρ} (h : least key ss = some (i, x)) :
    IsLeast key ss i x := by
  induction ss generalizing i x with
  | nil => simp [least] at h
  | cons s ss ih =>
    rcases s with _ | ⟨z, t⟩
    · -- an empty first stream takes no part
      simp only [least, Option.map_eq_some_iff, Prod.exists] at h
      obtain ⟨j, y, hj, hji⟩ := h
      simp only [Prod.mk.injEq] at hji
      obtain ⟨rfl, rfl⟩ := hji
      exact isLeast_cons_succ (ih hj) (fun _ _ h => nomatch h)
    · simp only [least] at h
      split at h
      · rename_i hnone
        obtain ⟨rfl, rfl⟩ := Prod.mk.inj (Option.some.inj h).symm
        refine isLeast_cons_zero rfl fun j y t' hj => ?_
        have hall := least_eq_none_iff.mp hnone
        exact absurd (hall _ (List.mem_of_getElem? hj)) (by simp)
      · rename_i j y hsome
        have hj := ih hsome
        split at h
        · rename_i hlt
          obtain ⟨rfl, rfl⟩ := Prod.mk.inj (Option.some.inj h).symm
          exact isLeast_cons_succ hj fun x' t' hx => by
            cases hx
            exact .inl hlt
        · rename_i hle
          obtain ⟨rfl, rfl⟩ := Prod.mk.inj (Option.some.inj h).symm
          refine isLeast_cons_zero rfl fun k w t' hk => ?_
          -- every other head comes at or after the least of the rest, which comes at or after `x`
          have hyx : key x ≤ key y := not_lt.mp hle
          by_cases hkj : k = j
          · subst hkj
            obtain ⟨⟨t'', ht''⟩, -⟩ := hj
            rw [ht''] at hk
            cases hk
            rcases lt_or_eq_of_le hyx with hlt | heq
            · exact .inl hlt
            · exact .inr ⟨heq, by omega⟩
          · rcases hj.2 k w t' hkj hk with hlt | ⟨heq, -⟩
            · exact .inl (lt_of_le_of_lt hyx hlt)
            · rcases lt_or_eq_of_le hyx with hlt | heq'
              · exact .inl (heq ▸ hlt)
              · exact .inr ⟨heq'.trans heq, by omega⟩

theorem least_eq_some_iff {ss : List (List ρ)} {i : Nat} {x : ρ} :
    least key ss = some (i, x) ↔ IsLeast key ss i x := by
  refine ⟨isLeast_of_least, fun h => ?_⟩
  obtain ⟨t, ht⟩ := h.1
  rcases hl : least key ss with _ | ⟨i', x'⟩
  · exact absurd (least_eq_none_iff.mp hl _ (List.mem_of_getElem? ht)) (by simp)
  · obtain ⟨rfl, rfl⟩ := (isLeast_of_least hl).unique h
    rfl

theorem size_modify_tail_lt {ss : List (List ρ)} {i : Nat} {x : ρ} {t : List ρ} (h : ss[i]? = some (x :: t)) :
    size (ss.modify i List.tail) < size ss := by
  induction ss generalizing i with
  | nil => simp at h
  | cons s ss ih =>
    rcases i with _ | i
    · simp only [List.getElem?_cons_zero, Option.some.injEq] at h
      subst h
      simp [size, List.modify]
    · have := ih (by simpa using h)
      simp only [size, List.modify_succ_cons, List.map_cons, List.sum_cons] at this ⊢
      omega

variable (key)

/-- The k-way merge: the least head, with the number of its stream, and the merge of the rest. -/
def kmerge (ss : List (List ρ)) : List (Nat × ρ) :=
  match _hleast : least key ss with
  | none => []
  | some (i, x) => (i, x) :: kmerge (ss.modify i List.tail)
termination_by size ss
decreasing_by
  obtain ⟨⟨t, ht⟩, -⟩ := isLeast_of_least _hleast
  exact size_modify_tail_lt ht

variable {key}

theorem modify_tail_eq_set {ss : List (List ρ)} {i : Nat} {x : ρ} {t : List ρ} (h : ss[i]? = some (x :: t)) :
    ss.modify i List.tail = ss.set i t := by
  apply List.ext_getElem?
  intro j
  by_cases hij : i = j
  · subst hij
    obtain ⟨hi, hget⟩ := List.getElem?_eq_some_iff.mp h
    simp [hi, hget]
  · simp [List.getElem?_modify_ne _ _ hij, List.getElem?_set_ne hij]

theorem kmerge_of_forall_nil {ss : List (List ρ)} (h : ∀ s ∈ ss, s = []) : kmerge key ss = [] := by
  rw [kmerge]
  split
  · rfl
  · rename_i hs
    rw [least_eq_none_iff.mpr h] at hs
    cases hs

/-- One step of the merge, read off `least`. -/
theorem kmerge_of_least {ss : List (List ρ)} {i : Nat} {x : ρ} (h : least key ss = some (i, x)) :
    kmerge key ss = (i, x) :: kmerge key (ss.modify i List.tail) := by
  rw [kmerge]
  split
  · rename_i hs
    rw [h] at hs
    cases hs
  · rename_i i' x' hs
    rw [h, Option.some.injEq, Prod.mk.injEq] at hs
    obtain ⟨rfl, rfl⟩ := hs
    rfl

/-- The merge starts with the least head and goes on with the merge of the rest. -/
theorem kmerge_of_isLeast {ss : List (List ρ)} {i : Nat} {x : ρ} {t : List ρ} (hi : ss[i]? = some (x :: t))
    (h : IsLeast key ss i x) : kmerge key ss = (i, x) :: kmerge key (ss.set i t) := by
  rw [kmerge]
  split
  · rename_i hs
    rw [least_eq_some_iff.mpr h] at hs
    cases hs
  · rename_i i' x' hs
    obtain ⟨rfl, rfl⟩ := (isLeast_of_least hs).unique h
    rw [modify_tail_eq_set hi]

/-- A run at the front of stream `i` whose elements each come before every other head comes
    out first, in its order. -/
theorem kmerge_of_block {i : Nat} :
    ∀ (b : List ρ) {ss : List (List ρ)} {t : List ρ}, ss[i]? = some (b ++ t) →
      (∀ x ∈ b, ∀ j y t', j ≠ i → ss[j]? = some (y :: t') → Precedes key i x j y) →
      kmerge key ss = b.map (fun x => (i, x)) ++ kmerge key (ss.set i t)
  | [], ss, t, hi, _ => by
    have hset : ss.set i t = ss := by
      apply List.ext_getElem?
      intro j
      by_cases hij : i = j
      · subst hij
        obtain ⟨hlt, hget⟩ := List.getElem?_eq_some_iff.mp hi
        simp [hlt, hget]
      · simp [List.getElem?_set_ne hij]
    simp [hset]
  | x :: b, ss, t, hi, hb => by
    have hleast : IsLeast key ss i x := ⟨⟨b ++ t, by simpa using hi⟩, hb x List.mem_cons_self⟩
    rw [kmerge_of_isLeast (by simpa using hi) hleast]
    have hi' : (ss.set i (b ++ t))[i]? = some (b ++ t) := by
      simp [(List.getElem?_eq_some_iff.mp hi).1]
    rw [kmerge_of_block b hi' fun y hy j z t' hji hj => hb y (List.mem_cons_of_mem x hy) j z t' hji
      (by rwa [List.getElem?_set_ne (Ne.symm hji)] at hj)]
    simp

/-- The merge of one stream is that stream. -/
theorem kmerge_singleton (s : List ρ) : kmerge key [s] = s.map fun x => (0, x) := by
  have hblock : kmerge key [s] = s.map (fun x => (0, x)) ++ kmerge key ([s].set 0 []) := kmerge_of_block s (by simp) (by
    intro x _ j y t hj hs
    rcases j with _ | j
    · exact absurd rfl hj
    · simp at hs)
  rw [hblock, List.set_cons_zero, kmerge_of_forall_nil (by simp), List.append_nil]

/-! ## What the merge gives -/

/-- Stream `i` split out of the streams, before and after it is replaced by `t`. -/
theorem flatMap_set {β : Type} (f : List ρ → List β) {ss : List (List ρ)} {i : Nat} {s : List ρ}
    (hi : ss[i]? = some s) (t : List ρ) :
    ss.flatMap f = (ss.take i).flatMap f ++ f s ++ (ss.drop (i + 1)).flatMap f ∧
      (ss.set i t).flatMap f = (ss.take i).flatMap f ++ f t ++ (ss.drop (i + 1)).flatMap f := by
  obtain ⟨hlt, hget⟩ := List.getElem?_eq_some_iff.mp hi
  have hsplit : ss = ss.take i ++ s :: ss.drop (i + 1) := by
    rw [← hget, ← List.drop_eq_getElem_cons hlt, List.take_append_drop]
  have hset : ss.set i t = ss.take i ++ t :: ss.drop (i + 1) := by
    rw [List.set_eq_take_append_cons_drop, if_pos hlt]
  constructor
  · conv_lhs => rw [hsplit]
    simp
  · rw [hset]
    simp

/-- One step of the merge: the least head comes out, and fewer elements are left. -/
theorem kmerge_step {ss : List (List ρ)} {i : Nat} {x : ρ} (hl : least key ss = some (i, x)) :
    ∃ t, ss[i]? = some (x :: t) ∧ IsLeast key ss i x ∧
      kmerge key ss = (i, x) :: kmerge key (ss.set i t) ∧ size (ss.set i t) < size ss := by
  have hleast := isLeast_of_least hl
  obtain ⟨t, ht⟩ := hleast.1
  refine ⟨t, ht, hleast, kmerge_of_isLeast ht hleast, ?_⟩
  rw [← modify_tail_eq_set ht]
  exact size_modify_tail_lt ht

/-- The merge gives every element of the streams once. -/
theorem perm_kmerge (ss : List (List ρ)) : List.Perm ((kmerge key ss).map Prod.snd) ss.flatten := by
  -- on the number of elements left, which each step of the merge lowers
  induction hn : size ss using Nat.strongRecOn generalizing ss with
  | ind n ih =>
    cases hl : least key ss with
    | none =>
      have hnil := least_eq_none_iff.mp hl
      rw [kmerge_of_forall_nil hnil, List.flatten_eq_nil_iff.mpr hnil]
      exact .nil
    | some p =>
      obtain ⟨i, x⟩ := p
      obtain ⟨t, ht, -, hstep, hsize⟩ := kmerge_step hl
      have hrest := ih _ (hn ▸ hsize) (ss.set i t) rfl
      obtain ⟨hss, hset⟩ := flatMap_set id ht t
      simp only [List.flatMap_id, id] at hss hset
      rw [hstep, List.map_cons, hss, List.append_assoc, List.cons_append]
      rw [hset, List.append_assoc] at hrest
      -- `x` moves from the front to its place in stream `i`
      exact (hrest.cons x).trans List.perm_middle.symm

theorem length_kmerge (ss : List (List ρ)) : ((kmerge key ss).map Prod.snd).length = size ss := by
  rw [(perm_kmerge ss).length_eq, List.length_flatten, size]

/-! ## Sorted streams -/

/-- A stream sorted by key. -/
def SortedKey (key : ρ → κ) (s : List ρ) : Prop := s.Pairwise fun a b => key a ≤ key b

instance (s : List ρ) : Decidable (SortedKey key s) := inferInstanceAs (Decidable (s.Pairwise _))

/-- Taking the least head off keeps the streams sorted. -/
theorem SortedKey.set {ss : List (List ρ)} (hsorted : ∀ s ∈ ss, SortedKey key s) {i : Nat} {x : ρ} {t : List ρ}
    (ht : ss[i]? = some (x :: t)) : ∀ s ∈ ss.set i t, SortedKey key s := by
  intro s hs
  rcases List.mem_or_eq_of_mem_set hs with hs | rfl
  · exact hsorted s hs
  · exact (List.pairwise_cons.mp (hsorted _ (List.mem_of_getElem? ht))).2

/-- On sorted streams, the least head comes before every element left. -/
theorem IsLeast.le_of_mem {ss : List (List ρ)} (hsorted : ∀ s ∈ ss, SortedKey key s) {i : Nat} {x : ρ}
    (h : IsLeast key ss i x) {s : List ρ} (hs : s ∈ ss) {y : ρ} (hy : y ∈ s) : key x ≤ key y := by
  obtain ⟨j, hj, rfl⟩ := List.getElem_of_mem hs
  cases hsj : ss[j] with
  | nil => rw [hsj] at hy; cases hy
  | cons z t' =>
    rw [hsj] at hy
    have hsorted' := hsj ▸ hsorted _ (List.getElem_mem hj)
    -- `y` is at or after the head `z` of its stream
    have hzy : key z ≤ key y := by
      rcases List.mem_cons.mp hy with rfl | hy
      · exact le_refl _
      · exact (List.pairwise_cons.mp hsorted').1 y hy
    have hjss : ss[j]? = some (z :: t') := by rw [List.getElem?_eq_getElem hj, hsj]
    by_cases hji : j = i
    · subst hji
      obtain ⟨t, ht⟩ := h.1
      rw [ht, Option.some.injEq, List.cons.injEq] at hjss
      rw [← hjss.1] at hzy
      exact hzy
    · rcases h.2 j z t' hji hjss with hlt | ⟨heq, -⟩
      · exact hlt.le.trans hzy
      · exact heq.le.trans hzy

/-- On streams sorted by key the merge is sorted by key. -/
theorem sortedKey_kmerge {ss : List (List ρ)} (hsorted : ∀ s ∈ ss, SortedKey key s) :
    SortedKey key ((kmerge key ss).map Prod.snd) := by
  induction hn : size ss using Nat.strongRecOn generalizing ss with
  | ind n ih =>
    cases hl : least key ss with
    | none =>
      rw [kmerge_of_forall_nil (least_eq_none_iff.mp hl)]
      exact .nil
    | some p =>
      obtain ⟨i, x⟩ := p
      obtain ⟨t, ht, hleast, hstep, hsize⟩ := kmerge_step hl
      rw [hstep, List.map_cons]
      refine List.Pairwise.cons (fun y hy => ?_) (ih _ (hn ▸ hsize) (SortedKey.set hsorted ht) rfl)
      -- what is left is in the streams, all of whose elements come at or after `x`
      obtain ⟨s, hs, hys⟩ := List.mem_flatten.mp ((perm_kmerge (ss.set i t)).subset hy)
      rcases List.mem_or_eq_of_mem_set hs with hs | rfl
      · exact hleast.le_of_mem hsorted hs hys
      · exact hleast.le_of_mem hsorted (List.mem_of_getElem? ht) (List.mem_cons_of_mem x hys)

/-- A stream whose head comes after a key holds nothing of that key. -/
theorem filter_eq_nil_of_head {s : List ρ} (hs : SortedKey key s) {y : ρ} {t : List ρ} (hy : s = y :: t)
    {k : κ} (hk : k < key y) : s.filter (fun x => key x = k) = [] := by
  subst hy
  rw [List.filter_eq_nil_iff]
  intro z hz hzk
  have hkz : key z = k := by simpa using hzk
  rcases List.mem_cons.mp hz with rfl | hz
  · exact absurd hkz (ne_of_gt hk)
  · exact absurd (hkz ▸ (List.pairwise_cons.mp hs).1 z hz) (not_le.mpr hk)

/-- On streams sorted by key, the merge gives the elements of each key stream by stream, each
    stream's in its order. -/
theorem filter_kmerge {ss : List (List ρ)} (hsorted : ∀ s ∈ ss, SortedKey key s) (k : κ) :
    ((kmerge key ss).map Prod.snd).filter (fun x => key x = k) = ss.flatMap (List.filter fun x => key x = k) := by
  induction hn : size ss using Nat.strongRecOn generalizing ss with
  | ind n ih =>
    cases hl : least key ss with
    | none =>
      have hnil := least_eq_none_iff.mp hl
      have hempty : ss.flatMap (List.filter fun x => key x = k) = [] := by
        rw [List.flatMap_eq_nil_iff]
        intro s hs
        rw [hnil s hs, List.filter_nil]
      rw [kmerge_of_forall_nil hnil, hempty]
      rfl
    | some p =>
      obtain ⟨i, x⟩ := p
      obtain ⟨t, ht, hleast, hstep, hsize⟩ := kmerge_step hl
      obtain ⟨hss, hset⟩ := flatMap_set (List.filter fun x => key x = k) ht t
      rw [hstep, List.map_cons, List.filter_cons, ih _ (hn ▸ hsize) (SortedKey.set hsorted ht) rfl, hset, hss,
        List.filter_cons]
      by_cases hxk : key x = k
      · -- the streams before `i` hold nothing of `x`'s key: their heads come after `x`
        have hbefore : (ss.take i).flatMap (List.filter fun x => key x = k) = [] := by
          have hi : i < ss.length := (List.getElem?_eq_some_iff.mp ht).1
          rw [List.flatMap_eq_nil_iff]
          intro s hs
          obtain ⟨j, hj, rfl⟩ := List.getElem_of_mem hs
          have hji : j < i := by
            rw [List.length_take] at hj
            omega
          rw [List.getElem_take]
          cases hsj : ss[j] with
          | nil => rfl
          | cons y t' =>
            have hjss : ss[j]? = some (y :: t') := by
              rw [List.getElem?_eq_getElem (by omega), hsj]
            rcases hleast.2 j y t' (by omega) hjss with hlt | ⟨-, hij⟩
            · rw [← hsj]
              exact filter_eq_nil_of_head (hsorted _ (List.getElem_mem _)) hsj (hxk ▸ hlt)
            · omega
        simp [hxk, hbefore]
      · simp [hxk]

/-- The head of a stream sorted by key has the least key. -/
theorem SortedKey.head_le {b : ρ} {t : List ρ} (h : SortedKey key (b :: t)) {x : ρ} (hx : x ∈ b :: t) :
    key b ≤ key x := by
  rcases List.mem_cons.mp hx with rfl | hx
  · exact le_rfl
  · exact (List.pairwise_cons.mp h).1 x hx

/-- The streams of groups of streams, one group after another. -/
theorem flatMap_flatten {β : Type} (groups : List (List (List ρ))) (f : List ρ → List β) :
    groups.flatten.flatMap f = (groups.map fun g => g.flatMap f).flatten := by
  induction groups with
  | nil => rfl
  | cons g groups ih => rw [List.flatten_cons, List.flatMap_append, ih, List.map_cons, List.flatten_cons]

/-- The last element of a stream sorted by key has the greatest key. -/
theorem SortedKey.le_getLast {l : List ρ} (h : SortedKey key l) {b : ρ} (hb : l.getLast? = some b) {x : ρ}
    (hx : x ∈ l) : key x ≤ key b := by
  obtain ⟨l', rfl⟩ := List.getLast?_eq_some_iff.mp hb
  rcases List.mem_append.mp hx with hx | hx
  · exact (List.pairwise_append.mp h).2.2 x hx b List.mem_cons_self
  · rw [List.mem_singleton.mp hx]

/-- Lists with the same elements of each key have the same elements. -/
theorem mem_of_filter_key_eq {l l' : List ρ}
    (h : ∀ k, l.filter (fun x => key x = k) = l'.filter (fun x => key x = k)) {x : ρ} (hx : x ∈ l) : x ∈ l' := by
  have hmem : x ∈ l.filter (fun y => key y = key x) := List.mem_filter.mpr ⟨hx, by simp⟩
  rw [h] at hmem
  exact (List.mem_filter.mp hmem).1

/-- A list sorted by key is determined by its elements of each key, each key's in their order. -/
theorem SortedKey.eq_of_filter_key_eq : ∀ {l l' : List ρ}, SortedKey key l → SortedKey key l' →
    (∀ k, l.filter (fun x => key x = k) = l'.filter (fun x => key x = k)) → l = l'
  | [], [], _, _, _ => rfl
  | [], _ :: _, _, _, h => absurd (mem_of_filter_key_eq (fun k => (h k).symm) List.mem_cons_self) List.not_mem_nil
  | _ :: _, [], _, _, h => absurd (mem_of_filter_key_eq h List.mem_cons_self) List.not_mem_nil
  | a :: t, b :: t', hl, hl', h => by
    -- both heads have the least key of the elements, so the same key
    have hab : key a = key b := le_antisymm
      (hl.head_le (mem_of_filter_key_eq (fun k => (h k).symm) List.mem_cons_self))
      (hl'.head_le (mem_of_filter_key_eq h List.mem_cons_self))
    have hhead := h (key a)
    rw [List.filter_cons_of_pos (by simp), List.filter_cons_of_pos (by simp [hab])] at hhead
    obtain ⟨rfl, htail⟩ := List.cons.inj hhead
    congr 1
    refine SortedKey.eq_of_filter_key_eq (List.pairwise_cons.mp hl).2 (List.pairwise_cons.mp hl').2 fun k => ?_
    by_cases hk : key a = k
    · subst hk
      exact htail
    · have htk := h k
      rwa [List.filter_cons_of_neg (by simpa using hk), List.filter_cons_of_neg (by simpa using hk)] at htk

end KMerge
