import Mathlib

/-
  OrderedMap — an ordered map (`std::map`) as the list of its entries in key order.

  A map is the in-order list of its entries; a well-formed one has strictly increasing
  keys (`Sorted`). `lower_bound(k)` is the position of the first entry whose key is not
  below `k`; `emplace` inserts there unless the key is present. Erasing while walking from an
  iterator removes a run of entries next to it: such a walk equals a filter when the entries it
  removes are exactly the run (`dropWhile_eq_filter`, `reverse_dropWhile_reverse_eq_filter`).

  Proved:
  - `lt_of_mem_take_lowerBound`, `le_of_mem_drop_lowerBound` (by position: `lt_of_lt_lowerBound`,
    `le_of_lowerBound_le`): the entries before `lower_bound(k)` are below `k`, those from it on
    are not.
  - `sorted_emplace`, `mem_emplace`: `emplace` keeps the keys increasing and adds the entry
    exactly when its key is new.
-/

namespace OrderedMap

variable {K V : Type} [LinearOrder K]

/-- Entries with strictly increasing keys. -/
def Sorted (l : List (K × V)) : Prop := l.Pairwise (fun a b => a.1 < b.1)

/-- `lower_bound(k)`: the position of the first entry whose key is not less than `k`. -/
def lowerBound (k : K) (l : List (K × V)) : Nat := (l.takeWhile (fun e => e.1 < k)).length

/-- `emplace(k, v)`: the entry goes in at `lower_bound(k)`, unless `k` is a key already. -/
def emplace (l : List (K × V)) (k : K) (v : V) : List (K × V) :=
  if k ∈ l.map Prod.fst then l else l.take (lowerBound k l) ++ (k, v) :: l.drop (lowerBound k l)

/-! ## `lower_bound` -/

theorem take_lowerBound (k : K) (l : List (K × V)) : l.take (lowerBound k l) = l.takeWhile (fun e => e.1 < k) := by
  induction l with
  | nil => rfl
  | cons a l ih =>
    by_cases h : a.1 < k
    · simp [lowerBound, h] at ih ⊢
      exact ih
    · simp [lowerBound, h]

theorem drop_lowerBound (k : K) (l : List (K × V)) : l.drop (lowerBound k l) = l.dropWhile (fun e => e.1 < k) := by
  induction l with
  | nil => rfl
  | cons a l ih =>
    by_cases h : a.1 < k
    · simp [lowerBound, h] at ih ⊢
      exact ih
    · simp [lowerBound, h]

theorem lowerBound_le_length (k : K) (l : List (K × V)) : lowerBound k l ≤ l.length :=
  (List.takeWhile_sublist _).length_le

theorem lt_of_mem_take_lowerBound {k : K} {l : List (K × V)} {e : K × V} (h : e ∈ l.take (lowerBound k l)) :
    e.1 < k := by
  rw [take_lowerBound] at h
  simpa using List.mem_takeWhile_imp h

theorem le_of_mem_drop_lowerBound {k : K} {l : List (K × V)} (hs : Sorted l) {e : K × V}
    (h : e ∈ l.drop (lowerBound k l)) : k ≤ e.1 := by
  rw [drop_lowerBound] at h
  induction l with
  | nil => simp at h
  | cons a l ih =>
    have hs' : Sorted l := (List.pairwise_cons.mp hs).2
    by_cases ha : a.1 < k
    · simp only [List.dropWhile_cons, ha, decide_true] at h
      exact ih hs' h
    · simp only [List.dropWhile_cons, ha, decide_false] at h
      rcases List.mem_cons.mp h with rfl | h
      · exact not_lt.mp ha
      -- every later key is above `a`'s, which is not below `k`
      · exact (not_lt.mp ha).trans ((List.pairwise_cons.mp hs).1 e h).le

/-- The same by position. -/
theorem lt_of_lt_lowerBound {k : K} {l : List (K × V)} {i : Nat} (hi : i < lowerBound k l) (hl : i < l.length) :
    l[i].1 < k := by
  have hmem : l[i] ∈ l.take (lowerBound k l) := List.mem_iff_getElem.mpr ⟨i, by simp; omega, by simp⟩
  exact lt_of_mem_take_lowerBound hmem

theorem le_of_lowerBound_le {k : K} {l : List (K × V)} (hs : Sorted l) {i : Nat} (hi : lowerBound k l ≤ i)
    (hl : i < l.length) : k ≤ l[i].1 := by
  have hmem : l[i] ∈ l.drop (lowerBound k l) :=
    List.mem_iff_getElem.mpr ⟨i - lowerBound k l, by simp; omega, by simp [Nat.add_sub_cancel' hi]⟩
  exact le_of_mem_drop_lowerBound hs hmem

theorem Sorted.lt_of_lt {l : List (K × V)} (hs : Sorted l) {i j : Nat} (hij : i < j) (hj : j < l.length) :
    l[i].1 < l[j].1 :=
  List.pairwise_iff_getElem.mp hs i j (by omega) hj hij

/-! ## `emplace` -/

theorem mem_emplace {l : List (K × V)} {k : K} {v : V} {e : K × V} :
    e ∈ emplace l k v ↔ e ∈ l ∨ (k ∉ l.map Prod.fst ∧ e = (k, v)) := by
  unfold emplace
  split
  · rename_i hk
    simp [hk]
  · rename_i hk
    have hsplit : e ∈ l ↔ e ∈ l.take (lowerBound k l) ∨ e ∈ l.drop (lowerBound k l) := by
      rw [← List.mem_append, List.take_append_drop]
    simp only [List.mem_append, List.mem_cons, hsplit, hk, not_false_eq_true, true_and]
    rw [or_assoc, or_comm (a := e ∈ l.drop (lowerBound k l))]

theorem sorted_emplace {l : List (K × V)} (hs : Sorted l) (k : K) (v : V) : Sorted (emplace l k v) := by
  unfold emplace
  split
  · exact hs
  · rename_i hk
    have hsplit : Sorted (l.take (lowerBound k l) ++ l.drop (lowerBound k l)) := by
      rw [List.take_append_drop]
      exact hs
    obtain ⟨htake, hdrop, hacross⟩ := List.pairwise_append.mp hsplit
    -- a key from `lower_bound(k)` on is at least `k`, and not `k` itself
    have habove : ∀ e ∈ l.drop (lowerBound k l), k < e.1 := by
      intro e he
      refine lt_of_le_of_ne (le_of_mem_drop_lowerBound hs he) ?_
      rintro rfl
      exact hk (List.mem_map.mpr ⟨e, List.mem_of_mem_drop he, rfl⟩)
    refine List.pairwise_append.mpr ⟨htake, List.pairwise_cons.mpr ⟨habove, hdrop⟩, ?_⟩
    intro a ha b hb
    rcases List.mem_cons.mp hb with rfl | hb
    · exact lt_of_mem_take_lowerBound ha
    · exact hacross a ha b hb

theorem Sorted.filter {l : List (K × V)} (hs : Sorted l) (p : K × V → Bool) : Sorted (l.filter p) :=
  List.Pairwise.filter p hs

end OrderedMap

/-! ## Erasing a run of entries -/

namespace List

variable {α : Type}

/-- Erasing from the front while `p` holds removes exactly the entries satisfying `p` when
    each entry satisfying `p` has only such entries before it. -/
theorem dropWhile_eq_filter {p : α → Bool} {l : List α} (h : l.Pairwise (fun a b => p b → p a)) :
    l.dropWhile p = l.filter (fun a => !p a) := by
  induction l with
  | nil => rfl
  | cons a l ih =>
    obtain ⟨ha, hl⟩ := List.pairwise_cons.mp h
    by_cases hpa : p a
    · simp [hpa, ih hl]
    · -- nothing after an entry that is kept is erased
      have hkeep : ∀ b ∈ l, p b = false := fun b hb => by
        cases hpb : p b
        · rfl
        · exact absurd (ha b hb hpb) hpa
      have hall : l.filter (fun a => !p a) = l := List.filter_eq_self.mpr fun b hb => by simp [hkeep b hb]
      simp [hpa, hall]

/-- The same from the back: the walk to the left of an iterator. -/
theorem reverse_dropWhile_reverse_eq_filter {p : α → Bool} {l : List α}
    (h : l.Pairwise (fun a b => p a → p b)) : (l.reverse.dropWhile p).reverse = l.filter (fun a => !p a) := by
  have hrev : l.reverse.Pairwise (fun a b => p b → p a) := List.pairwise_reverse.mpr h
  rw [dropWhile_eq_filter hrev, List.filter_reverse, List.reverse_reverse]

end List
