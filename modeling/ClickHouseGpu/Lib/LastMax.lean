import Mathlib.Data.List.Induction
import Mathlib.Data.List.Sort

/-
  LastMax — the last of the greatest elements of a list under a total preorder, and the lists
  that keep that element for each key.

  `le a b` says that `b` is at least `a`. `pick a b` is `b` unless `a` is strictly greater; folded
  over a list from the left it ends on the last of the greatest elements (`lastMax`, and
  `IsLastMax` says what that is without the fold). `pick` is associative, so `lastMax` of a
  concatenation is `lastMax` of the parts' results (`lastMax_append`, `lastMax_flatten`).

  `Winners key le out rows`: `out` holds one element for each key of `rows`, in increasing key
  order, and that element is `lastMax` of the rows of its key. Two lists of winners of the same
  rows are equal (`Winners.unique`).
-/

namespace LastMax

variable {α : Type} (le : α → α → Bool)

/-- `b`, unless `a` is strictly greater. -/
def pick (a b : α) : α := if le a b then b else a

/-- The element kept after `x`, from the one kept before it. -/
def push (acc : Option α) (x : α) : α :=
  match acc with
  | none => x
  | some a => pick le a x

/-- The last of the greatest elements of `l`. -/
def lastMax (l : List α) : Option α := l.foldl (fun acc x => some (push le acc x)) none

/-- `x` is in `l`, at least every element before it and greater than every element after it. -/
def IsLastMax (l : List α) (x : α) : Prop :=
  ∃ l₁ l₂, l = l₁ ++ x :: l₂ ∧ (∀ y ∈ l₁, le y x = true) ∧ ∀ y ∈ l₂, le x y = false

variable {le}

@[simp] theorem lastMax_nil : lastMax le [] = none := rfl

@[simp] theorem lastMax_append_singleton (l : List α) (x : α) :
    lastMax le (l ++ [x]) = some (push le (lastMax le l) x) := by
  simp [lastMax, List.foldl_append]

@[simp] theorem lastMax_singleton (x : α) : lastMax le [x] = some x := rfl

theorem lastMax_eq_none_iff {l : List α} : lastMax le l = none ↔ l = [] := by
  induction l using List.reverseRecOn with
  | nil => simp
  | append_singleton l x _ => simp

theorem lastMax_mem {l : List α} {x : α} (h : lastMax le l = some x) : x ∈ l := by
  induction l using List.reverseRecOn generalizing x with
  | nil => cases h
  | append_singleton l y ih =>
    rw [lastMax_append_singleton, Option.some.injEq] at h
    subst h
    cases hl : lastMax le l with
    | none => simp [push]
    | some a =>
      simp only [push, pick]
      split
      · simp
      · exact List.mem_append_left _ (ih hl)

/-- `lastMax` of at most one element is that element. -/
@[simp] theorem lastMax_toList (o : Option α) : lastMax le o.toList = o := by
  cases o <;> rfl

section TotalPreorder

variable (htotal : ∀ a b, le a b = true ∨ le b a = true)
  (htrans : ∀ a b c, le a b = true → le b c = true → le a c = true)

include htotal htrans in
theorem pick_assoc (a b c : α) : pick le (pick le a b) c = pick le a (pick le b c) := by
  unfold pick
  by_cases hab : le a b = true <;> by_cases hbc : le b c = true
  · simp [hab, hbc, htrans a b c hab hbc]
  · simp [hab, hbc]
  · simp [hab, hbc]
  · -- `c < b < a`: `a` stays
    have hac : le a c = false := by
      by_contra hac
      have hcb : le c b = true := (htotal b c).resolve_left hbc
      exact hab (htrans a c b (by simpa using hac) hcb)
    simp [hab, hbc, hac]

include htotal htrans in
/-- `lastMax` of a concatenation, from the parts' `lastMax`. -/
theorem lastMax_append (l₁ l₂ : List α) :
    lastMax le (l₁ ++ l₂) = lastMax le ((lastMax le l₁).toList ++ (lastMax le l₂).toList) := by
  induction l₂ using List.reverseRecOn with
  | nil => simp
  | append_singleton l₂ x ih =>
    rw [← List.append_assoc, lastMax_append_singleton, ih, lastMax_append_singleton]
    rcases lastMax le l₁ with _ | a <;> rcases lastMax le l₂ with _ | b
    · rfl
    · rfl
    · rfl
    · -- the fold over `[a, b, x]` regroups by `pick_assoc`
      show some (pick le (pick le a b) x) = some (pick le a (pick le b x))
      rw [pick_assoc htotal htrans]

include htotal htrans in
/-- `lastMax` of a flattened list, from each part's `lastMax`. -/
theorem lastMax_flatten (L : List (List α)) :
    lastMax le L.flatten = lastMax le (L.flatMap fun l => (lastMax le l).toList) := by
  induction L with
  | nil => rfl
  | cons l L ih =>
    rw [List.flatten_cons, List.flatMap_cons, lastMax_append htotal htrans, ih,
      lastMax_append htotal htrans _ (List.flatMap _ L), lastMax_toList]

include htotal htrans in
/-- What `lastMax` finds: the last of the greatest elements. -/
theorem isLastMax_of_lastMax {l : List α} {x : α} (h : lastMax le l = some x) : IsLastMax le l x := by
  induction l using List.reverseRecOn generalizing x with
  | nil => cases h
  | append_singleton l y ih =>
    rw [lastMax_append_singleton, Option.some.injEq] at h
    cases hl : lastMax le l with
    | none =>
      rw [lastMax_eq_none_iff.mp hl]
      rw [hl] at h
      subst h
      exact ⟨[], [], rfl, by simp, by simp⟩
    | some a =>
      obtain ⟨l₁, l₂, rfl, h₁, h₂⟩ := ih hl
      rw [hl] at h
      simp only [push, pick] at h
      split at h
      · -- `y` is at least `a`, so at least everything before it
        rename_i hay
        subst h
        refine ⟨l₁ ++ a :: l₂, [], by simp, fun z hz => ?_, by simp⟩
        rcases List.mem_append.mp hz with hz | hz
        · exact htrans z a _ (h₁ z hz) hay
        · rcases List.mem_cons.mp hz with rfl | hz
          · exact hay
          · exact htrans z a _ ((htotal a z).resolve_left (by simp [h₂ z hz])) hay
      · rename_i hay
        subst h
        refine ⟨l₁, l₂ ++ [y], by simp, h₁, fun z hz => ?_⟩
        rcases List.mem_append.mp hz with hz | hz
        · exact h₂ z hz
        · rw [List.mem_singleton.mp hz]
          simpa using hay

end TotalPreorder

/-! ## The winner of each key -/

section Winners

variable {κ : Type} [LinearOrder κ] (key : α → κ) (le : α → α → Bool)

/-- `out` keeps, in increasing key order, one element for each key of `rows`: `lastMax` of the rows
    of that key. -/
def Winners (out rows : List α) : Prop :=
  out.Pairwise (fun a b => key a < key b) ∧
    ∀ k, out.filter (fun x => key x = k) = (lastMax le (rows.filter fun x => key x = k)).toList

variable {key le}

/-- A winner is the winner of its key. -/
theorem Winners.filter_key {out rows : List α} (h : Winners key le out rows) {x : α} (hx : x ∈ out) :
    lastMax le (rows.filter fun y => key y = key x) = some x := by
  have hmem : x ∈ out.filter (fun y => key y = key x) := List.mem_filter.mpr ⟨hx, by simp⟩
  rw [h.2] at hmem
  exact Option.mem_toList.mp hmem

/-- A winner's key is a key of the rows. -/
theorem Winners.mem_rows {out rows : List α} (h : Winners key le out rows) {x : α} (hx : x ∈ out) :
    ∃ r ∈ rows, key r = key x := by
  have hne : rows.filter (fun y => key y = key x) ≠ [] := by
    intro hnil
    have := h.filter_key hx
    rw [hnil, lastMax_nil] at this
    cases this
  obtain ⟨r, hr⟩ := List.exists_mem_of_ne_nil _ hne
  exact ⟨r, (List.mem_filter.mp hr).1, by simpa using (List.mem_filter.mp hr).2⟩

/-- Every key of the rows has its winner. -/
theorem Winners.exists_out {out rows : List α} (h : Winners key le out rows) {r : α} (hr : r ∈ rows) :
    ∃ x ∈ out, key x = key r := by
  obtain ⟨x, hx⟩ : ∃ x, lastMax le (rows.filter fun y => key y = key r) = some x := by
    apply Option.ne_none_iff_exists'.mp
    rw [Ne, lastMax_eq_none_iff]
    exact List.ne_nil_of_mem (List.mem_filter.mpr ⟨hr, by simp⟩)
  have hmem : x ∈ out.filter (fun y => key y = key r) := by
    rw [h.2, hx]
    exact List.mem_singleton_self x
  exact ⟨x, (List.mem_filter.mp hmem).1, by simpa using (List.mem_filter.mp hmem).2⟩

theorem winners_nil : Winners key le [] [] := ⟨.nil, fun _ => rfl⟩

/-- A group of one key after all the rows: its winner comes after theirs. -/
theorem Winners.append_group {out rows run : List α} (h : Winners key le out rows) {c : κ}
    (hrun : ∀ x ∈ run, key x = c) (hlt : ∀ x ∈ rows, key x < c) :
    Winners key le (out ++ (lastMax le run).toList) (rows ++ run) := by
  -- no row before the group has its key, and the group has no other
  have hrows : rows.filter (fun x => key x = c) = [] :=
    List.filter_eq_nil_iff.mpr fun x hx hxc => (ne_of_lt (hlt x hx)) (by simpa using hxc)
  have hsel : ∀ a ∈ (lastMax le run).toList, key a = c := fun a ha =>
    hrun a (lastMax_mem (Option.mem_toList.mp ha))
  have hpair : ((lastMax le run).toList).Pairwise (fun a b => key a < key b) := by
    cases lastMax le run <;> simp
  refine ⟨List.pairwise_append.mpr ⟨h.1, hpair, ?_⟩, fun k => ?_⟩
  · intro x hx a ha
    obtain ⟨r, hr, hrx⟩ := h.mem_rows hx
    rw [hsel a ha, ← hrx]
    exact hlt r hr
  · rw [List.filter_append, List.filter_append, h.2]
    by_cases hk : k = c
    · subst hk
      have hrunall : run.filter (fun x => key x = k) = run :=
        List.filter_eq_self.mpr fun x hx => by simpa using hrun x hx
      have hselall : (lastMax le run).toList.filter (fun x => key x = k) = (lastMax le run).toList :=
        List.filter_eq_self.mpr fun a ha => by simpa using hsel a ha
      rw [hrows, lastMax_nil, hrunall, hselall]
      rfl
    · have hnone : run.filter (fun x => key x = k) = [] :=
        List.filter_eq_nil_iff.mpr fun x hx hxk => hk ((by simpa using hxk : key x = k).symm.trans (hrun x hx))
      have hnone' : (lastMax le run).toList.filter (fun x => key x = k) = [] :=
        List.filter_eq_nil_iff.mpr fun a ha hak => hk ((by simpa using hak : key a = k).symm.trans (hsel a ha))
      rw [hnone, hnone', List.append_nil, List.append_nil]

/-- The winners of the rows are determined by the rows: a list sorted by key is determined by
    its elements of each key. -/
theorem Winners.unique {out out' rows : List α} (h : Winners key le out rows) (h' : Winners key le out' rows) :
    out = out' := by
  classical
  apply List.Perm.eq_of_pairwise (fun a b _ _ hab hba => absurd hab (not_lt.mpr hba.le)) h.1 h'.1
  rw [List.perm_iff_count]
  intro x
  -- both count `x` among the elements of its key, which agree
  have hfilter := (h.2 (key x)).trans (h'.2 (key x)).symm
  rw [← List.count_filter (p := fun y => decide (key y = key x)) (by simp), hfilter,
    List.count_filter (by simp)]

end Winners

end LastMax
