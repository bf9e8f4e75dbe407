import Mathlib.Data.List.Basic

/-
  FlatRegex — regular expressions without alternation or groups: a sequence of atoms, each a
  class of symbols taken once or any number of times, with optional anchors at both ends.

  `Matches as w`: `w` is the concatenation of one word per atom. `search anchored_start
  anchored_end as w`: some part of `w` matches, at its start when anchored there and at its end
  when anchored there — an unanchored search, such as RE2's `UNANCHORED`, for `^...$` patterns.

  Proved:
  - `matchAtoms_iff`: the backtracking matcher `matchAtoms` decides `Matches`.
  - `matches_append`, `matches_lits_append`: a match of two sequences splits in two; a match of
    literals followed by anything starts with those literals.
  - `search_iff`: a search is a match of the atoms padded with `.*` at the unanchored ends.
-/

namespace FlatRegex

variable {α : Type}

/-- A class of symbols, taken once (`one`) or any number of times (`star`). -/
inductive Atom (α : Type) where
  | one (p : α → Bool)
  | star (p : α → Bool)

/-- `w` splits into one word per atom. -/
def Matches : List (Atom α) → List α → Prop
  | [], w => w = []
  | .one p :: as, w => ∃ c w', w = c :: w' ∧ p c = true ∧ Matches as w'
  | .star p :: as, w => ∃ u v, w = u ++ v ∧ (∀ c ∈ u, p c = true) ∧ Matches as v

/-- The loop of a `star` atom: the rest of the atoms on `w`, or one more symbol of the class. -/
def starLoop (p : α → Bool) (rest : List α → Bool) : List α → Bool
  | [] => rest []
  | c :: w => rest (c :: w) || (p c && starLoop p rest w)

/-- The backtracking matcher. -/
def matchAtoms : List (Atom α) → List α → Bool
  | [], w => w.isEmpty
  | .one p :: as, w =>
    match w with
    | [] => false
    | c :: w' => p c && matchAtoms as w'
  | .star p :: as, w => starLoop p (matchAtoms as) w

@[simp] theorem matches_nil {w : List α} : Matches [] w ↔ w = [] := Iff.rfl

theorem matches_one {p : α → Bool} {as : List (Atom α)} {w : List α} :
    Matches (.one p :: as) w ↔ ∃ c w', w = c :: w' ∧ p c = true ∧ Matches as w' := Iff.rfl

theorem matches_star {p : α → Bool} {as : List (Atom α)} {w : List α} :
    Matches (.star p :: as) w ↔ ∃ u v, w = u ++ v ∧ (∀ c ∈ u, p c = true) ∧ Matches as v := Iff.rfl

/-- The star loop finds a split of `w` into a word of the class and a word the rest accepts. -/
theorem starLoop_iff (p : α → Bool) (rest : List α → Bool) :
    ∀ w, starLoop p rest w = true ↔ ∃ u v, w = u ++ v ∧ (∀ c ∈ u, p c = true) ∧ rest v = true
  | [] => by simp [starLoop]
  | c :: w => by
    rw [starLoop, Bool.or_eq_true, Bool.and_eq_true, starLoop_iff p rest w]
    constructor
    · rintro (h | ⟨hc, u, v, rfl, hu, hv⟩)
      · exact ⟨[], c :: w, rfl, by simp, h⟩
      · refine ⟨c :: u, v, rfl, ?_, hv⟩
        intro x hx
        rcases List.mem_cons.mp hx with rfl | hx
        · exact hc
        · exact hu x hx
    · rintro ⟨u, v, huv, hu, hv⟩
      cases u with
      | nil => exact .inl (by simpa using huv ▸ hv)
      | cons x u =>
        obtain ⟨rfl, rfl⟩ := List.cons.inj huv
        exact .inr ⟨hu c List.mem_cons_self, u, v, rfl, fun y hy => hu y (List.mem_cons_of_mem c hy), hv⟩

theorem matchAtoms_iff : ∀ (as : List (Atom α)) (w : List α), matchAtoms as w = true ↔ Matches as w
  | [], w => by simp [matchAtoms]
  | .one p :: as, [] => by simp [matchAtoms, matches_one]
  | .one p :: as, c :: w => by
    rw [matchAtoms, Bool.and_eq_true, matchAtoms_iff as w, matches_one]
    constructor
    · rintro ⟨hc, hw⟩
      exact ⟨c, w, rfl, hc, hw⟩
    · rintro ⟨c', w', h, hc, hw⟩
      obtain ⟨rfl, rfl⟩ := List.cons.inj h
      exact ⟨hc, hw⟩
  | .star p :: as, w => by
    rw [matchAtoms, starLoop_iff, matches_star]
    simp only [matchAtoms_iff as]

instance (as : List (Atom α)) (w : List α) : Decidable (Matches as w) :=
  decidable_of_iff _ (matchAtoms_iff as w)

/-- A match of two sequences of atoms is a match of each on a part. -/
theorem matches_append : ∀ (as bs : List (Atom α)) (w : List α),
    Matches (as ++ bs) w ↔ ∃ u v, w = u ++ v ∧ Matches as u ∧ Matches bs v
  | [], bs, w => by simp
  | .one p :: as, bs, w => by
    rw [List.cons_append, matches_one]
    simp only [matches_append as bs, matches_one]
    constructor
    · rintro ⟨c, w', rfl, hc, u, v, rfl, hu, hv⟩
      exact ⟨c :: u, v, rfl, ⟨c, u, rfl, hc, hu⟩, hv⟩
    · rintro ⟨_, v, rfl, ⟨c, u, rfl, hc, hu⟩, hv⟩
      exact ⟨c, u ++ v, rfl, hc, u, v, rfl, hu, hv⟩
  | .star p :: as, bs, w => by
    rw [List.cons_append, matches_star]
    simp only [matches_append as bs, matches_star]
    constructor
    · rintro ⟨x, _, rfl, hx, u, v, rfl, hu, hv⟩
      exact ⟨x ++ u, v, by simp, ⟨x, u, rfl, hx, hu⟩, hv⟩
    · rintro ⟨_, v, rfl, ⟨x, u, rfl, hx, hu⟩, hv⟩
      exact ⟨x, u ++ v, by simp, hx, u, v, rfl, hu, hv⟩

/-- Any word: `.*` with the dot taking every symbol. -/
def anything : Atom α := .star fun _ => true

/-- The atoms with `.*` at each end that is not anchored. -/
def pad (anchored_start anchored_end : Bool) (as : List (Atom α)) : List (Atom α) :=
  (if anchored_start then [] else [anything]) ++ as ++ (if anchored_end then [] else [anything])

/-- Some part of `w` matches, at its start or end where anchored. -/
def Searches (anchored_start anchored_end : Bool) (as : List (Atom α)) (w : List α) : Prop :=
  ∃ x v y, w = x ++ v ++ y ∧ Matches as v ∧ (anchored_start = true → x = []) ∧ (anchored_end = true → y = [])

/-- The search, by the matcher on the padded atoms. -/
def search (anchored_start anchored_end : Bool) (as : List (Atom α)) (w : List α) : Bool :=
  matchAtoms (pad anchored_start anchored_end as) w

theorem matches_anything (w : List α) : Matches [anything] w := ⟨w, [], by simp, by simp, rfl⟩

/-- An end of the padding: nothing when anchored, any word otherwise. -/
theorem matches_end (anchored : Bool) (x : List α) :
    Matches (if anchored then [] else [anything]) x ↔ (anchored = true → x = []) := by
  cases anchored
  · simp [matches_anything]
  · simp

theorem search_iff (anchored_start anchored_end : Bool) (as : List (Atom α)) (w : List α) :
    search anchored_start anchored_end as w = true ↔ Searches anchored_start anchored_end as w := by
  rw [search, matchAtoms_iff, pad, matches_append, Searches]
  simp only [matches_append, matches_end]
  constructor
  · rintro ⟨_, y, rfl, ⟨x, v, rfl, hx, hv⟩, hy⟩
    exact ⟨x, v, y, rfl, hv, hx, hy⟩
  · rintro ⟨x, v, y, rfl, hv, hx, hy⟩
    exact ⟨x ++ v, y, rfl, ⟨x, v, rfl, hx, hv⟩, hy⟩

variable [DecidableEq α]

/-- The literals of a word. -/
def lits (l : List α) : List (Atom α) := l.map fun b => .one (· == b)

/-- A match of literals followed by anything starts with those literals. -/
theorem matches_lits_append : ∀ (l : List α) (as : List (Atom α)) (w : List α),
    Matches (lits l ++ as) w ↔ ∃ w', w = l ++ w' ∧ Matches as w'
  | [], as, w => by simp [lits]
  | b :: l, as, w => by
    have ih := matches_lits_append l as
    simp only [lits] at ih ⊢
    rw [List.map_cons, List.cons_append, matches_one]
    simp only [ih, beq_iff_eq]
    constructor
    · rintro ⟨c, _, rfl, rfl, w', rfl, hw⟩
      exact ⟨w', rfl, hw⟩
    · rintro ⟨w', rfl, hw⟩
      exact ⟨b, l ++ w', rfl, rfl, w', rfl, hw⟩

end FlatRegex
