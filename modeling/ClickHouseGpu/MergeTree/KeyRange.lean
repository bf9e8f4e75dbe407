import Mathlib.Order.Basic
import Mathlib.Tactic.Order

/-
  ClickHouseGpu.MergeTree.KeyRange — `Range` (dbms/src/Storages/MergeTree/PKCondition.h) and
  `BoolMask` (BoolMask.h): the ranges of key values the primary-key analysis reasons with, and
  the two flags it computes for a condition over a box of ranges.

  Values are an ordered type `V`, standing for the values `FieldVisitorAccurateLess` compares.
  `shrinkToIncludedIfPossible` steps an open end to the next or previous value where the
  `Field` is a `UInt64` or an `Int64` short of its end; here the steps are two functions
  `next` and `prev`, exact (`Discrete`) where nothing lies between a value and its neighbour.

  Proved:
  - `contains_shrink`: closing the open ends of a range keeps its values, for exact steps.
  - `contains_point`, `contains_createLeftBounded`, `contains_createRightBounded`,
    `contains_bounded`: the values of each kind of range the analysis builds.
  - `intersectsRange_of_contains`, `contains_of_containsRange`: two ranges with a common value
    intersect, and a range that contains another contains its values.
  - `covers_and`, `covers_or`, `covers_not`: the `BoolMask` operators allow the values of
    `&&`, `||` and `!` of values their arguments allow.
-/

namespace ClickHouseGpu.MergeTree.KeyRange

/-! ## Ranges -/

structure Range (V : Type) where
  left : V
  right : V
  left_bounded : Bool
  right_bounded : Bool
  left_included : Bool
  right_included : Bool
  deriving DecidableEq, Repr

namespace Range

variable {V : Type} [LinearOrder V] [Inhabited V]

def less (a b : V) : Bool := decide (a < b)

def equals (a b : V) : Bool := decide (a = b)

/-- `Range()`: the whole universe. -/
def whole : Range V := ⟨default, default, false, false, false, false⟩

/-- `Range(point)`. -/
def point (x : V) : Range V := ⟨x, x, true, true, true, true⟩

/-- The first half of `shrinkToIncludedIfPossible`: an open left end `(l` becomes `[l + 1`. -/
def includeLeft (next : V → Option V) (r : Range V) : Range V :=
  if r.left_bounded && !r.left_included then
    match next r.left with
    | some l => { r with left := l, left_included := true }
    | none => r
  else r

/-- The second half: an open right end `r)` becomes `r - 1]`. -/
def includeRight (prev : V → Option V) (r : Range V) : Range V :=
  if r.right_bounded && !r.right_included then
    match prev r.right with
    | some p => { r with right := p, right_included := true }
    | none => r
  else r

/-- Turn the open ends of an integer range into closed ones. -/
def shrinkToIncludedIfPossible (next prev : V → Option V) (r : Range V) : Range V :=
  includeRight prev (includeLeft next r)

/-- `Range(left, left_included, right, right_included)`. -/
def bounded (next prev : V → Option V) (l : V) (li : Bool) (r : V) (ri : Bool) : Range V :=
  shrinkToIncludedIfPossible next prev ⟨l, r, true, true, li, ri⟩

def createRightBounded (next prev : V → Option V) (right_point : V) (right_included : Bool) : Range V :=
  shrinkToIncludedIfPossible next prev { (whole : Range V) with
    right := right_point, right_bounded := true, right_included := right_included }

def createLeftBounded (next prev : V → Option V) (left_point : V) (left_included : Bool) : Range V :=
  shrinkToIncludedIfPossible next prev { (whole : Range V) with
    left := left_point, left_bounded := true, left_included := left_included }

/-- `x` is to the left of the range. -/
def rightThan (r : Range V) (x : V) : Bool :=
  if r.left_bounded then !(less r.left x || (r.left_included && equals x r.left)) else false

/-- `x` is to the right of the range. -/
def leftThan (r : Range V) (x : V) : Bool :=
  if r.right_bounded then !(less x r.right || (r.right_included && equals x r.right)) else false

def contains (r : Range V) (x : V) : Bool := !r.leftThan x && !r.rightThan x

def intersectsRange (self r : Range V) : Bool :=
  if r.right_bounded && self.left_bounded &&
      (less r.right self.left || ((!self.left_included || !r.right_included) && equals r.right self.left)) then
    false
  else if r.left_bounded && self.right_bounded &&
      (less self.right r.left || ((!self.right_included || !r.left_included) && equals r.left self.right)) then
    false
  else true

def containsRange (self r : Range V) : Bool :=
  if self.left_bounded &&
      (!r.left_bounded || less r.left self.left ||
        (r.left_included && !self.left_included && equals r.left self.left)) then
    false
  else if self.right_bounded &&
      (!r.right_bounded || less self.right r.right ||
        (r.right_included && !self.right_included && equals r.right self.right)) then
    false
  else true

end Range

structure BoolMask where
  can_be_true : Bool
  can_be_false : Bool
  deriving DecidableEq, Repr

namespace BoolMask

def and (a b : BoolMask) : BoolMask := ⟨a.can_be_true && b.can_be_true, a.can_be_false || b.can_be_false⟩

def or (a b : BoolMask) : BoolMask := ⟨a.can_be_true || b.can_be_true, a.can_be_false && b.can_be_false⟩

def not (a : BoolMask) : BoolMask := ⟨a.can_be_false, a.can_be_true⟩

end BoolMask

/-! ## Ranges: which values they contain -/

namespace Range

variable {V : Type} [LinearOrder V]

/-- The steps of `shrinkToIncludedIfPossible` are exact: nothing lies strictly between a value
    and the next one. -/
structure Discrete (next prev : V → Option V) : Prop where
  next_spec : ∀ v w, next v = some w → ∀ x, v < x ↔ w ≤ x
  prev_spec : ∀ v w, prev v = some w → ∀ x, x < v ↔ x ≤ w

/-- `x` is not left of the range. -/
def AboveLeft (r : Range V) (x : V) : Prop :=
  r.left_bounded = true → r.left < x ∨ (r.left_included = true ∧ x = r.left)

/-- `x` is not right of the range. -/
def BelowRight (r : Range V) (x : V) : Prop :=
  r.right_bounded = true → x < r.right ∨ (r.right_included = true ∧ x = r.right)

theorem contains_iff (r : Range V) (x : V) : r.contains x = true ↔ AboveLeft r x ∧ BelowRight r x := by
  unfold contains
  rw [Bool.and_comm]
  unfold leftThan rightThan AboveLeft BelowRight
  cases r.left_bounded <;> cases r.right_bounded <;> simp [less, equals]

theorem aboveLeft_includeLeft {next : V → Option V} (hn : ∀ v w, next v = some w → ∀ x, v < x ↔ w ≤ x)
    (r : Range V) (x : V) : AboveLeft (includeLeft next r) x ↔ AboveLeft r x := by
  unfold includeLeft
  by_cases hopen : r.left_bounded = true ∧ r.left_included = false
  · obtain ⟨hb, hi⟩ := hopen
    cases hnext : next r.left with
    | none => simp [hb, hi]
    | some l =>
      have hstep := hn r.left l hnext x
      simp only [hb, hi, Bool.not_false, Bool.and_self, if_true, AboveLeft, forall_const,
        Bool.false_eq_true, false_and, or_false, true_and]
      rw [hstep, le_iff_lt_or_eq]
      exact or_congr_right eq_comm
  · rw [if_neg (by simpa using hopen)]

theorem belowRight_includeLeft (next : V → Option V) (r : Range V) (x : V) :
    BelowRight (includeLeft next r) x ↔ BelowRight r x := by
  unfold includeLeft
  split
  · split <;> rfl
  · rfl

theorem belowRight_includeRight {prev : V → Option V} (hp : ∀ v w, prev v = some w → ∀ x, x < v ↔ x ≤ w)
    (r : Range V) (x : V) : BelowRight (includeRight prev r) x ↔ BelowRight r x := by
  unfold includeRight
  by_cases hopen : r.right_bounded = true ∧ r.right_included = false
  · obtain ⟨hb, hi⟩ := hopen
    cases hprev : prev r.right with
    | none => simp [hb, hi]
    | some p =>
      have hstep := hp r.right p hprev x
      simp only [hb, hi, Bool.not_false, Bool.and_self, if_true, BelowRight, forall_const,
        Bool.false_eq_true, false_and, or_false, true_and]
      rw [hstep, le_iff_lt_or_eq]
  · rw [if_neg (by simpa using hopen)]

theorem aboveLeft_includeRight (prev : V → Option V) (r : Range V) (x : V) :
    AboveLeft (includeRight prev r) x ↔ AboveLeft r x := by
  unfold includeRight
  split
  · split <;> rfl
  · rfl

/-- Closing the open ends of an integer range keeps its values. -/
theorem contains_shrink {next prev : V → Option V} (hd : Discrete next prev) (r : Range V) (x : V) :
    (shrinkToIncludedIfPossible next prev r).contains x = r.contains x := by
  apply Bool.eq_iff_iff.mpr
  rw [shrinkToIncludedIfPossible, contains_iff, contains_iff, aboveLeft_includeRight,
    belowRight_includeRight hd.prev_spec, aboveLeft_includeLeft hd.next_spec, belowRight_includeLeft]

@[simp] theorem contains_whole [Inhabited V] (x : V) : (whole : Range V).contains x = true := by
  simp [contains_iff, AboveLeft, BelowRight, whole]

theorem contains_point (v x : V) : (point v).contains x = decide (x = v) := by
  apply Bool.eq_iff_iff.mpr
  simp only [contains_iff, AboveLeft, BelowRight, point, forall_const, true_and, decide_eq_true_eq]
  constructor
  · rintro ⟨hl | e, hr | e⟩
    · exact absurd (hl.trans hr) (lt_irrefl v)
    all_goals exact e
  · intro e
    exact ⟨Or.inr e, Or.inr e⟩

theorem contains_createRightBounded [Inhabited V] {next prev : V → Option V} (hd : Discrete next prev) (v : V) (incl : Bool)
    (x : V) : (createRightBounded next prev v incl).contains x = decide (x < v ∨ (incl = true ∧ x = v)) := by
  apply Bool.eq_iff_iff.mpr
  simp [createRightBounded, contains_shrink hd, contains_iff, AboveLeft, BelowRight, whole]

theorem contains_createLeftBounded [Inhabited V] {next prev : V → Option V} (hd : Discrete next prev) (v : V) (incl : Bool)
    (x : V) : (createLeftBounded next prev v incl).contains x = decide (v < x ∨ (incl = true ∧ x = v)) := by
  apply Bool.eq_iff_iff.mpr
  simp [createLeftBounded, contains_shrink hd, contains_iff, AboveLeft, BelowRight, whole]

theorem contains_bounded {next prev : V → Option V} (hd : Discrete next prev) (l : V) (li : Bool) (r : V)
    (ri : Bool) (x : V) : (bounded next prev l li r ri).contains x = true ↔
      (l < x ∨ (li = true ∧ x = l)) ∧ (x < r ∨ (ri = true ∧ x = r)) := by
  simp [bounded, contains_shrink hd, contains_iff, AboveLeft, BelowRight]

/-- A value below the right end of `a` and above the left end of `b` leaves no gap between
    them. -/
theorem no_gap {a b : Range V} {x : V} (ha : BelowRight a x) (hb : AboveLeft b x) (har : a.right_bounded = true)
    (hbl : b.left_bounded = true) :
    ¬ a.right < b.left ∧ (a.right = b.left → a.right_included = true ∧ b.left_included = true) := by
  constructor
  · intro hlt
    rcases ha har with hx | ⟨-, hx⟩ <;> rcases hb hbl with hy | ⟨-, hy⟩ <;> order
  · intro heq
    rcases ha har with hx | ⟨hi, hx⟩ <;> rcases hb hbl with hy | ⟨hj, hy⟩
    · exfalso
      order
    · exfalso
      order
    · exfalso
      order
    · exact ⟨hi, hj⟩

/-- Two ranges that share a value intersect. -/
theorem intersectsRange_of_contains {self r : Range V} {x : V} (hs : self.contains x = true)
    (hr : r.contains x = true) : self.intersectsRange r = true := by
  rw [contains_iff] at hs hr
  have hleft := no_gap hr.2 hs.1
  have hright := no_gap hs.2 hr.1
  unfold intersectsRange
  split
  · next hc =>
    -- `r` to the left of `self`
    simp only [less, equals, Bool.and_eq_true, Bool.or_eq_true, decide_eq_true_eq, Bool.not_eq_true'] at hc
    obtain ⟨⟨hrb, hsb⟩, hcase⟩ := hc
    obtain ⟨hlt, heq⟩ := hleft hrb hsb
    rcases hcase with h | ⟨hi, e⟩
    · exact absurd h hlt
    · obtain ⟨h1, h2⟩ := heq e
      rcases hi with hi | hi <;> simp_all
  split
  · next hc =>
    -- `r` to the right of `self`
    simp only [less, equals, Bool.and_eq_true, Bool.or_eq_true, decide_eq_true_eq, Bool.not_eq_true'] at hc
    obtain ⟨⟨hrb, hsb⟩, hcase⟩ := hc
    obtain ⟨hlt, heq⟩ := hright hsb hrb
    rcases hcase with h | ⟨hi, e⟩
    · exact absurd h hlt
    · obtain ⟨h1, h2⟩ := heq e.symm
      rcases hi with hi | hi <;> simp_all
  · rfl

/-- A value left of `self` and not left of `r` makes `containsRange`'s first test fail. -/
theorem left_test {self r : Range V} {x : V} (hs : ¬ AboveLeft self x) (hr : AboveLeft r x) :
    (self.left_bounded && (!r.left_bounded || less r.left self.left ||
      (r.left_included && !self.left_included && equals r.left self.left))) = true := by
  simp only [AboveLeft, Classical.not_imp, not_or, not_and, not_lt] at hs
  obtain ⟨hsb, hle, hni⟩ := hs
  simp only [hsb, less, equals, Bool.true_and, Bool.or_eq_true, Bool.not_eq_true', decide_eq_true_eq,
    Bool.and_eq_true]
  cases hrb : r.left_bounded
  · exact Or.inl (Or.inl rfl)
  · rcases hr hrb with hlt | ⟨hri, e⟩
    · exact Or.inl (Or.inr (lt_of_lt_of_le hlt hle))
    · rcases lt_or_eq_of_le hle with hlt | heq
      · exact Or.inl (Or.inr (e ▸ hlt))
      · have hsi : self.left_included = false := by
          cases hsi : self.left_included
          · rfl
          · exact absurd heq (hni hsi)
        exact Or.inr ⟨⟨hri, hsi⟩, e ▸ heq⟩

/-- A value right of `self` and not right of `r` makes `containsRange`'s second test fail. -/
theorem right_test {self r : Range V} {x : V} (hs : ¬ BelowRight self x) (hr : BelowRight r x) :
    (self.right_bounded && (!r.right_bounded || less self.right r.right ||
      (r.right_included && !self.right_included && equals r.right self.right))) = true := by
  simp only [BelowRight, Classical.not_imp, not_or, not_and, not_lt] at hs
  obtain ⟨hsb, hle, hni⟩ := hs
  simp only [hsb, less, equals, Bool.true_and, Bool.or_eq_true, Bool.not_eq_true', decide_eq_true_eq,
    Bool.and_eq_true]
  cases hrb : r.right_bounded
  · exact Or.inl (Or.inl rfl)
  · rcases hr hrb with hlt | ⟨hri, e⟩
    · exact Or.inl (Or.inr (lt_of_le_of_lt hle hlt))
    · rcases lt_or_eq_of_le hle with hlt | heq
      · exact Or.inl (Or.inr (e ▸ hlt))
      · have hsi : self.right_included = false := by
          cases hsi : self.right_included
          · rfl
          · exact absurd heq.symm (hni hsi)
        exact Or.inr ⟨⟨hri, hsi⟩, e ▸ heq.symm⟩

/-- A range that contains another contains its values. -/
theorem contains_of_containsRange {self r : Range V} {x : V} (hc : self.containsRange r = true)
    (hr : r.contains x = true) : self.contains x = true := by
  rw [contains_iff] at hr ⊢
  unfold containsRange at hc
  constructor
  · by_contra hsl
    rw [if_pos (left_test hsl hr.1)] at hc
    exact Bool.false_ne_true hc
  · by_contra hsr
    split at hc
    · exact Bool.false_ne_true hc
    · rw [if_pos (right_test hsr hr.2)] at hc
      exact Bool.false_ne_true hc

end Range

/-! ## Masks: which values a mask allows -/

namespace BoolMask

/-- The mask allows the value `b`. -/
def Covers (m : BoolMask) (b : Bool) : Prop := if b then m.can_be_true = true else m.can_be_false = true

theorem covers_and {a b : BoolMask} {x y : Bool} (ha : a.Covers x) (hb : b.Covers y) : (a.and b).Covers (x && y) := by
  cases x <;> cases y <;> simp_all [Covers, BoolMask.and]

theorem covers_or {a b : BoolMask} {x y : Bool} (ha : a.Covers x) (hb : b.Covers y) : (a.or b).Covers (x || y) := by
  cases x <;> cases y <;> simp_all [Covers, BoolMask.or]

theorem covers_not {a : BoolMask} {x : Bool} (ha : a.Covers x) : a.not.Covers (!x) := by
  cases x <;> simp_all [Covers, BoolMask.not]

theorem covers_unknown (x : Bool) : BoolMask.Covers ⟨true, true⟩ x := by
  cases x <;> rfl

end BoolMask

end ClickHouseGpu.MergeTree.KeyRange
