import Mathlib
import ClickHouseGpu.MergeTree.PKCondition

/-
  ClickHouseGpu.MergeTree.PKConditionSoundness — what `mayBeTrueInRange` promises: a range it
  rules out holds no key tuple that makes the condition true. It holds for conditions without
  the constant `-0.`, and fails with it.

  The argument has three layers. Over one box, the RPN of a well-formed condition pushes one
  mask, and the mask allows the condition's value at every tuple of the box
  (`traverseAST_spec`, by induction on the syntax tree: one lemma per kind of node, the atoms
  from the range lemmas of `KeyRange`). Over the range, every tuple between the two ends lies
  in a box `forAnyParallelogram` passes to its callback, unless the callback answered `true`
  first (`forAnyParallelogram_cover`, by induction along its recursion). Together they give
  `mayBeTrueInRange_sound`.

  The constant branch of `atomFromAST` reads a number's bits. `-0.` has the sign bit set, so
  it becomes `ALWAYS_TRUE` although its value is zero, and `NOT -0.` becomes "never".

  Proved:
  - `traverseAST_spec`, `build_spec`: the RPN of a condition pushes one mask that allows the
    condition's value on the box, for conditions without `-0.`.
  - `forAnyParallelogram_cover`: the boxes cover the lexicographic range.
  - `mayBeTrueInRange_sound`: without `-0.`, a range the index rules out holds no tuple that
    makes the condition true.
  - `where_not_negative_zero_rules_out_every_range`: `WHERE NOT -0. AND e`, true wherever `e`
    is, is ruled out on every range.
-/

namespace ClickHouseGpu.MergeTree.PKConditionSoundness

open Checked ClickHouseGpu.MergeTree.KeyRange ClickHouseGpu.MergeTree.PKCondition

section Boxes

variable {V : Type} [LinearOrder V]

/-- The tuple `t` lies in the box. -/
def InBox (key_ranges : Nat → Range V) (t : Nat → V) : Prop := ∀ i, (key_ranges i).contains (t i) = true

/-- A range atom's mask allows the atom's value at every value of the column's range. -/
theorem rangeMask_covers (element_range : Range V) {key_range : Range V} {x : V} (hx : key_range.contains x = true) :
    (rangeMask element_range key_range).Covers (element_range.contains x) := by
  cases hc : element_range.contains x with
  | true => exact Range.intersectsRange_of_contains hc hx
  | false =>
    show (!element_range.containsRange key_range) = true
    cases hr : element_range.containsRange key_range with
    | false => rfl
    | true => exact absurd (Range.contains_of_containsRange hr hx) (by simp [hc])

theorem evalRPN_append (key_ranges : Nat → Range V) :
    ∀ (a b : List (RPNElement V)) (rpn_stack : List BoolMask),
      evalRPN key_ranges (a ++ b) rpn_stack = evalRPN key_ranges a rpn_stack >>= evalRPN key_ranges b
  | [], _, _ => rfl
  | element :: a, b, rpn_stack => by
    simp only [List.cons_append, evalRPN]
    cases stepRPN key_ranges rpn_stack element with
    | error e => rfl
    | ok s => exact evalRPN_append key_ranges a b s

/-- `rpn` pushes one mask onto any stack, and the mask has the property `P`. -/
def PushesOne (key_ranges : Nat → Range V) (rpn : List (RPNElement V)) (P : BoolMask → Prop) : Prop :=
  ∀ rpn_stack, ∃ m, evalRPN key_ranges rpn rpn_stack = .ok (m :: rpn_stack) ∧ P m

theorem pushesOne_single {key_ranges : Nat → Range V} {element : RPNElement V} {P : BoolMask → Prop}
    (h : ∀ rpn_stack, ∃ m, stepRPN key_ranges rpn_stack element = .ok (m :: rpn_stack) ∧ P m) :
    PushesOne key_ranges [element] P := by
  intro rpn_stack
  obtain ⟨m, hm, hP⟩ := h rpn_stack
  exact ⟨m, by simp [evalRPN, hm], hP⟩

end Boxes

/-! ## The RPN of an atom -/

section Atoms

variable {V : Type} [LinearOrder V] [Inhabited V] (key : KeyInfo V)

/-- What the RPN of `e` says over a box: for a key whose steps are exact and an expression
    without `-0.`, its mask allows `e`'s value at every tuple of the box. -/
def Allows (key_ranges : Nat → Range V) (e : Ast) (m : BoolMask) : Prop :=
  Range.Discrete key.next key.prev → e.all notNegativeZero = true →
    ∀ t other, InBox key_ranges t → m.Covers (e.eval key t other)

omit [Inhabited V] in
theorem allows_unknown (key_ranges : Nat → Range V) (e : Ast) : Allows key key_ranges e ⟨true, true⟩ :=
  fun _ _ _ _ _ => BoolMask.covers_unknown _

omit [Inhabited V] in
theorem evalList_length (t : Nat → V) (other : Ast → Bool) :
    ∀ args : List Ast, (Ast.evalList key t other args).length = args.length
  | [] => rfl
  | _ :: rest => by simp [Ast.evalList, evalList_length t other rest]

omit [Inhabited V] in
theorem compareValues_eq_none {func_name : String} (h : ¬ (func_name = "equals" ∨ func_name = "notEquals" ∨
    func_name = "less" ∨ func_name = "greater" ∨ func_name = "lessOrEquals" ∨ func_name = "greaterOrEquals"))
    (x v : V) : compareValues func_name x v = none := by
  simp only [not_or] at h
  obtain ⟨h1, h2, h3, h4, h5, h6⟩ := h
  simp [compareValues, h1, h2, h3, h4, h5, h6]

omit [Inhabited V] in
/-- A function that is not an operator is a comparison, or a value of its own. -/
theorem eval_of_operatorFromAST_none {func_name : String} {args : List Ast} (h : operatorFromAST func_name args = none)
    (t : Nat → V) (other : Ast → Bool) :
    (Ast.function func_name args).eval key t other =
      (compareAtom key func_name args t).getD (other (.function func_name args)) := by
  unfold operatorFromAST at h
  by_cases hnot : func_name = "not"
  · -- `not` with other than one argument: no value of its own, and no comparison
    subst hnot
    have hlen : args.length ≠ 1 := by simpa using h
    have hnone : ∀ x v : V, compareValues "not" x v = none := compareValues_eq_none (by decide)
    have hcmp : compareAtom key "not" args t = none := by
      unfold compareAtom
      split
      · split
        · simp [hnone]
        · rfl
      · rfl
    have hvals : ∀ b, Ast.evalList key t other args ≠ [b] := fun b e => hlen (by
      rw [← evalList_length key t other args, e]; rfl)
    rw [Ast.eval, if_pos rfl, hcmp]
    split
    · next b e => exact absurd e (hvals b)
    · rfl
  · have hand : ¬ (func_name = "and" ∨ func_name = "indexHint") := by
      intro hc
      simp [hnot, hc] at h
    have hor : func_name ≠ "or" := by
      intro hc
      simp [hc] at h
    rw [Ast.eval, if_neg hnot, if_neg hand, if_neg hor]

/-- The six names `atom_map` knows. -/
def isComparison (func_name : String) : Bool :=
  func_name ∈ ["equals", "notEquals", "less", "greater", "lessOrEquals", "greaterOrEquals"]

omit [LinearOrder V] in
theorem atom_map_isSome {func_name : String} (h : (atom_map key func_name).isSome = true) :
    isComparison func_name = true := by
  unfold atom_map at h
  split_ifs at h with h1 h2 h3 h4 h5 h6 <;> simp_all [isComparison]

omit [LinearOrder V] in
theorem atom_map_function {func_name : String} {atom : V → RPNFunction × Range V} (h : atom_map key func_name = some atom)
    (v : V) : (atom v).1 = .FUNCTION_IN_RANGE ∨ (atom v).1 = .FUNCTION_NOT_IN_RANGE := by
  unfold atom_map at h
  split_ifs at h <;> cases h <;> simp

/-- Each comparison of `atom_map` is the membership of its range, negated for `notEquals`. -/
theorem atom_map_compareValues (hd : Range.Discrete key.next key.prev) {func_name : String}
    {atom : V → RPNFunction × Range V} (h : atom_map key func_name = some atom) (v x : V) :
    compareValues func_name x v =
      some (if (atom v).1 = .FUNCTION_NOT_IN_RANGE then !(atom v).2.contains x else (atom v).2.contains x) := by
  unfold atom_map at h
  split_ifs at h with h1 h2 h3 h4 h5 h6 <;> cases h
  · simp [compareValues, h1, Range.contains_point]
  · simp [compareValues, h2, Range.contains_point]
  · simp [compareValues, h3, Range.contains_createRightBounded hd]
  · simp [compareValues, h4, Range.contains_createLeftBounded hd]
  · simp [compareValues, h5, Range.contains_createRightBounded hd, le_iff_lt_or_eq]
  · simp [compareValues, h6, Range.contains_createLeftBounded hd, le_iff_lt_or_eq, eq_comm]

omit [LinearOrder V] [Inhabited V] in
theorem operatorFromAST_of_isComparison {func_name : String} (h : isComparison func_name = true) (args : List Ast) :
    operatorFromAST func_name args = none := by
  simp only [isComparison, List.mem_cons, List.not_mem_nil, or_false, decide_eq_true_eq] at h
  rcases h with rfl | rfl | rfl | rfl | rfl | rfl <;> simp [operatorFromAST]

omit [LinearOrder V] [Inhabited V] in
/-- Swapping the arguments of a comparison gives a comparison. -/
theorem isComparison_of_comparisonName {func_name name : String} {swapped : Bool}
    (h : comparisonName func_name swapped = some name) (hc : isComparison name = true) : isComparison func_name = true := by
  cases swapped with
  | false =>
    cases h
    exact hc
  | true =>
    simp only [comparisonName, if_true, swapComparison] at h
    split_ifs at h with h1 h2 h3 h4 h5 <;> cases h <;> simp_all [isComparison]

omit [Inhabited V] in
/-- The swapped comparison compares the same two values. -/
theorem compareValues_comparisonName {func_name name : String} {swapped : Bool} (h : comparisonName func_name swapped = some name)
    (hc : isComparison name = true) (x v : V) :
    compareValues name x v = if swapped then compareValues func_name v x else compareValues func_name x v := by
  cases swapped with
  | false =>
    cases h
    rfl
  | true =>
    have hf := isComparison_of_comparisonName h hc
    simp only [isComparison, List.mem_cons, List.not_mem_nil, or_false, decide_eq_true_eq] at hf
    simp only [comparisonName, if_true] at h ⊢
    rcases hf with rfl | rfl | rfl | rfl | rfl | rfl <;> simp [swapComparison] at h <;> subst h <;>
      simp [compareValues, eq_comm]

omit [LinearOrder V] in
theorem atomFromAST_literal {c : Field} {element : RPNElement V} (h : atomFromAST key (.literal c) = .ok (some element)) :
    c.isNumber = true ∧ element = .ofFunction (if c.bits ≠ 0 then .ALWAYS_TRUE else .ALWAYS_FALSE) := by
  simp only [atomFromAST, getConstant] at h
  by_cases hnum : c.isNumber = true
  · rw [if_pos hnum] at h
    cases h
    exact ⟨hnum, rfl⟩
  · rw [if_neg hnum] at h
    cases h

omit [LinearOrder V] in
/-- What `atomFromAST` makes of a function: a range of a key column, from `atom_map` at the
    constant. -/
theorem atomFromAST_function {func_name : String} {args : List Ast} {element : RPNElement V}
    (h : atomFromAST key (.function func_name args) = .ok (some element)) :
    ∃ a0 a1 const_value k swapped name atom v, args = [a0, a1] ∧
      keyAndConstant key a0 a1 = some (const_value, k, swapped) ∧ comparisonName func_name swapped = some name ∧
      atom_map key name = some atom ∧ key.toKey const_value = some v ∧ element = ⟨(atom v).1, (atom v).2, k⟩ := by
  rcases args with _ | ⟨a0, _ | ⟨a1, _ | ⟨a2, rest⟩⟩⟩
  · cases h
  · cases h
  · simp only [atomFromAST] at h
    split at h
    · cases h
    · next const_value k swapped hk =>
      split at h
      · cases h
      · next name hname =>
        split at h
        · cases h
        · next atom hatom =>
          split at h
          · cases h
          · next v hv =>
            cases h
            exact ⟨a0, a1, const_value, k, swapped, name, atom, v, rfl, hk, hname, hatom, hv, rfl⟩
  · cases h

omit [Inhabited V] in
theorem compareAtom_eq {func_name : String} {a0 a1 : Ast} {const_value : Field} {k : Nat} {swapped : Bool} {v : V}
    (hk : keyAndConstant key a0 a1 = some (const_value, k, swapped)) (hv : key.toKey const_value = some v)
    (t : Nat → V) :
    compareAtom key func_name [a0, a1] t = if swapped then compareValues func_name v (t k) else compareValues func_name (t k) v := by
  simp [compareAtom, hk, hv]

/-- The mask of a range atom allows the comparison it came from. -/
theorem function_atom_allows (key_ranges : Nat → Range V) {func_name : String} {args : List Ast}
    {element : RPNElement V} (h : atomFromAST key (.function func_name args) = .ok (some element)) :
    PushesOne key_ranges [element] (Allows key key_ranges (.function func_name args)) := by
  obtain ⟨a0, a1, const_value, k, swapped, name, atom, v, rfl, hk, hname, hatom, hv, rfl⟩ := atomFromAST_function key h
  have hc : isComparison name = true := atom_map_isSome key (by simp [hatom])
  have hop := operatorFromAST_of_isComparison (isComparison_of_comparisonName hname hc) [a0, a1]
  apply pushesOne_single
  intro rpn_stack
  -- the mask of the range, negated for `notEquals`
  let mask := rangeMask (atom v).2 (key_ranges k)
  refine ⟨if (atom v).1 = .FUNCTION_NOT_IN_RANGE then mask.not else mask, ?_, ?_⟩
  · rcases atom_map_function key hatom v with hf | hf <;> simp [stepRPN, hf, mask]
  · intro hd _ t other hbox
    have hcov := rangeMask_covers (atom v).2 (hbox k)
    rw [eval_of_operatorFromAST_none key hop, compareAtom_eq key hk hv, ← compareValues_comparisonName hname hc,
      atom_map_compareValues key hd hatom]
    split
    · exact BoolMask.covers_not hcov
    · exact hcov

/-- `ALWAYS_TRUE` and `ALWAYS_FALSE` allow the constant's value, unless it is `-0.`. -/
theorem literal_atom_allows (key_ranges : Nat → Range V) {c : Field} {element : RPNElement V}
    (h : atomFromAST key (.literal c) = .ok (some element)) :
    PushesOne key_ranges [element] (Allows key key_ranges (.literal c)) := by
  obtain ⟨hnum, rfl⟩ := atomFromAST_literal key h
  apply pushesOne_single
  intro rpn_stack
  refine ⟨if c.bits ≠ 0 then ⟨true, false⟩ else ⟨false, true⟩, ?_, ?_⟩
  · by_cases hb : c.bits ≠ 0 <;> simp [stepRPN, RPNElement.ofFunction, hb]
  · intro _ hz t other _
    have hc : c ≠ Field.negativeZero := by simpa [Ast.all, notNegativeZero] using hz
    rw [Ast.eval, Field.truth_eq_bits hnum hc]
    by_cases hb : c.bits ≠ 0 <;> simp [hb, BoolMask.Covers]

/-- A node that is no operator pushes its atom, or `FUNCTION_UNKNOWN`. -/
theorem atomOrUnknown_spec (key_ranges : Nat → Range V) (node : Ast) {rpn : List (RPNElement V)}
    (h : atomOrUnknown key node = .ok rpn) : PushesOne key_ranges rpn (Allows key key_ranges node) := by
  unfold atomOrUnknown at h
  cases hA : atomFromAST key node with
  | error e => simp [hA] at h
  | ok r =>
    rw [hA] at h
    cases r with
    | none =>
      cases h
      exact pushesOne_single fun rpn_stack => ⟨⟨true, true⟩, rfl, allows_unknown key key_ranges node⟩
    | some element =>
      cases h
      cases node with
      | literal c => exact literal_atom_allows key key_ranges hA
      | identifier name => cases hA
      | function func_name args => exact function_atom_allows key key_ranges hA

end Atoms

/-! ## The RPN of a condition -/

section Operators

variable {V : Type} [LinearOrder V] [Inhabited V] (key : KeyInfo V)

omit [LinearOrder V] [Inhabited V] in
theorem operatorFromAST_eq_some {func_name : String} {args : List Ast} {op : RPNFunction}
    (h : operatorFromAST func_name args = some op) :
    (func_name = "not" ∧ args.length = 1 ∧ op = .FUNCTION_NOT) ∨
      ((func_name = "and" ∨ func_name = "indexHint") ∧ op = .FUNCTION_AND) ∨
      (func_name = "or" ∧ op = .FUNCTION_OR) := by
  unfold operatorFromAST at h
  split_ifs at h with h1 h2 h3 h4 <;> cases h
  · exact Or.inl ⟨h1, h2, rfl⟩
  · exact Or.inr (Or.inl ⟨h3, rfl⟩)
  · exact Or.inr (Or.inr ⟨h4, rfl⟩)

theorem foldl_and_eq : ∀ (acc : Bool) (l : List Bool), l.foldl (· && ·) acc = (acc && l.all id)
  | acc, [] => by simp
  | acc, b :: l => by simp [foldl_and_eq (acc && b) l, Bool.and_assoc]

theorem foldl_or_eq : ∀ (acc : Bool) (l : List Bool), l.foldl (· || ·) acc = (acc || l.any id)
  | acc, [] => by simp
  | acc, b :: l => by simp [foldl_or_eq (acc || b) l, Bool.or_assoc]

/-- Arguments after the first of `and` or `or`: each pushes its mask and the operator folds it
    into the mask below. -/
theorem traverseArgs_fold (key_ranges : Nat → Range V) {op : RPNFunction} {combine : BoolMask → BoolMask → BoolMask}
    {f : Bool → Bool → Bool}
    (hstep : ∀ a b rpn_stack, stepRPN key_ranges (a :: b :: rpn_stack) (.ofFunction op) = .ok (combine a b :: rpn_stack))
    (hcov : ∀ a b x y, a.Covers x → b.Covers y → (combine a b).Covers (f y x)) :
    ∀ (args : List Ast) (i : Nat) {rpn : List (RPNElement V)}, i ≠ 0 →
      (∀ a ∈ args, ∀ r, traverseAST key a = .ok r → PushesOne key_ranges r (Allows key key_ranges a)) →
      traverseArgs key op i args = .ok rpn →
      ∀ m0 rpn_stack, ∃ m, evalRPN key_ranges rpn (m0 :: rpn_stack) = .ok (m :: rpn_stack) ∧
        (Range.Discrete key.next key.prev → Ast.allList notNegativeZero args = true →
          ∀ t other acc, InBox key_ranges t → m0.Covers acc →
            m.Covers ((Ast.evalList key t other args).foldl f acc))
  | [], i, rpn, _, _, h => by
    cases h
    intro m0 rpn_stack
    exact ⟨m0, rfl, fun _ _ t other acc _ hacc => hacc⟩
  | a :: rest, i, rpn, hi, hargs, h => by
    simp only [traverseArgs, bind_eq_ok, pure_eq_ok, Except.ok.injEq] at h
    obtain ⟨ra, hra, rr, hrr, rfl⟩ := h
    have hop : operatorAfter op i = [(RPNElement.ofFunction op : RPNElement V)] := by
      simp [operatorAfter, hi]
    intro m0 rpn_stack
    obtain ⟨ma, hma, hallow⟩ := hargs a (List.mem_cons_self ..) ra hra (m0 :: rpn_stack)
    have ih := traverseArgs_fold key_ranges hstep hcov rest (i + 1) (Nat.succ_ne_zero i)
      (fun b hb => hargs b (List.mem_cons_of_mem a hb)) hrr (combine ma m0) rpn_stack
    obtain ⟨m, hm, hcovers⟩ := ih
    refine ⟨m, ?_, ?_⟩
    · rw [evalRPN_append, evalRPN_append, hma, ok_bind, hop]
      simp only [evalRPN, hstep, ok_bind]
      exact hm
    · intro hd hz t other acc hbox hacc
      simp only [Ast.allList, Bool.and_eq_true] at hz
      have hhead := hcov ma m0 _ acc (hallow hd hz.1 t other hbox) hacc
      simpa [Ast.evalList] using hcovers hd hz.2 t other _ hbox hhead

theorem traverseArgs_not (key_ranges : Nat → Range V) {a : Ast} {rpn : List (RPNElement V)}
    (ha : ∀ r, traverseAST key a = .ok r → PushesOne key_ranges r (Allows key key_ranges a))
    (h : traverseArgs key .FUNCTION_NOT 0 [a] = .ok rpn) :
    PushesOne key_ranges rpn (Allows key key_ranges (.function "not" [a])) := by
  simp only [traverseArgs, bind_eq_ok, pure_eq_ok, Except.ok.injEq] at h
  obtain ⟨ra, hra, rr, hrr, rfl⟩ := h
  cases hrr
  intro rpn_stack
  obtain ⟨ma, hma, hallow⟩ := ha ra hra rpn_stack
  refine ⟨ma.not, ?_, ?_⟩
  · rw [evalRPN_append, evalRPN_append, hma, ok_bind]
    rfl
  · intro hd hz t other hbox
    simp only [Ast.all, Ast.allList, Bool.and_true, Bool.and_eq_true] at hz
    have hcov := BoolMask.covers_not (hallow hd hz.2 t other hbox)
    simpa [Ast.eval, Ast.evalList] using hcov

/-- The first argument of `and` or `or` pushes its mask; the others fold into it. -/
theorem traverseArgs_first (key_ranges : Nat → Range V) {op : RPNFunction} {combine : BoolMask → BoolMask → BoolMask}
    {f : Bool → Bool → Bool} (hnot : op ≠ .FUNCTION_NOT)
    (hstep : ∀ a b rpn_stack, stepRPN key_ranges (a :: b :: rpn_stack) (.ofFunction op) = .ok (combine a b :: rpn_stack))
    (hcov : ∀ a b x y, a.Covers x → b.Covers y → (combine a b).Covers (f y x)) {a : Ast} {rest : List Ast}
    {rpn : List (RPNElement V)}
    (hargs : ∀ b ∈ a :: rest, ∀ r, traverseAST key b = .ok r → PushesOne key_ranges r (Allows key key_ranges b))
    (h : traverseArgs key op 0 (a :: rest) = .ok rpn) :
    PushesOne key_ranges rpn (fun m => Range.Discrete key.next key.prev → Ast.allList notNegativeZero (a :: rest) = true →
      ∀ t other, InBox key_ranges t →
        m.Covers ((Ast.evalList key t other rest).foldl f (a.eval key t other))) := by
  simp only [traverseArgs, bind_eq_ok, pure_eq_ok, Except.ok.injEq] at h
  obtain ⟨ra, hra, rr, hrr, rfl⟩ := h
  have hop : operatorAfter op 0 = ([] : List (RPNElement V)) := by simp [operatorAfter, hnot]
  intro rpn_stack
  obtain ⟨ma, hma, hallow⟩ := hargs a (List.mem_cons_self ..) ra hra rpn_stack
  obtain ⟨m, hm, hcovers⟩ := traverseArgs_fold key key_ranges hstep hcov rest 1 Nat.one_ne_zero
    (fun b hb => hargs b (List.mem_cons_of_mem a hb)) hrr ma rpn_stack
  refine ⟨m, ?_, ?_⟩
  · rw [evalRPN_append, evalRPN_append, hma, ok_bind, hop]
    exact hm
  · intro hd hz t other hbox
    simp only [Ast.allList, Bool.and_eq_true] at hz
    exact hcovers hd hz.2 t other _ hbox (hallow hd hz.1 t other hbox)

theorem and_step (key_ranges : Nat → Range V) (a b : BoolMask) (rpn_stack : List BoolMask) :
    stepRPN key_ranges (a :: b :: rpn_stack) (.ofFunction .FUNCTION_AND) = .ok (a.and b :: rpn_stack) := rfl

theorem or_step (key_ranges : Nat → Range V) (a b : BoolMask) (rpn_stack : List BoolMask) :
    stepRPN key_ranges (a :: b :: rpn_stack) (.ofFunction .FUNCTION_OR) = .ok (a.or b :: rpn_stack) := rfl

theorem and_covers (a b : BoolMask) (x y : Bool) (ha : a.Covers x) (hb : b.Covers y) : (a.and b).Covers (y && x) := by
  rw [Bool.and_comm]
  exact BoolMask.covers_and ha hb

theorem or_covers (a b : BoolMask) (x y : Bool) (ha : a.Covers x) (hb : b.Covers y) : (a.or b).Covers (y || x) := by
  rw [Bool.or_comm]
  exact BoolMask.covers_or ha hb

/-- The RPN of a well-formed condition pushes one mask, and over a box the mask allows the
    condition's value at every tuple of the box. By induction on the syntax tree. -/
theorem traverseAST_spec (key_ranges : Nat → Range V) :
    ∀ (e : Ast) {rpn : List (RPNElement V)}, e.all wellFormedNode = true → traverseAST key e = .ok rpn →
      PushesOne key_ranges rpn (Allows key key_ranges e)
  | .literal c, _, _, h => atomOrUnknown_spec key key_ranges _ h
  | .identifier name, _, _, h => atomOrUnknown_spec key key_ranges _ h
  | .function func_name args, rpn, hwf, h => by
    simp only [Ast.all, Bool.and_eq_true] at hwf
    obtain ⟨hnode, hwfs⟩ := hwf
    have ih : ∀ a ∈ args, ∀ r, traverseAST key a = .ok r → PushesOne key_ranges r (Allows key key_ranges a) :=
      fun a ha r hr => traverseAST_spec key_ranges a (allList_mem hwfs ha) hr
    simp only [traverseAST] at h
    cases hop : operatorFromAST func_name args with
    | none =>
      rw [hop] at h
      exact atomOrUnknown_spec key key_ranges _ h
    | some op =>
      rw [hop] at h
      rcases operatorFromAST_eq_some hop with ⟨rfl, hlen, rfl⟩ | ⟨hname, rfl⟩ | ⟨rfl, rfl⟩
      · -- `not` of one argument
        obtain ⟨a, rfl⟩ := List.length_eq_one_iff.mp hlen
        exact traverseArgs_not key key_ranges (ih a (List.mem_singleton_self a)) h
      · -- `and` and `indexHint` of one argument or more
        obtain ⟨a, rest, rfl⟩ := List.exists_cons_of_ne_nil (args_ne_nil hnode hop)
        have hfirst := traverseArgs_first key key_ranges (by decide) (and_step key_ranges) and_covers ih h
        intro rpn_stack
        obtain ⟨m, hm, hcov⟩ := hfirst rpn_stack
        refine ⟨m, hm, fun hd hz t other hbox => ?_⟩
        have hval : (Ast.function func_name (a :: rest)).eval key t other =
            (Ast.evalList key t other rest).foldl (· && ·) (a.eval key t other) := by
          have hnot : func_name ≠ "not" := by rcases hname with rfl | rfl <;> decide
          rw [Ast.eval, if_neg hnot, if_pos hname, foldl_and_eq]
          simp [Ast.evalList]
        rw [hval]
        simp only [Ast.all, Bool.and_eq_true] at hz
        exact hcov hd hz.2 t other hbox
      · -- `or` of one argument or more
        obtain ⟨a, rest, rfl⟩ := List.exists_cons_of_ne_nil (args_ne_nil hnode hop)
        have hfirst := traverseArgs_first key key_ranges (by decide) (or_step key_ranges) or_covers ih h
        intro rpn_stack
        obtain ⟨m, hm, hcov⟩ := hfirst rpn_stack
        refine ⟨m, hm, fun hd hz t other hbox => ?_⟩
        have hval : (Ast.function "or" (a :: rest)).eval key t other =
            (Ast.evalList key t other rest).foldl (· || ·) (a.eval key t other) := by
          rw [Ast.eval, if_neg (by decide), if_neg (by decide), if_pos rfl, foldl_or_eq]
          simp [Ast.evalList]
        rw [hval]
        simp only [Ast.all, Bool.and_eq_true] at hz
        exact hcov hd hz.2 t other hbox
termination_by e => sizeOf e
decreasing_by
  have := List.sizeOf_lt_of_mem ‹_ ∈ args›
  simp only [Ast.function.sizeOf_spec]
  omega

end Operators

/-! ## Every tuple of the range lies in a box -/

section Cover

variable {V : Type} [LinearOrder V] [Inhabited V] (key : KeyInfo V)

/-- The box so far holds `t` in its first `p` columns and is whole from column `p` on. -/
def Prefixed (parallelogram : Nat → Range V) (t : Nat → V) (p : Nat) : Prop :=
  (∀ i < p, (parallelogram i).contains (t i) = true) ∧ ∀ i, p ≤ i → parallelogram i = Range.whole

theorem Prefixed.inBox {parallelogram : Nat → Range V} {t : Nat → V} {p : Nat} (h : Prefixed parallelogram t p) :
    InBox parallelogram t := by
  intro i
  by_cases hi : i < p
  · exact h.1 i hi
  · rw [h.2 i (Nat.le_of_not_lt hi)]
    exact Range.contains_whole _

/-- Column `p` set to a range that holds `t p`. -/
theorem Prefixed.update {parallelogram : Nat → Range V} {t : Nat → V} {p : Nat} (h : Prefixed parallelogram t p)
    {r : Range V} (hr : r.contains (t p) = true) : Prefixed (Function.update parallelogram p r) t (p + 1) := by
  constructor
  · intro i hi
    rcases Nat.lt_succ_iff_lt_or_eq.mp hi with hi | rfl
    · rw [Function.update_of_ne (Nat.ne_of_lt hi)]
      exact h.1 i hi
    · rw [Function.update_self]
      exact hr
  · intro i hi
    rw [Function.update_of_ne (by omega)]
    exact h.2 i (by omega)

/-- The box of a recursive call of `forAnyParallelogram`: the middle step's box with column
    `p` set again, to a range that holds `t p`. -/
theorem Prefixed.reset_update {parallelogram : Nat → Range V} {t : Nat → V} {p : Nat} (h : Prefixed parallelogram t p)
    (r : Range V) {r' : Range V} (hr : r'.contains (t p) = true) :
    Prefixed (Function.update (resetFrom (Function.update parallelogram p r) p) p r') t (p + 1) := by
  constructor
  · intro i hi
    rcases Nat.lt_succ_iff_lt_or_eq.mp hi with hi | rfl
    · rw [Function.update_of_ne (Nat.ne_of_lt hi), resetFrom, if_neg (by omega),
        Function.update_of_ne (Nat.ne_of_lt hi)]
      exact h.1 i hi
    · rw [Function.update_self]
      exact hr
  · intro i hi
    rw [Function.update_of_ne (by omega), resetFrom, if_pos (by omega)]

theorem inBox_reset {parallelogram : Nat → Range V} {t : Nat → V} {p : Nat} (h : Prefixed parallelogram t p)
    {r : Range V} (hr : r.contains (t p) = true) : InBox (resetFrom (Function.update parallelogram p r) p) t := by
  intro i
  unfold resetFrom
  split
  · exact Range.contains_whole _
  · next hi =>
    rcases Nat.lt_or_eq_of_le (Nat.le_of_not_lt hi) with hi | rfl
    · rw [Function.update_of_ne (Nat.ne_of_lt hi)]
      exact h.1 i hi
    · rw [Function.update_self]
      exact hr

/-- The leading columns where both ends agree: `t` agrees with them, and stays between the
    ends from the first column where they differ. -/
theorem matchPrefix_spec (key_left key_right t : Nat → V) :
    ∀ (fuel : Nat) (parallelogram : Nat → Range V) (p : Nat), Prefixed parallelogram t p →
      lexLe key_left t fuel p → lexLe t key_right fuel p →
      Prefixed (matchPrefix key_left key_right fuel parallelogram p).1 t (matchPrefix key_left key_right fuel parallelogram p).2 ∧
        p ≤ (matchPrefix key_left key_right fuel parallelogram p).2 ∧
        (matchPrefix key_left key_right fuel parallelogram p).2 ≤ p + fuel ∧
        lexLe key_left t (p + fuel - (matchPrefix key_left key_right fuel parallelogram p).2)
          (matchPrefix key_left key_right fuel parallelogram p).2 ∧
        lexLe t key_right (p + fuel - (matchPrefix key_left key_right fuel parallelogram p).2)
          (matchPrefix key_left key_right fuel parallelogram p).2 ∧
        ((matchPrefix key_left key_right fuel parallelogram p).2 < p + fuel →
          key_left (matchPrefix key_left key_right fuel parallelogram p).2 ≠
            key_right (matchPrefix key_left key_right fuel parallelogram p).2)
  | 0, parallelogram, p, hP, _, _ => by
    simp only [matchPrefix, Nat.add_zero, Nat.sub_self, Nat.le_refl, Nat.lt_irrefl, false_imp_iff, and_true, true_and]
    exact ⟨hP, trivial, trivial⟩
  | fuel + 1, parallelogram, p, hP, hl, hr => by
    unfold matchPrefix
    split
    · next heq =>
      -- both ends agree at `p`, so `t` does too
      have ht : t p = key_left p ∧ lexLe key_left t fuel (p + 1) ∧ lexLe t key_right fuel (p + 1) := by
        rcases hl with hl | ⟨hl, hl'⟩ <;> rcases hr with hr | ⟨hr, hr'⟩
        · exact absurd (hl.trans hr) (by rw [heq]; exact lt_irrefl _)
        · exact absurd hl (by rw [hr, heq]; exact lt_irrefl _)
        · exact absurd hr (by rw [← hl, heq]; exact lt_irrefl _)
        · exact ⟨hl.symm, hl', hr'⟩
      obtain ⟨htp, hl', hr'⟩ := ht
      have hpoint : (Range.point (key_left p)).contains (t p) = true := by
        simp [Range.contains_point, htp]
      obtain ⟨hP', hle, hge, hl'', hr'', hne⟩ :=
        matchPrefix_spec key_left key_right t fuel _ (p + 1) (hP.update hpoint) hl' hr'
      have e : p + 1 + fuel = p + (fuel + 1) := by omega
      rw [e] at hl'' hr'' hne hge
      exact ⟨hP', by omega, hge, hl'', hr'', hne⟩
    · next hne =>
      have e : p + (fuel + 1) - p = fuel + 1 := by omega
      simp only [e]
      exact ⟨hP, Nat.le_refl _, by omega, hl, hr, fun _ => hne⟩

theorem matched_spec (key_size : Nat) (key_left key_right t : Nat → V) (left_bounded right_bounded : Bool)
    {parallelogram start : Nat → Range V} {p first : Nat}
    (hm : matched key_size key_left key_right left_bounded right_bounded parallelogram p = (start, first))
    (hP : Prefixed parallelogram t p) (hl : left_bounded = true → lexLe key_left t (key_size - p) p)
    (hr : right_bounded = true → lexLe t key_right (key_size - p) p) :
    Prefixed start t first ∧ (left_bounded = true → lexLe key_left t (key_size - first) first) ∧
      (right_bounded = true → lexLe t key_right (key_size - first) first) ∧
      (left_bounded = true → right_bounded = true → first < key_size → key_left first ≠ key_right first) := by
  unfold matched at hm
  split at hm
  · next hb =>
    simp only [Bool.and_eq_true] at hb
    obtain ⟨hlb, hrb⟩ := hb
    obtain ⟨hP', hle, hge, hl', hr', hne⟩ :=
      matchPrefix_spec key_left key_right t (key_size - p) parallelogram p hP (hl hlb) (hr hrb)
    rw [hm] at hP' hle hge hl' hr' hne
    -- `p + (key_size - p)` is `key_size` unless `p` is past it, where both sides count nothing
    have e : p + (key_size - p) - first = key_size - first := by omega
    rw [e] at hl' hr'
    exact ⟨hP', fun _ => hl', fun _ => hr', fun _ _ hlt => hne (by omega)⟩
  · next hb =>
    cases hm
    refine ⟨hP, hl, hr, fun hlb hrb => absurd (by simp [hlb, hrb]) hb⟩

omit [LinearOrder V] [Inhabited V] in
/-- The last step of `forAnyParallelogram` answers `false` only when its callback and both
    searches after it do. -/
theorem search_eq_false {ε : Type} {x y z : Except ε Bool} {left_bounded right_bounded : Bool}
    (h : (x >>= fun found => if found = true then pure true else
      ((if left_bounded = true then y else pure false) >>= fun found => if found = true then pure true else
        if right_bounded = true then z else pure false)) = .ok false) :
    x = .ok false ∧ (left_bounded = true → y = .ok false) ∧ (right_bounded = true → z = .ok false) := by
  obtain ⟨a, hx, ha⟩ := bind_eq_ok.mp h
  cases a with
  | true => cases ha
  | false =>
    simp only [Bool.false_eq_true, if_false] at ha
    obtain ⟨b, hy, hb⟩ := bind_eq_ok.mp ha
    cases b with
    | true => cases hb
    | false =>
      simp only [Bool.false_eq_true, if_false] at hb
      refine ⟨hx, fun hl => ?_, fun hr => ?_⟩
      · rw [if_pos hl] at hy
        exact hy
      · rw [if_pos hr] at hb
        exact hb

theorem lastRange_contains (hd : Range.Discrete key.next key.prev) {key_left key_right t : Nat → V}
    {left_bounded right_bounded : Bool} {first : Nat} (whole : Range V) (hb : ¬ (!left_bounded && !right_bounded) = true)
    (hl : left_bounded = true → lexLe key_left t 1 first) (hr : right_bounded = true → lexLe t key_right 1 first) :
    (lastRange key key_left key_right left_bounded right_bounded first whole).contains (t first) = true := by
  simp only [lexLe, and_true] at hl hr
  unfold lastRange
  cases left_bounded <;> cases right_bounded
  · simp at hb
  · simpa [Range.contains_createRightBounded hd] using hr rfl
  · simpa [Range.contains_createLeftBounded hd] using (hl rfl).imp_right Eq.symm
  · simpa [Range.contains_bounded hd] using And.intro ((hl rfl).imp_right Eq.symm) (hr rfl)

theorem middleRange_contains (hd : Range.Discrete key.next key.prev) {key_left key_right t : Nat → V}
    {left_bounded right_bounded : Bool} {first : Nat} (whole : Range V) (hb : ¬ (!left_bounded && !right_bounded) = true)
    (hl : left_bounded = true → key_left first < t first) (hr : right_bounded = true → t first < key_right first) :
    (middleRange key key_left key_right left_bounded right_bounded first whole).contains (t first) = true := by
  unfold middleRange
  cases left_bounded <;> cases right_bounded
  · simp at hb
  · simpa [Range.contains_createRightBounded hd] using hr rfl
  · simpa [Range.contains_createLeftBounded hd] using hl rfl
  · simpa [Range.contains_bounded hd] using And.intro (hl rfl) (hr rfl)

/-- Every tuple between the two ends lies in a box that `forAnyParallelogram` passes to its
    callback, unless the callback answered `true` on some box first. By induction along the
    recursion: the tuple leaves the common prefix either strictly between the ends, in the
    middle box, or on one end, in the search that starts there. -/
theorem forAnyParallelogram_cover (hd : Range.Discrete key.next key.prev) (key_size : Nat) (key_left key_right t : Nat → V)
    (callback : (Nat → Range V) → Except String Bool) (left_bounded right_bounded : Bool)
    (parallelogram : Nat → Range V) (p : Nat)
    (h : forAnyParallelogram key key_size key_left key_right callback left_bounded right_bounded parallelogram p = .ok false)
    (hP : Prefixed parallelogram t p) (hl : left_bounded = true → lexLe key_left t (key_size - p) p)
    (hr : right_bounded = true → lexLe t key_right (key_size - p) p) :
    ∃ box, InBox box t ∧ callback box = .ok false := by
  fun_induction forAnyParallelogram key key_size key_left key_right callback left_bounded right_bounded parallelogram p
  case case1 parallelogram _ _ =>
    exact ⟨parallelogram, hP.inBox, h⟩
  case case2 left_bounded right_bounded parallelogram p _ start first hm _ =>
    obtain ⟨hP', -, -, -⟩ := matched_spec key_size key_left key_right t left_bounded right_bounded hm hP hl hr
    exact ⟨start, hP'.inBox, h⟩
  case case3 left_bounded right_bounded parallelogram p hb start first hm _ hlast =>
    obtain ⟨hP', hl', hr', -⟩ := matched_spec key_size key_left key_right t left_bounded right_bounded hm hP hl hr
    have hk : key_size - first = 1 := by omega
    rw [hk] at hl' hr'
    exact ⟨_, (hP'.update (lastRange_contains key hd _ hb hl' hr')).inBox, h⟩
  case case4 left_bounded right_bounded parallelogram p hb start first hm hlt hnlast box ih2 ih1 =>
    obtain ⟨hP', hl', hr', -⟩ := matched_spec key_size key_left key_right t left_bounded right_bounded hm hP hl hr
    obtain ⟨hcb, hrec1, hrec2⟩ := search_eq_false h
    have hk : key_size - first = key_size - (first + 1) + 1 := by omega
    rw [hk] at hl' hr'
    by_cases hin : (left_bounded = true → key_left first < t first) ∧ (right_bounded = true → t first < key_right first)
    · -- strictly between the ends: the middle box
      exact ⟨box, inBox_reset hP' (middleRange_contains key hd _ hb hin.1 hin.2), hcb⟩
    · simp only [not_and_or, Classical.not_imp] at hin
      rcases hin with ⟨hlb, hnlt⟩ | ⟨hrb, hnlt⟩
      · -- on the left end: the search with the left end only
        rcases hl' hlb with hlt' | ⟨heq, hrest⟩
        · exact absurd hlt' hnlt
        · exact ih2 (hrec1 hlb) (hP'.reset_update _ (by simp [Range.contains_point, heq]))
            (fun _ => hrest) (fun h => absurd h (by decide))
      · -- on the right end: the search with the right end only
        rcases hr' hrb with hlt' | ⟨heq, hrest⟩
        · exact absurd hlt' hnlt
        · exact ih1 (hrec2 hrb) (hP'.reset_update _ (by simp [Range.contains_point, heq]))
            (fun h => absurd h (by decide)) (fun _ => hrest)

omit [LinearOrder V] [Inhabited V] in
theorem search_of_false {ε : Type} {x y z : Except ε Bool} {left_bounded right_bounded : Bool} (hx : x = .ok false)
    (hy : left_bounded = true → y = .ok false) (hz : right_bounded = true → z = .ok false) :
    (x >>= fun found => if found = true then pure true else
      ((if left_bounded = true then y else pure false) >>= fun found => if found = true then pure true else
        if right_bounded = true then z else pure false)) = .ok false := by
  have hy' : (if left_bounded = true then y else pure false) = .ok false := by
    cases left_bounded
    · rfl
    · exact hy rfl
  have hz' : (if right_bounded = true then z else pure false) = .ok false := by
    cases right_bounded
    · rfl
    · exact hz rfl
  rw [hx, ok_bind, if_neg Bool.false_ne_true, hy', ok_bind, if_neg Bool.false_ne_true, hz']

/-- A callback that rules out every box rules out the whole range. -/
theorem forAnyParallelogram_of_false (key_size : Nat) (key_left key_right : Nat → V)
    {callback : (Nat → Range V) → Except String Bool} (hcb : ∀ box, callback box = .ok false)
    (left_bounded right_bounded : Bool) (parallelogram : Nat → Range V) (p : Nat) :
    forAnyParallelogram key key_size key_left key_right callback left_bounded right_bounded parallelogram p = .ok false := by
  fun_induction forAnyParallelogram key key_size key_left key_right callback left_bounded right_bounded parallelogram p
  case case1 => exact hcb _
  case case2 => exact hcb _
  case case3 => exact hcb _
  case case4 ih2 ih1 => exact search_of_false (hcb _) (fun _ => ih2) (fun _ => ih1)

end Cover

/-! ## Soundness of the analysis, and `-0.` -/

section Soundness

variable {V : Type} [LinearOrder V] [Inhabited V] (key : KeyInfo V)

/-- The RPN of a query's condition pushes one mask, which over a box allows the condition's
    value at every tuple of the box. -/
theorem build_spec (key_ranges : Nat → Range V) {where_expression prewhere_expression : Option Ast}
    (hw : where_expression.all (Ast.all wellFormedNode) = true) (hp : prewhere_expression.all (Ast.all wellFormedNode) = true)
    {rpn : List (RPNElement V)} (h : build key where_expression prewhere_expression = .ok rpn) :
    PushesOne key_ranges rpn (fun m => Range.Discrete key.next key.prev →
      where_expression.all (Ast.all notNegativeZero) = true → prewhere_expression.all (Ast.all notNegativeZero) = true →
      ∀ t other, InBox key_ranges t → m.Covers (condition key t other where_expression prewhere_expression)) := by
  cases where_expression with
  | none =>
    cases prewhere_expression with
    | none =>
      cases h
      exact pushesOne_single fun rpn_stack => ⟨⟨true, true⟩, rfl, fun _ _ _ _ _ _ => BoolMask.covers_unknown _⟩
    | some p =>
      intro rpn_stack
      obtain ⟨m, hm, hallow⟩ := traverseAST_spec key key_ranges p (by simpa using hp) h rpn_stack
      exact ⟨m, hm, fun hd _ hz t other hbox => by simpa [condition] using hallow hd (by simpa using hz) t other hbox⟩
  | some w =>
    cases prewhere_expression with
    | none =>
      intro rpn_stack
      obtain ⟨m, hm, hallow⟩ := traverseAST_spec key key_ranges w (by simpa using hw) h rpn_stack
      exact ⟨m, hm, fun hd hz _ t other hbox => by simpa [condition] using hallow hd (by simpa using hz) t other hbox⟩
    | some p =>
      simp only [build, bind_eq_ok, pure_eq_ok, Except.ok.injEq] at h
      obtain ⟨rw, hrw, rp, hrp, rfl⟩ := h
      intro rpn_stack
      obtain ⟨mw, hmw, hallow_w⟩ := traverseAST_spec key key_ranges w (by simpa using hw) hrw rpn_stack
      obtain ⟨mp, hmp, hallow_p⟩ := traverseAST_spec key key_ranges p (by simpa using hp) hrp (mw :: rpn_stack)
      refine ⟨mp.and mw, ?_, ?_⟩
      · rw [evalRPN_append, evalRPN_append, hmw, ok_bind, hmp, ok_bind]
        rfl
      · intro hd hzw hzp t other hbox
        have hcov := and_covers mp mw _ _ (hallow_p hd (by simpa using hzp) t other hbox)
          (hallow_w hd (by simpa using hzw) t other hbox)
        simpa [condition] using hcov

omit [Inhabited V] in
theorem mayBeTrueInRangeImpl_of_pushesOne {key_ranges : Nat → Range V} {rpn : List (RPNElement V)}
    {P : BoolMask → Prop} (h : PushesOne key_ranges rpn P) :
    ∃ m, P m ∧ mayBeTrueInRangeImpl rpn key_ranges = .ok m.can_be_true := by
  obtain ⟨m, hm, hP⟩ := h []
  exact ⟨m, hP, by simp [mayBeTrueInRangeImpl, hm]⟩

omit [LinearOrder V] in
/-- `NOT -0.` becomes `ALWAYS_TRUE` followed by `NOT`: the bits of `-0.` are not zero. -/
theorem traverseAST_not_negativeZero :
    traverseAST key (.function "not" [.literal Field.negativeZero]) =
      .ok [.ofFunction .ALWAYS_TRUE, .ofFunction .FUNCTION_NOT] := rfl

/-- `WHERE NOT -0. AND e`. The constant `-0.` is zero, so the condition holds wherever `e`
    does; but its bits are not, so `atomFromAST` makes it `ALWAYS_TRUE`, `NOT` makes that
    "never", and `mayBeTrueInRange` rules out every range, whatever the key and the ends. -/
theorem where_not_negative_zero_rules_out_every_range {e : Ast} (hwf : e.all wellFormedNode = true)
    {rpn_e : List (RPNElement V)} (he : traverseAST key e = .ok rpn_e) :
    (∀ t other, (Ast.function "and" [.function "not" [.literal Field.negativeZero], e]).eval key t other =
      e.eval key t other) ∧
    ∃ rpn, build key (some (.function "and" [.function "not" [.literal Field.negativeZero], e])) none = .ok rpn ∧
      ∀ used_key_size left_pk right_pk right_bounded,
        mayBeTrueInRange key rpn used_key_size left_pk right_pk right_bounded = .ok false := by
  refine ⟨fun t other => ?_, [.ofFunction .ALWAYS_TRUE, .ofFunction .FUNCTION_NOT] ++ [] ++
    (rpn_e ++ [.ofFunction .FUNCTION_AND] ++ []), ?_, ?_⟩
  · -- `-0.` is false, so `NOT -0.` is true
    have hnot : (Ast.function "not" [.literal Field.negativeZero]).eval key t other = true := by
      rw [Ast.eval, if_pos rfl]
      simp [Ast.evalList, Ast.eval, Field.negativeZero_bits.1]
    rw [Ast.eval, if_neg (by decide), if_pos (Or.inl rfl)]
    simp [Ast.evalList, hnot]
  · show traverseAST key _ = _
    rw [traverseAST, show operatorFromAST "and" _ = some .FUNCTION_AND from rfl]
    simp only [traverseArgs, traverseAST_not_negativeZero, he, ok_bind, pure_eq_ok]
    rfl
  · intro used_key_size left_pk right_pk right_bounded
    apply forAnyParallelogram_of_false
    intro box
    -- on every box: `ALWAYS_TRUE`, `NOT` leave "never", and `AND` keeps it
    obtain ⟨me, hme, -⟩ := traverseAST_spec key box e hwf he [⟨false, true⟩]
    have hnever : evalRPN box [.ofFunction .ALWAYS_TRUE, .ofFunction .FUNCTION_NOT] [] = .ok [⟨false, true⟩] := rfl
    rw [mayBeTrueInRangeImpl, List.append_nil, List.append_nil, evalRPN_append, hnever, ok_bind, evalRPN_append, hme,
      ok_bind]
    simp [evalRPN, stepRPN, RPNElement.ofFunction, BoolMask.and]

end Soundness

/-- A key of one `UInt64` column `k`, its values as `Nat`; constants of other types are left
    out. -/
def uint64Key : KeyInfo Nat where
  sort_descr := ["k"]
  toKey c := match c with
    | .uint64 v => some v.toNat
    | _ => none
  next v := if v + 1 < 2 ^ 64 then some (v + 1) else none
  prev v := if v = 0 then none else some (v - 1)

/-- `WHERE NOT -0. AND k > 5` over the key `k`. -/
theorem where_not_negative_zero_key_greater_five :
    (Ast.function "greater" [.identifier "k", .literal (.uint64 5)]).all wellFormedNode = true ∧
    traverseAST uint64Key (.function "greater" [.identifier "k", .literal (.uint64 5)]) =
      .ok [⟨.FUNCTION_IN_RANGE, ⟨6, 0, true, false, true, false⟩, 0⟩] ∧
    (∀ t other, (Ast.function "and" [.function "not" [.literal Field.negativeZero],
        .function "greater" [.identifier "k", .literal (.uint64 5)]]).eval uint64Key t other = decide (5 < t 0)) ∧
    ∃ rpn, build uint64Key (some (.function "and" [.function "not" [.literal Field.negativeZero],
        .function "greater" [.identifier "k", .literal (.uint64 5)]])) none = .ok rpn ∧
      ∀ used_key_size left_pk right_pk right_bounded,
        mayBeTrueInRange uint64Key rpn used_key_size left_pk right_pk right_bounded = .ok false := by
  have hwf : (Ast.function "greater" [.identifier "k", .literal (.uint64 5)]).all wellFormedNode = true := by decide
  have he : traverseAST uint64Key (.function "greater" [.identifier "k", .literal (.uint64 5)]) =
      .ok [⟨.FUNCTION_IN_RANGE, ⟨6, 0, true, false, true, false⟩, 0⟩] := by decide
  obtain ⟨heval, hrange⟩ := where_not_negative_zero_rules_out_every_range uint64Key hwf he
  refine ⟨hwf, he, fun t other => ?_, hrange⟩
  rw [heval]
  rfl

/-- The index is used for this condition: it is not `alwaysUnknownOrTrue`. -/
example : (build uint64Key (some (.function "and" [.function "not" [.literal Field.negativeZero],
    .function "greater" [.identifier "k", .literal (.uint64 5)]])) none >>= alwaysUnknownOrTrue) = .ok false := by
  decide

/-- `uint64Key`'s successor and predecessor are those of `UInt64`. -/
theorem uint64Key_discrete : Range.Discrete uint64Key.next uint64Key.prev := by
  refine ⟨fun v w h x => ?_, fun v w h x => ?_⟩
  · simp only [uint64Key] at h
    split at h
    · cases h
      omega
    · cases h
  · simp only [uint64Key] at h
    split at h
    · cases h
    · cases h
      omega

end ClickHouseGpu.MergeTree.PKConditionSoundness
