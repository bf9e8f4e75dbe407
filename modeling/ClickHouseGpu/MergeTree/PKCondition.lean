import ClickHouseGpu.MergeTree.KeyRange
import ClickHouseGpu.Lib.Checked
import Mathlib.Logic.Function.Basic

/-
  ClickHouseGpu.MergeTree.PKCondition — the primary-key analysis of a `WHERE` / `PREWHERE`
  (dbms/src/Storages/MergeTree/PKCondition.cpp).

  The constructor translates the condition to reverse Polish notation (`traverseAST`):
  `and`, `or`, `indexHint` and a one-argument `not` become operators, a comparison between a
  key column and a constant becomes a range of that column (`atomFromAST` with `atom_map`),
  a numeric constant becomes `ALWAYS_TRUE` or `ALWAYS_FALSE` by its bits (`get<UInt64>()`),
  and everything else is `FUNCTION_UNKNOWN`. `mayBeTrueInRange` cuts the lexicographic range
  of key tuples into boxes (`forAnyParallelogram`) and runs the RPN over each box with the
  `BoolMask` algebra (`mayBeTrueInRangeImpl`); `alwaysUnknownOrTrue` runs it with every atom
  false.

  A constant's `Field` becomes a key value by `KeyInfo.toKey` (the field itself for numbers,
  which compare accurately, `convertFieldToType` otherwise, `none` where that throws). A
  `Float64` constant is kept as its bits, which is what the constant branch of `atomFromAST`
  reads. Key columns wrapped in monotonic functions, key columns that are expressions,
  `in` / `notIn` over prepared sets and `like` are left out: the model translates them as
  `FUNCTION_UNKNOWN`. Sub-expressions of constants alone reach the analysis as literals, as
  `block_with_constants` folds them.

  What a condition says of a row is `Ast.eval`, at the row's key columns `t`, with `other`
  for the sub-expressions the analysis does not read.

  Proved:
  - `Field.truth_eq_bits`: outside `-0.`, a numeric constant's bits are zero iff its value is.
  - `le_matched`: the matched prefix only grows, which bounds the recursion of
    `forAnyParallelogram`.
-/

namespace ClickHouseGpu.MergeTree.PKCondition

open Checked ClickHouseGpu.MergeTree.KeyRange

/-! ## Fields and expressions -/

/-- A constant's `Field`; a `Float64` is kept as its 64 bits. -/
inductive Field where
  | null
  | uint64 (v : UInt64)
  | int64 (v : Int64)
  | float64 (bits : UInt64)
  | string (s : String)
  deriving DecidableEq, Repr

namespace Field

/-- `get<UInt64>()`: the 64 bits of the value as stored, whatever its type. -/
def bits : Field → UInt64
  | uint64 v => v
  | int64 v => v.toUInt64
  | float64 b => b
  | _ => 0

def isNumber : Field → Bool
  | uint64 _ | int64 _ | float64 _ => true
  | _ => false

/-- A numeric constant as a condition: true iff it is not zero. A `Float64` is zero when every
    bit but the sign is. -/
def truth : Field → Option Bool
  | uint64 v => some (decide (v ≠ 0))
  | int64 v => some (decide (v ≠ 0))
  | float64 b => some (decide (b &&& 0x7FFFFFFFFFFFFFFF ≠ 0))
  | _ => none

/-- `-0.`: the sign bit alone. -/
def negativeZero : Field := float64 0x8000000000000000

end Field

/-- The part of the query's syntax tree the analysis reads. -/
inductive Ast where
  | literal (value : Field)
  | identifier (name : String)
  | function (name : String) (arguments : List Ast)
  deriving Repr

/-- What the analysis is given about the primary key. -/
structure KeyInfo (V : Type) where
  /-- The key columns' names, `sort_descr[i].column_name`. -/
  sort_descr : List String
  /-- The constant as a value of the key column's type; `none` where the cast throws. -/
  toKey : Field → Option V
  /-- `++left` in `shrinkToIncludedIfPossible`; `none` where the type is not an integer or the
      value is the type's maximum. -/
  next : V → Option V
  /-- `--right`, likewise. -/
  prev : V → Option V

/-- `pk_columns`: a name's first position in `sort_descr`. -/
def KeyInfo.pk_columns {V : Type} (key : KeyInfo V) (name : String) : Option Nat :=
  key.sort_descr.idxOf? name

/-! ## The condition in reverse Polish notation -/

inductive RPNFunction where
  | FUNCTION_IN_RANGE
  | FUNCTION_NOT_IN_RANGE
  | FUNCTION_UNKNOWN
  | FUNCTION_NOT
  | FUNCTION_AND
  | FUNCTION_OR
  | ALWAYS_FALSE
  | ALWAYS_TRUE
  deriving DecidableEq, Repr

structure RPNElement (V : Type) where
  function : RPNFunction
  range : Range V
  key_column : Nat
  deriving DecidableEq, Repr

section Translation

variable {V : Type} [LinearOrder V] [Inhabited V] (key : KeyInfo V)

/-- `RPNElement(function)`: an element with the default range and column. -/
def RPNElement.ofFunction (function : RPNFunction) : RPNElement V := ⟨function, Range.whole, 0⟩

/-- `getConstant`: the value of a literal. Sub-expressions of constants alone reach the
    analysis folded into literals (`block_with_constants`). -/
def getConstant : Ast → Option Field
  | .literal v => some v
  | _ => none

/-- `isPrimaryKeyPossiblyWrappedByMonotonicFunctions` for a bare key column. -/
def keyColumn : Ast → Option Nat
  | .identifier name => key.pk_columns name
  | _ => none

def operatorFromAST (name : String) (args : List Ast) : Option RPNFunction :=
  if name = "not" then
    if args.length = 1 then some .FUNCTION_NOT else none
  else if name = "and" ∨ name = "indexHint" then some .FUNCTION_AND
  else if name = "or" then some .FUNCTION_OR
  else none

/-- `<const> <sign> <data>` read as `<data> <-sign> <const>`; `none` for `in`, `notIn` and
    `like`, where a constant on the left makes no atom. -/
def swapComparison (func_name : String) : Option String :=
  if func_name = "less" then some "greater"
  else if func_name = "greater" then some "less"
  else if func_name = "greaterOrEquals" then some "lessOrEquals"
  else if func_name = "lessOrEquals" then some "greaterOrEquals"
  else if func_name = "in" ∨ func_name = "notIn" ∨ func_name = "like" then none
  else some func_name

/-- `atom_map`, for the six comparisons. -/
def atom_map (func_name : String) : Option (V → RPNFunction × Range V) :=
  if func_name = "notEquals" then some fun v => (.FUNCTION_NOT_IN_RANGE, Range.point v)
  else if func_name = "equals" then some fun v => (.FUNCTION_IN_RANGE, Range.point v)
  else if func_name = "less" then some fun v => (.FUNCTION_IN_RANGE, Range.createRightBounded key.next key.prev v false)
  else if func_name = "greater" then some fun v => (.FUNCTION_IN_RANGE, Range.createLeftBounded key.next key.prev v false)
  else if func_name = "lessOrEquals" then
    some fun v => (.FUNCTION_IN_RANGE, Range.createRightBounded key.next key.prev v true)
  else if func_name = "greaterOrEquals" then
    some fun v => (.FUNCTION_IN_RANGE, Range.createLeftBounded key.next key.prev v true)
  else none

/-- Which argument of a two-argument function is the constant and which the key column: the
    constant on the right is tried first. The flag says the key is on the right. -/
def keyAndConstant (a0 a1 : Ast) : Option (Field × Nat × Bool) :=
  match getConstant a1, keyColumn key a0 with
  | some c, some k => some (c, k, false)
  | _, _ =>
    match getConstant a0, keyColumn key a1 with
    | some c, some k => some (c, k, true)
    | _, _ => none

/-- The comparison a two-argument function makes of its key column, with the constant on the
    right: the function's name, swapped when the key is on the right. -/
def comparisonName (func_name : String) (swapped : Bool) : Option String :=
  if swapped then swapComparison func_name else some func_name

def atomFromAST : Ast → Except String (Option (RPNElement V))
  | .function func_name [a0, a1] =>
    match keyAndConstant key a0 a1 with
    | none => pure none
    | some (const_value, key_column, swapped) =>
      match comparisonName func_name swapped with
      | none => pure none
      | some func_name =>
        match atom_map key func_name with
        | none => pure none
        | some atom =>
          match key.toKey const_value with
          | none => throw "Primary key expression contains comparison between inconvertible types"
          | some value => pure (some ⟨(atom value).1, (atom value).2, key_column⟩)
  | .function _ _ => pure none
  | node =>
    match getConstant node with
    | some const_value =>
      if const_value.isNumber then
        -- "Zero in all types is represented in memory the same way as in UInt64."
        pure (some (.ofFunction (if const_value.bits ≠ 0 then .ALWAYS_TRUE else .ALWAYS_FALSE)))
      else pure none
    | none => pure none

/-- An atom, or `FUNCTION_UNKNOWN` where the node makes none. -/
def atomOrUnknown (node : Ast) : Except String (List (RPNElement V)) := do
  match ← atomFromAST key node with
  | some element => pure [element]
  | none => pure [.ofFunction .FUNCTION_UNKNOWN]

/-- The operator goes after every argument but the first, and after the argument of `not`. -/
def operatorAfter (op : RPNFunction) (i : Nat) : List (RPNElement V) :=
  if i ≠ 0 ∨ op = .FUNCTION_NOT then [.ofFunction op] else []

mutual

def traverseAST : Ast → Except String (List (RPNElement V))
  | .function name args =>
    match operatorFromAST name args with
    | some op => traverseArgs op 0 args
    | none => atomOrUnknown key (.function name args)
  | node => atomOrUnknown key node

def traverseArgs (op : RPNFunction) : Nat → List Ast → Except String (List (RPNElement V))
  | _, [] => pure []
  | i, a :: rest => do
    let ra ← traverseAST a
    let rrest ← traverseArgs op (i + 1) rest
    pure (ra ++ operatorAfter op i ++ rrest)

end

/-- The constructor's `rpn`: the `WHERE` and the `PREWHERE` joined by `AND`. -/
def build (where_expression prewhere_expression : Option Ast) : Except String (List (RPNElement V)) :=
  match where_expression, prewhere_expression with
  | some w, some p => do
    let rw ← traverseAST key w
    let rp ← traverseAST key p
    pure (rw ++ rp ++ [.ofFunction .FUNCTION_AND])
  | some w, none => traverseAST key w
  | none, some p => traverseAST key p
  | none, none => pure [.ofFunction .FUNCTION_UNKNOWN]

end Translation

/-! ## Evaluation over a box -/

section Evaluation

variable {V : Type} [LinearOrder V] [Inhabited V]

/-- The mask of a range atom over the box's range of its column. -/
def rangeMask (element_range key_range : Range V) : BoolMask :=
  ⟨element_range.intersectsRange key_range, !element_range.containsRange key_range⟩

/-- One element of `mayBeTrueInRangeImpl`'s loop. An operator on a stack too short for it is
    undefined behaviour in the source (`back()` of an empty vector). -/
def stepRPN (key_ranges : Nat → Range V) (rpn_stack : List BoolMask) (element : RPNElement V) :
    Except String (List BoolMask) :=
  match element.function, rpn_stack with
  | .FUNCTION_UNKNOWN, s => pure (⟨true, true⟩ :: s)
  | .FUNCTION_IN_RANGE, s => pure (rangeMask element.range (key_ranges element.key_column) :: s)
  | .FUNCTION_NOT_IN_RANGE, s => pure ((rangeMask element.range (key_ranges element.key_column)).not :: s)
  | .FUNCTION_NOT, m :: s => pure (m.not :: s)
  | .FUNCTION_AND, arg1 :: arg2 :: s => pure (arg1.and arg2 :: s)
  | .FUNCTION_OR, arg1 :: arg2 :: s => pure (arg1.or arg2 :: s)
  | .ALWAYS_FALSE, s => pure (⟨false, true⟩ :: s)
  | .ALWAYS_TRUE, s => pure (⟨true, false⟩ :: s)
  | _, _ => throw "empty rpn_stack"

def evalRPN (key_ranges : Nat → Range V) : List (RPNElement V) → List BoolMask → Except String (List BoolMask)
  | [], rpn_stack => pure rpn_stack
  | element :: rest, rpn_stack => do
    let rpn_stack ← stepRPN key_ranges rpn_stack element
    evalRPN key_ranges rest rpn_stack

def mayBeTrueInRangeImpl (rpn : List (RPNElement V)) (key_ranges : Nat → Range V) : Except String Bool := do
  match ← evalRPN key_ranges rpn [] with
  | [m] => pure m.can_be_true
  | _ => throw "Unexpected stack size in PKCondition::mayBeTrueInRange"

/-- `alwaysUnknownOrTrue`: the RPN run with `NOT` ignored, every atom false and every unknown
    true. -/
def stepAlways (rpn_stack : List Bool) (element : RPNElement V) : Except String (List Bool) :=
  match element.function, rpn_stack with
  | .FUNCTION_UNKNOWN, s | .ALWAYS_TRUE, s => pure (true :: s)
  | .FUNCTION_IN_RANGE, s | .FUNCTION_NOT_IN_RANGE, s | .ALWAYS_FALSE, s => pure (false :: s)
  | .FUNCTION_NOT, s => pure s
  | .FUNCTION_AND, arg1 :: arg2 :: s => pure ((arg1 && arg2) :: s)
  | .FUNCTION_OR, arg1 :: arg2 :: s => pure ((arg1 || arg2) :: s)
  | _, _ => throw "empty rpn_stack"

def alwaysUnknownOrTrue (rpn : List (RPNElement V)) : Except String Bool := do
  match ← rpn.foldlM stepAlways [] with
  | b :: _ => pure b
  | [] => throw "empty rpn_stack"

end Evaluation

/-! ## Boxes of a lexicographic range -/

section Parallelograms

variable {V : Type} [LinearOrder V] [Inhabited V] (key : KeyInfo V)

/-- The `while` loop of `forAnyParallelogram`: the leading columns where both ends agree become
    points. `fuel` is `key_size - prefix_size`. -/
def matchPrefix (key_left key_right : Nat → V) :
    Nat → (Nat → Range V) → Nat → (Nat → Range V) × Nat
  | 0, parallelogram, prefix_size => (parallelogram, prefix_size)
  | fuel + 1, parallelogram, prefix_size =>
    if key_left prefix_size = key_right prefix_size then
      matchPrefix key_left key_right fuel
        (Function.update parallelogram prefix_size (Range.point (key_left prefix_size))) (prefix_size + 1)
    else (parallelogram, prefix_size)

/-- The range of column `prefix_size` in the last box, when it is the last column. -/
def lastRange (key_left key_right : Nat → V) (left_bounded right_bounded : Bool) (prefix_size : Nat)
    (whole : Range V) : Range V :=
  if left_bounded && right_bounded then
    Range.bounded key.next key.prev (key_left prefix_size) true (key_right prefix_size) true
  else if left_bounded then Range.createLeftBounded key.next key.prev (key_left prefix_size) true
  else if right_bounded then Range.createRightBounded key.next key.prev (key_right prefix_size) true
  else whole

/-- The range of column `prefix_size` strictly between the two ends. -/
def middleRange (key_left key_right : Nat → V) (left_bounded right_bounded : Bool) (prefix_size : Nat)
    (whole : Range V) : Range V :=
  if left_bounded && right_bounded then
    Range.bounded key.next key.prev (key_left prefix_size) false (key_right prefix_size) false
  else if left_bounded then Range.createLeftBounded key.next key.prev (key_left prefix_size) false
  else if right_bounded then Range.createRightBounded key.next key.prev (key_right prefix_size) false
  else whole

/-- Columns `prefix_size + 1 ..` unbounded. -/
def resetFrom (parallelogram : Nat → Range V) (prefix_size : Nat) : Nat → Range V :=
  fun i => if prefix_size < i then Range.whole else parallelogram i

/-- The columns where both ends agree, when both are bounded. -/
def matched (key_size : Nat) (key_left key_right : Nat → V) (left_bounded right_bounded : Bool)
    (parallelogram : Nat → Range V) (prefix_size : Nat) : (Nat → Range V) × Nat :=
  if left_bounded && right_bounded then
    matchPrefix key_left key_right (key_size - prefix_size) parallelogram prefix_size
  else (parallelogram, prefix_size)

omit [Inhabited V] in
theorem le_matchPrefix (key_left key_right : Nat → V) :
    ∀ (fuel : Nat) (parallelogram : Nat → Range V) (prefix_size : Nat),
      prefix_size ≤ (matchPrefix key_left key_right fuel parallelogram prefix_size).2
  | 0, _, _ => Nat.le_refl _
  | fuel + 1, parallelogram, prefix_size => by
    unfold matchPrefix
    split
    · exact Nat.le_of_succ_le (le_matchPrefix key_left key_right fuel _ (prefix_size + 1))
    · exact Nat.le_refl _

omit [Inhabited V] in
theorem le_matched (key_size : Nat) (key_left key_right : Nat → V) (left_bounded right_bounded : Bool)
    (parallelogram : Nat → Range V) (prefix_size : Nat) :
    prefix_size ≤ (matched key_size key_left key_right left_bounded right_bounded parallelogram prefix_size).2 := by
  unfold matched
  split
  · exact le_matchPrefix key_left key_right _ _ _
  · exact Nat.le_refl _

/-- `forAnyParallelogram`. The source shares one vector between the calls; every call writes
    the columns from `prefix_size` on before its callback reads them, so each call gets its
    own copy here. Columns from `key_size` on are never written. -/
def forAnyParallelogram (key_size : Nat) (key_left key_right : Nat → V)
    (callback : (Nat → Range V) → Except String Bool) (left_bounded right_bounded : Bool)
    (parallelogram : Nat → Range V) (prefix_size : Nat) : Except String Bool :=
  if !left_bounded && !right_bounded then callback parallelogram
  else
    match hm : matched key_size key_left key_right left_bounded right_bounded parallelogram prefix_size with
    | (start, first) =>
    -- `prefix_size == key_size` in the source, where `prefix_size` never exceeds `key_size`
    if key_size ≤ first then callback start
    else if first + 1 = key_size then
      callback (Function.update start first
        (lastRange key key_left key_right left_bounded right_bounded first (start first)))
    else
      let box := resetFrom (Function.update start first
        (middleRange key key_left key_right left_bounded right_bounded first (start first))) first
      callback box >>= fun found =>
      if found then pure true else
      (if left_bounded then
        forAnyParallelogram key_size key_left key_right callback true false
          (Function.update box first (Range.point (key_left first))) (first + 1)
      else pure false) >>= fun found =>
      if found then pure true else
      if right_bounded then
        forAnyParallelogram key_size key_left key_right callback false true
          (Function.update box first (Range.point (key_right first))) (first + 1)
      else pure false
termination_by key_size - prefix_size
decreasing_by
  all_goals
    have h := le_matched key_size key_left key_right left_bounded right_bounded parallelogram prefix_size
    rw [hm] at h
    omega

/-- `mayBeTrueInRange(used_key_size, left_pk, right_pk, data_types, right_bounded)`;
    `mayBeTrueAfter` is `right_bounded = false`. -/
def mayBeTrueInRange (rpn : List (RPNElement V)) (used_key_size : Nat) (left_pk right_pk : Nat → V)
    (right_bounded : Bool) : Except String Bool :=
  forAnyParallelogram key used_key_size left_pk right_pk (mayBeTrueInRangeImpl rpn) true right_bounded
    (fun _ => Range.whole) 0

end Parallelograms


/-! ## What a condition says of a row -/

section Semantics

variable {V : Type} [LinearOrder V] (key : KeyInfo V)

/-- The six comparisons by name, the first argument on the left. -/
def compareValues (func_name : String) (x v : V) : Option Bool :=
  if func_name = "equals" then some (decide (x = v))
  else if func_name = "notEquals" then some (decide (x ≠ v))
  else if func_name = "less" then some (decide (x < v))
  else if func_name = "greater" then some (decide (v < x))
  else if func_name = "lessOrEquals" then some (decide (x ≤ v))
  else if func_name = "greaterOrEquals" then some (decide (v ≤ x))
  else none

/-- A comparison between a key column and a constant at the key tuple `t`. -/
def compareAtom (func_name : String) (args : List Ast) (t : Nat → V) : Option Bool :=
  match args with
  | [a0, a1] =>
    match keyAndConstant key a0 a1 with
    | some (const_value, k, swapped) =>
      (key.toKey const_value).bind fun v => if swapped then compareValues func_name v (t k) else compareValues func_name (t k) v
    | none => none
  | _ => none

mutual

/-- The value of a condition at a row whose key columns hold `t`: the logical functions, the
    comparisons of a key column with a constant and numeric constants as SQL evaluates them;
    `other` gives every other sub-expression. `indexHint` is read as its arguments' conjunction:
    the function returns 1, and the hint is the user's word that rows outside it need not be
    read. -/
def Ast.eval (t : Nat → V) (other : Ast → Bool) : Ast → Bool
  | .literal c => c.truth.getD (other (.literal c))
  | .identifier name => other (.identifier name)
  | .function name args =>
    if name = "not" then
      match Ast.evalList t other args with
      | [b] => !b
      | _ => other (.function name args)
    else if name = "and" ∨ name = "indexHint" then (Ast.evalList t other args).all id
    else if name = "or" then (Ast.evalList t other args).any id
    else (compareAtom key name args t).getD (other (.function name args))

def Ast.evalList (t : Nat → V) (other : Ast → Bool) : List Ast → List Bool
  | [] => []
  | a :: rest => Ast.eval t other a :: Ast.evalList t other rest

end

/-- The condition of a query: its `WHERE` and its `PREWHERE`, each true when absent. -/
def condition (t : Nat → V) (other : Ast → Bool) (where_expression prewhere_expression : Option Ast) : Bool :=
  (where_expression.map (Ast.eval key t other)).getD true && (prewhere_expression.map (Ast.eval key t other)).getD true

end Semantics

mutual

/-- Every node of the tree satisfies `p`. -/
def Ast.all (p : Ast → Bool) : Ast → Bool
  | .function name args => p (.function name args) && Ast.allList p args
  | node => p node

def Ast.allList (p : Ast → Bool) : List Ast → Bool
  | [] => true
  | a :: rest => Ast.all p a && Ast.allList p rest

end

/-- The analyzer rejects `and`, `or` and `indexHint` without arguments before the key analysis
    runs; the RPN of one would push no value. -/
def wellFormedNode : Ast → Bool
  | .function name args => (operatorFromAST name args).isNone || !args.isEmpty
  | _ => true

/-- Not the constant `-0.`. -/
def notNegativeZero : Ast → Bool
  | .literal c => c != Field.negativeZero
  | _ => true

theorem allList_mem {p : Ast → Bool} : ∀ {args : List Ast} {a : Ast}, Ast.allList p args = true → a ∈ args →
    a.all p = true
  | b :: rest, a, h, ha => by
    simp only [Ast.allList, Bool.and_eq_true] at h
    rcases List.mem_cons.mp ha with rfl | ha
    · exact h.1
    · exact allList_mem h.2 ha

theorem args_ne_nil {func_name : String} {args : List Ast} {op : RPNFunction}
    (h : wellFormedNode (.function func_name args) = true) (hop : operatorFromAST func_name args = some op) :
    args ≠ [] := by
  simp only [wellFormedNode, hop, Option.isNone_some, Bool.false_or, Bool.not_eq_true', List.isEmpty_eq_false_iff] at h
  exact h

/-- `a ≤ b` in the lexicographic order of the `k` columns from `p`. -/
def lexLe {V : Type} [LinearOrder V] (a b : Nat → V) : Nat → Nat → Prop
  | 0, _ => True
  | k + 1, p => a p < b p ∨ (a p = b p ∧ lexLe a b k (p + 1))

/-! ## Constants: bits and values -/

namespace Field

theorem int64_toUInt64_eq_zero (v : Int64) : v.toUInt64 = 0 ↔ v = 0 := by
  cases v with
  | ofUInt64 u =>
    constructor
    · intro h
      simp only at h
      subst h
      rfl
    · intro h
      cases h
      rfl

/-- The bits of a `Float64` other than `-0.` are zero iff its value is. -/
theorem float64_and_ne_zero {b : UInt64} (h : b ≠ 0x8000000000000000) :
    decide (b &&& 0x7FFFFFFFFFFFFFFF ≠ 0) = decide (b ≠ 0) := by
  have hmod : (b &&& 0x7FFFFFFFFFFFFFFF).toNat = b.toNat % 2 ^ 63 := by
    rw [UInt64.toNat_and]
    exact Nat.and_two_pow_sub_one_eq_mod _ 63
  have hlt : b.toNat < 2 ^ 64 := b.toNat_lt
  have hsign : b.toNat ≠ 2 ^ 63 := fun e => h (UInt64.toNat_inj.mp (by rw [e]; rfl))
  have hzero : (b &&& 0x7FFFFFFFFFFFFFFF) = 0 ↔ b = 0 := by
    rw [← UInt64.toNat_inj, hmod, ← UInt64.toNat_inj]
    simp only [UInt64.toNat_zero]
    omega
  simp only [ne_eq, hzero]

/-- Outside `-0.`, `get<UInt64>() != 0` is the value of a numeric constant. -/
theorem truth_eq_bits {c : Field} (hnum : c.isNumber = true) (hz : c ≠ negativeZero) :
    c.truth = some (decide (c.bits ≠ 0)) := by
  cases c with
  | uint64 v => rfl
  | int64 v =>
    simp only [truth, bits, ne_eq, int64_toUInt64_eq_zero]
  | float64 b =>
    have hb : b ≠ 0x8000000000000000 := fun e => hz (by rw [e]; rfl)
    rw [truth, bits, float64_and_ne_zero hb]
  | null => simp [isNumber] at hnum
  | string _ => simp [isNumber] at hnum

theorem negativeZero_bits : negativeZero.truth = some false ∧ negativeZero.bits ≠ 0 := by decide

end Field

end ClickHouseGpu.MergeTree.PKCondition
