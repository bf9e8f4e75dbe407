import Mathlib
import ClickHouseGpu.Lib.FlatRegex
import ClickHouseGpu.Lib.Checked

/-
  ClickHouseGpu.Common.OptimizedRegularExpression — `OptimizedRegularExpressionImpl`
  (dbms/src/Common/OptimizedRegularExpression.h, .inl.h) over the RE2 expressions that
  `likePatternToRegexp` writes.

  `analyze` reads the expression once: it is trivial when every metacharacter is escaped, and
  the longest literal run outside groups and quantifiers (preferring one at position 0, and not
  one of the `://`, `http`, `www`, `Windows ` stubs) of at least 3 bytes becomes the required
  substring. `match` finds a trivial expression with `strstr`; otherwise it checks the required
  substring with `strstr` and then runs RE2, unanchored.

  RE2 is modelled for flat expressions: an optional `^`, then literal bytes (a backslash before
  punctuation makes it literal), `.` and `.*` (the dot matches every byte: the functions pass
  `RE_DOT_NL`), the classes `\d \D \s \S \w \W` and the escapes `\a \f \t \n \r \v`, then an
  optional `$`. Anything else, such as groups, other escapes and anchors inside the expression,
  is `unsupported`. Bytes are single symbols: RE2's UTF-8 decoding of the dot and of the negated
  classes is not modelled. `strstr` stops at the first zero byte of its subject.

  Proved:
  - `analyze_caret`: an expression that starts with `^` is not trivial.
  - `re2Atoms_literal`, `re2Atoms_escape`: a plain byte and a backslash before punctuation
    compile to literals.
  - `re2Match_zero`: RE2's match from position 0 is `FlatRegex.Searches`.
  - `match_of_not_trivial`: an expression that is not trivial matches only where RE2 does.
-/

namespace ClickHouseGpu.Common

open FlatRegex

/-! ## `analyze` -/

/-- The metacharacters that a backslash makes literal in `analyze`. -/
def isEscapedMeta (c : UInt8) : Bool :=
  c = 124 || c = 40 || c = 41 || c = 94 || c = 36 || c = 46 || c = 91 || c = 63 || c = 42 || c = 43 || c = 123

/-- The state of `analyze`'s loop. `done` are the finished substrings, `last` is
    `*last_substring`, with the position where it starts. -/
structure AnalyzeState where
  depth : Int
  is_trivial : Bool
  has_alternative_on_depth_0 : Bool
  in_curly_braces : Bool
  in_square_braces : Bool
  done : List (List UInt8 × Nat)
  last : List UInt8 × Nat
  deriving DecidableEq, Repr

namespace AnalyzeState

/-- `if (!last_substring->first.empty()) { trivial_substrings.resize(size + 1); ... }`. -/
def cut (st : AnalyzeState) : AnalyzeState :=
  if st.last.1.isEmpty then st else { st with done := st.done ++ [st.last], last := ([], 0) }

/-- A literal byte at `pos`, outside groups and braces: appended to the last substring. -/
def push (st : AnalyzeState) (c : UInt8) (pos : Nat) : AnalyzeState :=
  if st.depth = 0 && !st.in_curly_braces && !st.in_square_braces then
    { st with last := (st.last.1 ++ [c], if st.last.1.isEmpty then pos else st.last.2) }
  else st

end AnalyzeState

/-- The loop of `analyze`; `total - rest.length` is `pos - begin`. -/
def analyzeLoop (total : Nat) : AnalyzeState → List UInt8 → AnalyzeState
  | st, [] => st
  -- a zero byte ends the expression
  | st, 0 :: _ => st
  | st, [92] => st
  | st, 92 :: c :: rest =>
    if isEscapedMeta c then analyzeLoop total (st.push c (total - (c :: rest).length)) rest
    -- all other escape sequences are not supported
    else analyzeLoop total { st with is_trivial := false }.cut rest
  | st, 124 :: rest =>
    let st := { st with has_alternative_on_depth_0 := st.has_alternative_on_depth_0 || st.depth = 0,
                        is_trivial := false }
    analyzeLoop total (if st.in_square_braces then st else st.cut) rest
  | st, 40 :: rest =>
    analyzeLoop total (if st.in_square_braces then st else { st with depth := st.depth + 1, is_trivial := false }.cut) rest
  | st, 91 :: rest =>
    analyzeLoop total { st with in_square_braces := true, depth := st.depth + 1, is_trivial := false }.cut rest
  | st, 93 :: rest =>
    if st.in_square_braces then
      analyzeLoop total { st with in_square_braces := false, depth := st.depth - 1, is_trivial := false }.cut rest
    else analyzeLoop total (st.push 93 (total - (93 :: rest).length)) rest
  | st, 41 :: rest =>
    analyzeLoop total (if st.in_square_braces then st else { st with depth := st.depth - 1, is_trivial := false }.cut) rest
  | st, c :: rest =>
    if c = 94 || c = 36 || c = 46 || c = 43 then
      let st := { st with is_trivial := false }
      analyzeLoop total (if st.in_square_braces then st else st.cut) rest
    -- quantifiers that allow zero occurrences take the last byte off the substring
    else if c = 123 || c = 63 || c = 42 then
      let st := { st with is_trivial := false, in_curly_braces := st.in_curly_braces || c = 123 }
      if !st.last.1.isEmpty && !st.in_square_braces then
        analyzeLoop total { st with done := st.done ++ [(st.last.1.dropLast, st.last.2)], last := ([], 0) } rest
      else analyzeLoop total st rest
    else if c = 125 && st.in_curly_braces then analyzeLoop total { st with in_curly_braces := false } rest
    else analyzeLoop total (st.push c (total - (c :: rest).length)) rest

/-- `strncmp(s, stub, strlen(stub)) == 0` for a substring without zero bytes. -/
def startsWith (s stub : List UInt8) : Bool := stub.isPrefixOf s

/-- The "tuning for typical usage domain" of the candidate choice. -/
def tuningAllows (s : List UInt8) : Bool :=
  (s.length > 3 || !startsWith s [58, 47, 47]) &&
    (s.length > 7 || !startsWith s [104, 116, 116, 112]) &&
    (s.length > 4 || !startsWith s [119, 119, 119]) &&
    (s.length > 8 || !startsWith s [87, 105, 110, 100, 111, 119, 115, 32])

/-- One step of the candidate loop over `(max_length, candidate)`. -/
def candidateStep (acc : Nat × (List UInt8 × Nat)) (it : List UInt8 × Nat) : Nat × (List UInt8 × Nat) :=
  let (max_length, candidate) := acc
  if ((it.2 = 0 && candidate.2 ≠ 0) || ((it.2 = 0) == (candidate.2 = 0) && it.1.length > max_length)) &&
      tuningAllows it.1 then (it.1.length, it)
  else acc

def MIN_LENGTH_FOR_STRSTR : Nat := 3

/-- `analyze`: the required substring, whether the expression is trivial, and whether the
    substring is at position 0. -/
def analyze (regexp : List UInt8) : List UInt8 × Bool × Bool :=
  let st := analyzeLoop regexp.length ⟨0, true, false, false, false, [], ([], 0)⟩ regexp
  let trivial_substrings := if st.last.1.isEmpty then st.done else st.done ++ [st.last]
  if !st.is_trivial then
    if !st.has_alternative_on_depth_0 then
      match trivial_substrings with
      | [] => ([], false, false)
      | first :: _ =>
        let (max_length, candidate) := trivial_substrings.foldl candidateStep (0, first)
        if max_length ≥ MIN_LENGTH_FOR_STRSTR then (candidate.1, false, candidate.2 = 0) else ([], false, false)
    else ([], false, false)
  else
    match trivial_substrings with
    | [] => ([], true, false)
    | first :: _ => (first.1, true, first.2 = 0)

namespace AnalyzeState

@[simp] theorem cut_is_trivial (st : AnalyzeState) : st.cut.is_trivial = st.is_trivial := by
  unfold cut
  split <;> rfl

@[simp] theorem push_is_trivial (st : AnalyzeState) (c : UInt8) (pos : Nat) :
    (st.push c pos).is_trivial = st.is_trivial := by
  unfold push
  split <;> rfl

end AnalyzeState

/-- Once a metacharacter has made the expression not trivial, it stays so. -/
theorem analyzeLoop_not_trivial (total : Nat) (st : AnalyzeState) (l : List UInt8) (h : st.is_trivial = false) :
    (analyzeLoop total st l).is_trivial = false := by
  fun_induction analyzeLoop total st l
  all_goals first | exact h | (rename_i ih; apply ih; (try split) <;> simp_all +zetaDelta)

theorem analyzeLoop_caret (total : Nat) (st : AnalyzeState) (X : List UInt8) :
    (analyzeLoop total st (94 :: X)).is_trivial = false := by
  rw [analyzeLoop.eq_def]
  simp only
  apply analyzeLoop_not_trivial
  split <;> simp

/-- `analyze` reports the expression trivial as its loop found it. -/
theorem analyze_is_trivial (regexp : List UInt8) :
    (analyze regexp).2.1 = (analyzeLoop regexp.length ⟨0, true, false, false, false, [], ([], 0)⟩ regexp).is_trivial := by
  unfold analyze
  dsimp only
  generalize analyzeLoop regexp.length _ regexp = st
  generalize (if st.last.1.isEmpty then st.done else st.done ++ [st.last]) = subs
  cases ht : st.is_trivial
  · simp only [Bool.not_false, if_true]
    split
    · cases subs with
      | nil => rfl
      | cons first _ =>
        dsimp only
        split <;> rfl
    · rfl
  · simp only [Bool.not_true]
    cases subs <;> rfl

/-- An expression anchored with `^` is not trivial. -/
theorem analyze_caret (X : List UInt8) : (analyze (94 :: X)).2.1 = false := by
  rw [analyze_is_trivial, analyzeLoop_caret]

/-! ## The RE2 expressions of the model -/

/-- RE2's `\d`. -/
def isDigit (c : UInt8) : Bool := 48 ≤ c && c ≤ 57

/-- RE2's `\s`: `[\t\n\f\r ]`. -/
def isSpace (c : UInt8) : Bool := c = 9 || c = 10 || c = 12 || c = 13 || c = 32

/-- RE2's `\w`: `[0-9A-Za-z_]`. -/
def isWordChar (c : UInt8) : Bool := isDigit c || (65 ≤ c && c ≤ 90) || (97 ≤ c && c ≤ 122) || c = 95

/-- A byte that stands for itself after a backslash: printable ASCII punctuation other than `_`. -/
def isPunct (c : UInt8) : Bool :=
  (33 ≤ c && c ≤ 47) || (58 ≤ c && c ≤ 64) || (91 ≤ c && c ≤ 96 && c ≠ 95) || (123 ≤ c && c ≤ 126)

/-- RE2 rejects the expression, or it is outside the modelled subset. -/
inductive Re2Error where
  | unsupported
  deriving DecidableEq, Repr

/-- The atom of `\c`. -/
def re2Escape (c : UInt8) : Except Re2Error (Atom UInt8) :=
  if isPunct c then .ok (.one (· == c))
  else if c = 100 then .ok (.one isDigit)
  else if c = 68 then .ok (.one fun b => !isDigit b)
  else if c = 115 then .ok (.one isSpace)
  else if c = 83 then .ok (.one fun b => !isSpace b)
  else if c = 119 then .ok (.one isWordChar)
  else if c = 87 then .ok (.one fun b => !isWordChar b)
  else if c = 97 then .ok (.one (· == 7))
  else if c = 102 then .ok (.one (· == 12))
  else if c = 116 then .ok (.one (· == 9))
  else if c = 110 then .ok (.one (· == 10))
  else if c = 114 then .ok (.one (· == 13))
  else if c = 118 then .ok (.one (· == 11))
  else .error .unsupported

/-- The metacharacters that are not literal by themselves. -/
def isMeta (c : UInt8) : Bool :=
  c = 94 || c = 36 || c = 91 || c = 40 || c = 41 || c = 124 || c = 42 || c = 43 || c = 63 || c = 123

/-- The atoms of a flat expression after its `^`, and whether it ends with `$`. -/
def re2Atoms : List UInt8 → Except Re2Error (List (Atom UInt8) × Bool)
  | [] => .ok ([], false)
  | c :: rest =>
    if c = 36 && rest.isEmpty then .ok ([], true)
    else if c = 92 then
      match rest with
      | [] => .error .unsupported
      | d :: rest' => do
        let a ← re2Escape d
        let (as, e) ← re2Atoms rest'
        pure (a :: as, e)
    else if c = 46 then
      match rest with
      | 42 :: rest' => do
        let (as, e) ← re2Atoms rest'
        pure (anything :: as, e)
      | rest => do
        let (as, e) ← re2Atoms rest
        pure (.one (fun _ => true) :: as, e)
    else if isMeta c then .error .unsupported
    else do
      let (as, e) ← re2Atoms rest
      pure (.one (· == c) :: as, e)

/-- One more atom in front of a successful translation. -/
theorem bind_cons_ok {a : Atom UInt8} {r : Except Re2Error (List (Atom UInt8) × Bool)} {as : List (Atom UInt8)}
    {e : Bool} (h : (do let (as, e) ← r; pure (a :: as, e) : Except Re2Error _) = .ok (as, e)) :
    ∃ as', as = a :: as' ∧ r = .ok (as', e) := by
  cases r with
  | error => simp [bind, Except.bind] at h
  | ok v =>
    obtain ⟨as', e'⟩ := v
    simp only [bind, Except.bind, pure, Except.pure, Except.ok.injEq, Prod.mk.injEq] at h
    obtain ⟨rfl, rfl⟩ := h
    exact ⟨as', rfl, rfl⟩

/-- A byte that is neither special nor `$`, `.` or a backslash is a literal. -/
theorem re2Atoms_literal {c : UInt8} (h36 : c ≠ 36) (h46 : c ≠ 46) (h92 : c ≠ 92) (hm : isMeta c = false)
    {rest : List UInt8} {as : List (Atom UInt8)} {e : Bool} (h : re2Atoms (c :: rest) = .ok (as, e)) :
    ∃ as', as = .one (· == c) :: as' ∧ re2Atoms rest = .ok (as', e) := by
  rw [re2Atoms.eq_def] at h
  dsimp only at h
  rw [if_neg (by simp [h36]), if_neg h92, if_neg h46, if_neg (by simp [hm])] at h
  exact bind_cons_ok h

/-- A backslash before punctuation makes a literal. -/
theorem re2Atoms_escape {c : UInt8} (hc : isPunct c = true) {rest : List UInt8} {as : List (Atom UInt8)} {e : Bool}
    (h : re2Atoms (92 :: c :: rest) = .ok (as, e)) :
    ∃ as', as = .one (· == c) :: as' ∧ re2Atoms rest = .ok (as', e) := by
  have he : re2Escape c = .ok (.one (· == c)) := by simp [re2Escape, hc]
  rw [re2Atoms.eq_def] at h
  dsimp only at h
  rw [if_neg (by simp), if_pos rfl] at h
  simp only [he, Checked.ok_bind] at h
  exact bind_cons_ok h

/-- A compiled expression of the model. -/
structure Re2 where
  anchored_start : Bool
  atoms : List (Atom UInt8)
  anchored_end : Bool

/-- `RE2(regexp, options)` with `ok()`. -/
def compileRe2 (regexp : List UInt8) : Except Re2Error Re2 :=
  match regexp with
  | 94 :: rest => (re2Atoms rest).map fun (as, e) => ⟨true, as, e⟩
  | _ => (re2Atoms regexp).map fun (as, e) => ⟨false, as, e⟩

theorem compileRe2_caret {X : List UInt8} {r : Re2} (h : compileRe2 (94 :: X) = .ok r) :
    r.anchored_start = true ∧ re2Atoms X = .ok (r.atoms, r.anchored_end) := by
  unfold compileRe2 at h
  cases hX : re2Atoms X with
  | error => simp [hX, Except.map] at h
  | ok v =>
    simp only [hX, Except.map, Except.ok.injEq] at h
    subst h
    exact ⟨rfl, rfl⟩

/-- `re2->Match(text, startpos, text.size(), UNANCHORED)`: a match that starts at `startpos` or
    later; an expression anchored at the start only matches from position 0. -/
def re2Match (r : Re2) (text : List UInt8) (startpos : Nat) : Bool :=
  if startpos = 0 then search r.anchored_start r.anchored_end r.atoms text
  else !r.anchored_start && search false r.anchored_end r.atoms (text.drop startpos)

theorem re2Match_zero (r : Re2) (text : List UInt8) :
    re2Match r text 0 = true ↔ Searches r.anchored_start r.anchored_end r.atoms text := by
  rw [re2Match, if_pos rfl, search_iff]

/-! ## `OptimizedRegularExpression` -/

/-- `strstr(subject, needle) != nullptr`: the needle occurs before the subject's first zero. -/
def strstr (subject needle : List UInt8) : Bool := decide (needle <:+: subject.takeWhile (· ≠ 0))

structure OptimizedRegularExpression where
  required_substring : List UInt8
  is_trivial : Bool
  required_substring_is_prefix : Bool
  re2 : Option Re2

/-- The constructor: `analyze`, and RE2 for an expression that is not trivial (it throws when RE2
    does not compile it). -/
def OptimizedRegularExpression.create (regexp : List UInt8) : Except Re2Error OptimizedRegularExpression :=
  let (required_substring, is_trivial, required_substring_is_prefix) := analyze regexp
  if is_trivial then .ok ⟨required_substring, true, required_substring_is_prefix, none⟩
  else (compileRe2 regexp).map fun r => ⟨required_substring, false, required_substring_is_prefix, some r⟩

/-- `match(subject, subject_size)`, case-sensitive. -/
def OptimizedRegularExpression.match (self : OptimizedRegularExpression) (subject : List UInt8) : Bool :=
  if self.is_trivial then strstr subject self.required_substring
  else if !self.required_substring.isEmpty && !strstr subject self.required_substring then false
  else match self.re2 with
    | some r => re2Match r subject 0
    | none => false

/-- An expression that is not trivial matches only where its RE2 does. -/
theorem match_of_not_trivial {regexp s : List UInt8} {o : OptimizedRegularExpression}
    (ht : (analyze regexp).2.1 = false) (hc : OptimizedRegularExpression.create regexp = .ok o)
    (hm : o.match s = true) : ∃ r, compileRe2 regexp = .ok r ∧ re2Match r s 0 = true := by
  unfold OptimizedRegularExpression.create at hc
  rcases hA : analyze regexp with ⟨required_substring, is_trivial, is_pre⟩
  rw [hA] at hc ht
  cases ht
  cases hr : compileRe2 regexp with
  | error => simp [hr, Except.map] at hc
  | ok r =>
    simp only [hr, Except.map, Bool.false_eq_true, if_false, Except.ok.injEq] at hc
    subst hc
    refine ⟨r, rfl, ?_⟩
    unfold OptimizedRegularExpression.match at hm
    simp only [Bool.false_eq_true, if_false] at hm
    split at hm
    · simp at hm
    · exact hm

end ClickHouseGpu.Common
