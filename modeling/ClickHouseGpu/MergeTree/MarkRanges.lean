import Mathlib

/-
  ClickHouseGpu.MergeTree.MarkRanges — `MergeTreeDataSelectExecutor::markRangesFromPKRange`
  (MergeTreeDataSelectExecutor.cpp), the work-list refinement that turns a primary-key
  condition into the mark ranges a query reads.

  The loop keeps a stack of disjoint suspicious ranges, leftmost on top. It pops a range and
  asks the condition about it: with `mayBeTrueAfter(index[begin])` when the range runs to the
  last mark, else with `mayBeTrueInRange(index[begin], index[end])`. A range the condition
  rules out is dropped; a one-mark range goes to the result, joined to the last result range
  when the gap is at most `min_marks_for_seek`; a longer range is cut into pieces of
  `step = (end - begin - 1) / merge_tree_coarse_index_granularity + 1` marks, pushed right to
  left.

  The condition is taken as its three answers (`Condition`), and an index row as an element
  of an arbitrary type `κ`: the loop only passes index rows to the condition.

  Proved:
  - `turn_granularity_one`: with `merge_tree_coarse_index_granularity = 1` the step is the
    whole range, so a range of two or more marks that the condition keeps is pushed back
    unchanged: the loop's state repeats.
  - `markRanges_granularity_one_diverges`: hence on a part of two marks whose condition may
    hold, the function never finishes, whatever the number of turns allowed.
  - `LoopInv.exists_turn`, `LoopInv.exists_loop`: from a granularity of two on, a turn keeps the
    stack and the result ranges of the part, left to right, with every mark the condition may
    hold at in one of them (`LoopInv`), and lowers the stack's cost (`MarkRange.cost`), so the
    loop ends. The result lies left of the stack, so `range.begin - res.back().end` never wraps.
  - `markRangesFromPKRange_sound`: the function then returns within `2 * marks_count` turns,
    ordered ranges of the part that hold every mark the condition may hold at.
-/

namespace ClickHouseGpu.MergeTree.MarkRanges

structure MarkRange where
  begin : Nat
  end_ : Nat
  deriving DecidableEq, Repr

structure Settings where
  merge_tree_min_rows_for_seek : Nat
  merge_tree_coarse_index_granularity : Nat
  deriving Repr

/-- What `markRangesFromPKRange` asks of its `PKCondition`. -/
structure Condition (κ : Type) where
  alwaysUnknownOrTrue : Bool
  mayBeTrueInRange : κ → κ → Bool
  mayBeTrueAfter : κ → Bool

section Loop

variable {κ : Type} (index : Nat → κ) (cond : Condition κ) (marks_count min_marks_for_seek granularity : Nat)

/-- The condition's answer for a popped range. -/
def mayBeTrue (r : MarkRange) : Bool :=
  if r.end_ = marks_count then cond.mayBeTrueAfter (index r.begin)
  else cond.mayBeTrueInRange (index r.begin) (index r.end_)

/-- A one-mark range joins the result, which is kept last range first. -/
def addToResult (res : List MarkRange) (r : MarkRange) : List MarkRange :=
  match res with
  | [] => [r]
  | last :: rest =>
    if r.begin - last.end_ > min_marks_for_seek then r :: last :: rest else { last with end_ := r.end_ } :: rest

@[simp] theorem addToResult_nil (r : MarkRange) : addToResult min_marks_for_seek [] r = [r] := rfl

theorem addToResult_cons (last : MarkRange) (rest : List MarkRange) (r : MarkRange) :
    addToResult min_marks_for_seek (last :: rest) r =
      if r.begin - last.end_ > min_marks_for_seek then r :: last :: rest else { last with end_ := r.end_ } :: rest :=
  rfl

/-- `for (end = range.end; end > range.begin + step; end -= step) push(end - step, end)`, then
    `push(range.begin, end)`: the pieces of `[b, e)` on the stack, leftmost on top. `fuel`
    bounds the pushes; `e` of them always suffice, since `step ≥ 1`. -/
def pushPieces (b step : Nat) : Nat → Nat → List MarkRange → List MarkRange
  | 0, e, stack => ⟨b, e⟩ :: stack
  | fuel + 1, e, stack =>
    if e > b + step then pushPieces b step fuel (e - step) (⟨e - step, e⟩ :: stack) else ⟨b, e⟩ :: stack

/-- One turn of `while (!ranges_stack.empty())` on the popped range `r`: the new stack and
    result, or `none` where the code divides by a zero granularity. -/
def turn (r : MarkRange) (stack res : List MarkRange) : Option (List MarkRange × List MarkRange) :=
  if !mayBeTrue index cond marks_count r then some (stack, res)
  else if r.end_ = r.begin + 1 then some (stack, addToResult min_marks_for_seek res r)
  else if granularity = 0 then none
  else some (pushPieces r.begin ((r.end_ - r.begin - 1) / granularity + 1) r.end_ r.end_ stack, res)

/-- The loop, for at most `fuel` turns: `none` when it has not finished by then. -/
def loop : Nat → List MarkRange → List MarkRange → Option (List MarkRange)
  | 0, _, _ => none
  | _ + 1, [], res => some res.reverse
  | fuel + 1, r :: stack, res =>
    match turn index cond marks_count min_marks_for_seek granularity r stack res with
    | some (stack', res') => loop fuel stack' res'
    | none => none

end Loop

/-- `markRangesFromPKRange`, with `marks_count = index.at(0)->size()` and at most `fuel`
    turns of the loop. -/
def markRangesFromPKRange {κ : Type} (index : Nat → κ) (cond : Condition κ) (settings : Settings)
    (index_granularity marks_count fuel : Nat) : Option (List MarkRange) :=
  let min_marks_for_seek :=
    (settings.merge_tree_min_rows_for_seek + index_granularity - 1) % 2 ^ 64 / index_granularity
  if cond.alwaysUnknownOrTrue then some [⟨0, marks_count⟩]
  else loop index cond marks_count min_marks_for_seek settings.merge_tree_coarse_index_granularity fuel
    [⟨0, marks_count⟩] []

/-! ## Granularity one -/

/-- With granularity one the step is the whole range, so a kept range of two or more marks
    comes back unchanged on top of the stack. -/
theorem turn_granularity_one {κ : Type} (index : Nat → κ) (cond : Condition κ) (marks_count min_marks : Nat)
    (r : MarkRange) (stack res : List MarkRange) (hlen : r.begin + 1 < r.end_)
    (hkeep : mayBeTrue index cond marks_count r = true) :
    turn index cond marks_count min_marks 1 r stack res = some (r :: stack, res) := by
  have hstep : (r.end_ - r.begin - 1) / 1 + 1 = r.end_ - r.begin := by omega
  have hpush : pushPieces r.begin (r.end_ - r.begin) r.end_ r.end_ stack = r :: stack := by
    obtain ⟨b, e⟩ := r
    simp only at hlen ⊢
    cases e with
    | zero => omega
    | succ n => simp only [pushPieces]; rw [if_neg (by omega)]
  simp only [turn, hkeep, Bool.not_true, Bool.false_eq_true, if_false, Nat.one_ne_zero]
  rw [if_neg (by omega), hstep, hpush]

/-- A state whose top range `turn` pushes back unchanged never lets the loop finish. -/
theorem loop_stuck {κ : Type} (index : Nat → κ) (cond : Condition κ) (marks_count min_marks g : Nat)
    (r : MarkRange) (stack res : List MarkRange)
    (h : turn index cond marks_count min_marks g r stack res = some (r :: stack, res)) :
    ∀ fuel, loop index cond marks_count min_marks g fuel (r :: stack) res = none := by
  intro fuel
  induction fuel with
  | zero => rfl
  | succ n ih => simp only [loop, h, ih]

/-- The condition of a two-mark part that may hold anywhere (and is not trivially true). -/
def keepAll : Condition Unit := ⟨false, fun _ _ => true, fun _ => true⟩

theorem markRanges_granularity_one_diverges :
    ∀ fuel, markRangesFromPKRange (fun _ => ()) keepAll ⟨0, 1⟩ 1 2 fuel = none := by
  intro fuel
  have hturn := turn_granularity_one (fun _ => ()) keepAll 2 0 ⟨0, 2⟩ [] [] (by decide) (by decide)
  simp only [markRangesFromPKRange, keepAll, Bool.false_eq_true, if_false]
  exact loop_stuck _ _ _ _ _ _ _ _ hturn fuel

/-! ## Termination and soundness from a granularity of two -/

namespace MarkRange

/-- A range of at least one mark of the part. -/
def Within (marks_count : Nat) (r : MarkRange) : Prop := r.begin < r.end_ ∧ r.end_ ≤ marks_count

/-- Mark `m` lies in the range. -/
def Covers (r : MarkRange) (m : Nat) : Prop := r.begin ≤ m ∧ m < r.end_

/-- A bound on the turns a range still takes: a range of `n` marks leaves the stack or is
    replaced by at least two pieces of `n` marks in all. -/
def cost (r : MarkRange) : Nat := 2 * (r.end_ - r.begin) - 1

end MarkRange

/-- `r` ends where `s` starts or before. -/
def Before (r s : MarkRange) : Prop := r.end_ ≤ s.begin

/-- `ps` cuts `[b, e)` into ranges of at least one mark, leftmost first. -/
structure Cuts (b e : Nat) (ps : List MarkRange) : Prop where
  within : ∀ p ∈ ps, b ≤ p.begin ∧ p.begin < p.end_ ∧ p.end_ ≤ e
  ordered : ps.Pairwise Before
  covers : ∀ m, b ≤ m → m < e → ∃ p ∈ ps, p.Covers m
  cost : (ps.map MarkRange.cost).sum + ps.length = 2 * (e - b)

theorem cuts_single {b e : Nat} (h : b < e) : Cuts b e [⟨b, e⟩] := by
  refine ⟨fun p hp => ?_, List.pairwise_singleton _ _, fun m hb he => ⟨_, List.mem_singleton_self _, hb, he⟩, ?_⟩
  · rw [List.mem_singleton.mp hp]
    exact ⟨le_refl b, h, le_refl e⟩
  · simp only [List.map_cons, List.map_nil, List.sum_cons, List.sum_nil, List.length_singleton, MarkRange.cost]
    omega

/-- The last piece pushed first: the pieces of `[b, e - step)`, then `[e - step, e)`. -/
theorem Cuts.snoc {b e step : Nat} {ps : List MarkRange} (hc : Cuts b (e - step) ps) (hstep : 0 < step)
    (hlt : b + step < e) : Cuts b e (ps ++ [⟨e - step, e⟩]) := by
  refine ⟨fun p hp => ?_, ?_, fun m hb he => ?_, ?_⟩
  · rcases List.mem_append.mp hp with hp | hp
    · have := hc.within p hp
      omega
    · rw [List.mem_singleton.mp hp]
      show b ≤ e - step ∧ e - step < e ∧ e ≤ e
      omega
  · refine List.pairwise_append.mpr ⟨hc.ordered, List.pairwise_singleton _ _, fun p hp q hq => ?_⟩
    rw [List.mem_singleton.mp hq]
    exact (hc.within p hp).2.2
  · by_cases hm : m < e - step
    · obtain ⟨p, hp, hcov⟩ := hc.covers m hb hm
      exact ⟨p, List.mem_append_left _ hp, hcov⟩
    · exact ⟨_, List.mem_append_right _ (List.mem_singleton_self _), show e - step ≤ m by omega, he⟩
  · have hcost := hc.cost
    simp only [List.map_append, List.sum_append, List.length_append, List.map_cons, List.map_nil,
      List.sum_cons, List.sum_nil, List.length_singleton, MarkRange.cost] at hcost ⊢
    omega

/-- `pushPieces` puts the pieces of `[b, e)` on the stack, leftmost on top, and at least two of
    them when the step is shorter than the range and there is fuel for one push. -/
theorem pushPieces_cuts (b step : Nat) (hstep : 0 < step) :
    ∀ fuel e (stack : List MarkRange), b < e →
      ∃ ps, pushPieces b step fuel e stack = ps ++ stack ∧ Cuts b e ps ∧ (0 < fuel → b + step < e → 2 ≤ ps.length) := by
  intro fuel
  induction fuel with
  | zero =>
    intro e stack h
    exact ⟨[⟨b, e⟩], rfl, cuts_single h, fun h0 => absurd h0 (Nat.lt_irrefl 0)⟩
  | succ n ih =>
    intro e stack h
    by_cases hlt : e > b + step
    · obtain ⟨ps, hpush, hcuts, -⟩ := ih (e - step) (⟨e - step, e⟩ :: stack) (by omega)
      have hne : ps ≠ [] := by
        obtain ⟨p, hp, -⟩ := hcuts.covers b (le_refl b) (by omega)
        exact List.ne_nil_of_mem hp
      refine ⟨ps ++ [⟨e - step, e⟩], ?_, hcuts.snoc hstep hlt, fun _ _ => ?_⟩
      · rw [pushPieces, if_pos hlt, hpush, List.append_assoc, List.singleton_append]
      · rw [List.length_append, List.length_singleton]
        have := List.length_pos_of_ne_nil hne
        omega
    · refine ⟨[⟨b, e⟩], ?_, cuts_single h, fun _ h' => absurd h' hlt⟩
      rw [pushPieces, if_neg hlt]
      rfl

/-- The result is kept last range first. -/
theorem addToResult_within {min_marks_for_seek marks_count : Nat} {res : List MarkRange} {r : MarkRange}
    (hres : ∀ q ∈ res, q.Within marks_count) (hr : r.Within marks_count) (hbefore : ∀ q ∈ res, Before q r) :
    ∀ q ∈ addToResult min_marks_for_seek res r, q.Within marks_count := by
  cases res with
  | nil => simpa [addToResult] using hr
  | cons last rest =>
    have hlast := hres last List.mem_cons_self
    have hlr := hbefore last List.mem_cons_self
    rw [addToResult_cons]
    split
    · intro q hq
      rcases List.mem_cons.mp hq with rfl | hq
      · exact hr
      · exact hres q hq
    · intro q hq
      rcases List.mem_cons.mp hq with rfl | hq
      · exact ⟨by unfold MarkRange.Within Before at *; simp only; omega, hr.2⟩
      · exact hres q (List.mem_cons_of_mem _ hq)

theorem addToResult_ordered {min_marks_for_seek : Nat} {res : List MarkRange} {r : MarkRange}
    (hord : res.Pairwise (fun q q' => Before q' q)) (hbefore : ∀ q ∈ res, Before q r) :
    (addToResult min_marks_for_seek res r).Pairwise (fun q q' => Before q' q) := by
  cases res with
  | nil => exact List.pairwise_singleton _ _
  | cons last rest =>
    obtain ⟨hlast, hrest⟩ := List.pairwise_cons.mp hord
    rw [addToResult_cons]
    split
    · exact List.pairwise_cons.mpr ⟨fun q hq => hbefore q hq, hord⟩
    · exact List.pairwise_cons.mpr ⟨fun q hq => hlast q hq, hrest⟩

/-- The ranges of the result, and a range joined to them, lie in the ranges after the join: a
    join extends the last range over the gap, which lies between the two. -/
theorem addToResult_covers {min_marks_for_seek : Nat} {res : List MarkRange} {r : MarkRange} {m : Nat}
    (hres : ∀ q ∈ res, q.begin < q.end_) (hr : r.begin < r.end_) (hbefore : ∀ q ∈ res, Before q r)
    (hm : r.Covers m ∨ ∃ q ∈ res, q.Covers m) : ∃ q ∈ addToResult min_marks_for_seek res r, q.Covers m := by
  cases res with
  | nil =>
    rcases hm with hm | ⟨q, hq, -⟩
    · exact ⟨r, List.mem_singleton_self _, hm⟩
    · cases hq
  | cons last rest =>
    have hlast := hres last List.mem_cons_self
    have hlr := hbefore last List.mem_cons_self
    rw [addToResult_cons]
    split
    · rcases hm with hm | ⟨q, hq, hcov⟩
      · exact ⟨r, List.mem_cons_self, hm⟩
      · exact ⟨q, List.mem_cons_of_mem _ hq, hcov⟩
    · rcases hm with hm | ⟨q, hq, hcov⟩
      · refine ⟨_, List.mem_cons_self, ?_⟩
        unfold MarkRange.Covers Before at *
        simp only
        omega
      · rcases List.mem_cons.mp hq with rfl | hq
        · refine ⟨_, List.mem_cons_self, ?_⟩
          unfold MarkRange.Covers Before at *
          simp only
          omega
        · exact ⟨q, List.mem_cons_of_mem _ hq, hcov⟩

theorem end_le_of_mem_addToResult {min_marks_for_seek : Nat} {res : List MarkRange} {r q : MarkRange}
    (hbefore : ∀ q ∈ res, Before q r) (hr : r.begin < r.end_) (hq : q ∈ addToResult min_marks_for_seek res r) :
    q.end_ ≤ r.end_ := by
  cases res with
  | nil =>
    rw [addToResult_nil, List.mem_singleton] at hq
    rw [hq]
  | cons last rest =>
    rw [addToResult_cons] at hq
    split at hq
    · rcases List.mem_cons.mp hq with rfl | hq
      · exact le_refl _
      · have := hbefore q hq
        unfold Before at this
        omega
    · rcases List.mem_cons.mp hq with rfl | hq
      · exact le_refl _
      · have := hbefore q (List.mem_cons_of_mem _ hq)
        unfold Before at this
        omega

/-- Between two turns: the stack and the result hold ranges of the part, left to right (the
    result last range first), the result left of the stack, and every mark `P` holds at lies in
    a range of one of them. -/
structure LoopInv (marks_count : Nat) (P : Nat → Prop) (stack res : List MarkRange) : Prop where
  stack_within : ∀ r ∈ stack, r.Within marks_count
  res_within : ∀ q ∈ res, q.Within marks_count
  stack_ordered : stack.Pairwise Before
  res_ordered : res.Pairwise (fun q q' => Before q' q)
  res_before : ∀ q ∈ res, ∀ s ∈ stack, Before q s
  covered : ∀ m, m < marks_count → P m → (∃ r ∈ stack, r.Covers m) ∨ ∃ q ∈ res, q.Covers m

section Sound

variable {marks_count : Nat} {P : Nat → Prop} {r : MarkRange} {stack res : List MarkRange}

theorem loopInv_start (h : 0 < marks_count) : LoopInv marks_count P [⟨0, marks_count⟩] [] := by
  refine ⟨fun r hr => ?_, fun _ hq => by simp at hq, List.pairwise_singleton _ _, List.Pairwise.nil,
    fun _ hq => by simp at hq, fun m hm _ => Or.inl ⟨_, List.mem_singleton_self _, Nat.zero_le m, hm⟩⟩
  rw [List.mem_singleton.mp hr]
  exact ⟨h, le_refl _⟩

/-- A range whose marks `P` holds at none of is dropped. -/
theorem LoopInv.drop (hinv : LoopInv marks_count P (r :: stack) res) (hr : ∀ m, r.Covers m → ¬P m) :
    LoopInv marks_count P stack res := by
  refine ⟨fun s hs => hinv.stack_within s (List.mem_cons_of_mem _ hs), hinv.res_within,
    (List.pairwise_cons.mp hinv.stack_ordered).2, hinv.res_ordered,
    fun q hq s hs => hinv.res_before q hq s (List.mem_cons_of_mem _ hs), fun m hm hp => ?_⟩
  rcases hinv.covered m hm hp with ⟨s, hs, hcov⟩ | hres
  · rcases List.mem_cons.mp hs with rfl | hs
    · exact absurd hp (hr m hcov)
    · exact Or.inl ⟨s, hs, hcov⟩
  · exact Or.inr hres

/-- A range goes to the result. -/
theorem LoopInv.emit (min_marks_for_seek : Nat) (hinv : LoopInv marks_count P (r :: stack) res) :
    LoopInv marks_count P stack (addToResult min_marks_for_seek res r) := by
  have hr := hinv.stack_within r List.mem_cons_self
  have hbefore : ∀ q ∈ res, Before q r := fun q hq => hinv.res_before q hq r List.mem_cons_self
  obtain ⟨hrs, hstack⟩ := List.pairwise_cons.mp hinv.stack_ordered
  refine ⟨fun s hs => hinv.stack_within s (List.mem_cons_of_mem _ hs),
    addToResult_within hinv.res_within hr hbefore, hstack, addToResult_ordered hinv.res_ordered hbefore,
    fun q hq s hs => ?_, fun m hm hp => ?_⟩
  · have hqr := end_le_of_mem_addToResult hbefore hr.1 hq
    have := hrs s hs
    unfold Before at this ⊢
    omega
  · rcases hinv.covered m hm hp with ⟨s, hs, hcov⟩ | hres
    · rcases List.mem_cons.mp hs with rfl | hs
      · exact Or.inr (addToResult_covers (fun q hq => (hinv.res_within q hq).1) hr.1 hbefore (Or.inl hcov))
      · exact Or.inl ⟨s, hs, hcov⟩
    · exact Or.inr (addToResult_covers (fun q hq => (hinv.res_within q hq).1) hr.1 hbefore (Or.inr hres))

/-- A range is replaced by pieces that cut it. -/
theorem LoopInv.split {ps : List MarkRange} (hinv : LoopInv marks_count P (r :: stack) res)
    (hcuts : Cuts r.begin r.end_ ps) : LoopInv marks_count P (ps ++ stack) res := by
  have hr := hinv.stack_within r List.mem_cons_self
  obtain ⟨hrs, hstack⟩ := List.pairwise_cons.mp hinv.stack_ordered
  refine ⟨fun s hs => ?_, hinv.res_within, ?_, hinv.res_ordered, fun q hq s hs => ?_, fun m hm hp => ?_⟩
  · rcases List.mem_append.mp hs with hs | hs
    · have := hcuts.within s hs
      exact ⟨this.2.1, this.2.2.trans hr.2⟩
    · exact hinv.stack_within s (List.mem_cons_of_mem _ hs)
  · refine List.pairwise_append.mpr ⟨hcuts.ordered, hstack, fun p hp s hs => ?_⟩
    exact (hcuts.within p hp).2.2.trans (hrs s hs)
  · have hqr := hinv.res_before q hq r List.mem_cons_self
    rcases List.mem_append.mp hs with hs | hs
    · exact hqr.trans (hcuts.within s hs).1
    · exact hinv.res_before q hq s (List.mem_cons_of_mem _ hs)
  · rcases hinv.covered m hm hp with ⟨s, hs, hcov⟩ | hres
    · rcases List.mem_cons.mp hs with rfl | hs
      · obtain ⟨p, hp, hpcov⟩ := hcuts.covers m hcov.1 hcov.2
        exact Or.inl ⟨p, List.mem_append_left _ hp, hpcov⟩
      · exact Or.inl ⟨s, List.mem_append_right _ hs, hcov⟩
    · exact Or.inr hres

theorem cost_pos (hr : r.begin < r.end_) : 0 < r.cost := by
  unfold MarkRange.cost
  omega

variable {κ : Type} {index : Nat → κ} {cond : Condition κ} (min_marks_for_seek : Nat) {granularity : Nat}

/-- One turn from a range of the stack, with a granularity of two or more, keeps `LoopInv` and
    lowers the stack's cost, when the condition answers `false` only for ranges of marks where
    `P` holds at none. -/
theorem LoopInv.exists_turn (hinv : LoopInv marks_count P (r :: stack) res) (hg : 2 ≤ granularity)
    (hcond : ∀ r : MarkRange, r.Within marks_count → mayBeTrue index cond marks_count r = false →
      ∀ m, r.Covers m → ¬P m) :
    ∃ stack' res', turn index cond marks_count min_marks_for_seek granularity r stack res = some (stack', res') ∧
      LoopInv marks_count P stack' res' ∧ (stack'.map MarkRange.cost).sum < ((r :: stack).map MarkRange.cost).sum := by
  have hr := hinv.stack_within r List.mem_cons_self
  have hlt : r.begin < r.end_ := hr.1
  have hcost := cost_pos hlt
  rw [List.map_cons, List.sum_cons]
  unfold MarkRanges.turn
  by_cases hkeep : mayBeTrue index cond marks_count r = true
  · rw [hkeep, Bool.not_true, if_neg Bool.false_ne_true]
    by_cases hone : r.end_ = r.begin + 1
    · rw [if_pos hone]
      exact ⟨_, _, rfl, hinv.emit min_marks_for_seek, by omega⟩
    · -- a range of two or more marks is cut into pieces shorter than it
      rw [if_neg hone, if_neg (by omega)]
      have hstep : (r.end_ - r.begin - 1) / granularity < r.end_ - r.begin - 1 :=
        Nat.div_lt_self (by omega) (by omega)
      obtain ⟨ps, hpush, hcuts, hlen⟩ :=
        pushPieces_cuts r.begin ((r.end_ - r.begin - 1) / granularity + 1) (Nat.succ_pos _) r.end_ r.end_ stack hlt
      have h2 := hlen (by omega) (by omega)
      have hsum := hcuts.cost
      refine ⟨_, _, by rw [hpush], hinv.split hcuts, ?_⟩
      rw [List.map_append, List.sum_append]
      unfold MarkRange.cost at hsum ⊢
      omega
  · have hfalse : mayBeTrue index cond marks_count r = false := by simpa using hkeep
    rw [hfalse]
    exact ⟨_, _, rfl, hinv.drop (hcond r hr hfalse), by omega⟩

/-- The loop from a state with `LoopInv`, given more turns than the stack's cost, ends, and
    with `LoopInv` on an empty stack. -/
theorem LoopInv.exists_loop (hg : 2 ≤ granularity)
    (hcond : ∀ r : MarkRange, r.Within marks_count → mayBeTrue index cond marks_count r = false →
      ∀ m, r.Covers m → ¬P m) :
    ∀ fuel (stack res : List MarkRange), LoopInv marks_count P stack res → (stack.map MarkRange.cost).sum < fuel →
      ∃ res', loop index cond marks_count min_marks_for_seek granularity fuel stack res = some res'.reverse ∧
        LoopInv marks_count P [] res' := by
  intro fuel
  induction fuel with
  | zero => intro _ _ _ h; exact absurd h (Nat.not_lt_zero _)
  | succ n ih =>
    intro stack res hinv hfuel
    cases stack with
    | nil => exact ⟨res, rfl, hinv⟩
    | cons r stack =>
      obtain ⟨stack', res', hturn, hinv', hlt⟩ := hinv.exists_turn min_marks_for_seek hg hcond
      obtain ⟨out, hloop, hout⟩ := ih stack' res' hinv' (by omega)
      refine ⟨out, ?_, hout⟩
      rw [MarkRanges.loop, hturn]
      exact hloop

end Sound

/-- `markRangesFromPKRange` with a coarse index granularity of two or more (the default is 8) on
    a part of at least one mark ends within `2 * marks_count` turns, its ranges are ranges of the
    part left to right, and it reads every mark `P` holds at, for every `P` the condition is sound
    for: one that holds at no mark of a range the condition rules out. -/
theorem markRangesFromPKRange_sound {κ : Type} (index : Nat → κ) (cond : Condition κ) (settings : Settings)
    (index_granularity marks_count fuel : Nat) (P : Nat → Prop)
    (hg : 2 ≤ settings.merge_tree_coarse_index_granularity) (hmarks : 0 < marks_count)
    (hfuel : 2 * marks_count ≤ fuel)
    (hcond : ∀ r : MarkRange, r.Within marks_count → mayBeTrue index cond marks_count r = false →
      ∀ m, r.Covers m → ¬P m) :
    ∃ res, markRangesFromPKRange index cond settings index_granularity marks_count fuel = some res ∧
      (∀ r ∈ res, r.Within marks_count) ∧ res.Pairwise Before ∧
      ∀ m, m < marks_count → P m → ∃ r ∈ res, r.Covers m := by
  unfold markRangesFromPKRange
  split
  · refine ⟨_, rfl, fun r hr => ?_, List.pairwise_singleton _ _, fun m hm _ => ⟨_, List.mem_singleton_self _, Nat.zero_le m, hm⟩⟩
    rw [List.mem_singleton.mp hr]
    exact ⟨hmarks, le_refl _⟩
  · have hstart : (([⟨0, marks_count⟩] : List MarkRange).map MarkRange.cost).sum < fuel := by
      simp only [List.map_cons, List.map_nil, List.sum_cons, List.sum_nil, MarkRange.cost]
      omega
    obtain ⟨res, hloop, hinv⟩ := LoopInv.exists_loop ((settings.merge_tree_min_rows_for_seek + index_granularity - 1) % 2 ^ 64 / index_granularity)
      hg hcond fuel _ [] (loopInv_start hmarks) hstart
    refine ⟨res.reverse, hloop, fun r hr => hinv.res_within r (List.mem_reverse.mp hr),
      List.pairwise_reverse.mpr hinv.res_ordered, fun m hm hp => ?_⟩
    rcases hinv.covered m hm hp with ⟨s, hs, -⟩ | ⟨q, hq, hcov⟩
    · cases hs
    · exact ⟨q, List.mem_reverse.mpr hq, hcov⟩

/-- Four marks with index rows `0 .. 4`, and a condition that keeps the ranges around the key 3:
    the loop finds the mark of key 3. -/
def aroundThree : Condition Nat := ⟨false, fun l r => decide (l ≤ 3 ∧ 3 ≤ r), fun l => decide (l ≤ 3)⟩

theorem markRangesFromPKRange_sound_around_three :
    2 ≤ (⟨0, 8⟩ : Settings).merge_tree_coarse_index_granularity ∧ 0 < 4 ∧ 2 * 4 ≤ 8 ∧
      (∀ r : MarkRange, r.Within 4 → mayBeTrue id aroundThree 4 r = false → ∀ m, r.Covers m → ¬m = 3) ∧
      ∃ res, markRangesFromPKRange id aroundThree ⟨0, 8⟩ 1 4 8 = some res ∧
        (∀ r ∈ res, r.Within 4) ∧ res.Pairwise Before ∧ ∀ m, m < 4 → m = 3 → ∃ r ∈ res, r.Covers m := by
  have hcond : ∀ r : MarkRange, r.Within 4 → mayBeTrue id aroundThree 4 r = false → ∀ m, r.Covers m → ¬m = 3 := by
    intro r hr hfalse m hcov hm
    unfold mayBeTrue aroundThree at hfalse
    unfold MarkRange.Covers at hcov
    subst hm
    split at hfalse <;> simp at hfalse <;> omega
  exact ⟨by decide, by decide, by decide, hcond,
    markRangesFromPKRange_sound id aroundThree ⟨0, 8⟩ 1 4 8 (fun m => m = 3) (by decide) (by decide) (by decide) hcond⟩

end ClickHouseGpu.MergeTree.MarkRanges
