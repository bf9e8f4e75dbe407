import ClickHouseGpu.DataStreams.MergingSorted
import ClickHouseGpu.Lib.LastMax

/-
  ClickHouseGpu.DataStreams.ReplacingSorted — `ReplacingSortedBlockInputStream`, the merge of the
  sorted parts of a `ReplacingMergeTree` (DataStreams/ReplacingSortedBlockInputStream.cpp).

  A row is a value of `ρ`, with its sort key `key : ρ → κ` and, where the table has one, its
  version `version : ρ → ν`. The queue pops the rows of the parts in the order of the k-way merge
  (`KMerge.kmerge`: by key, ties by part, as `SortCursor::greaterAt` breaks them by the cursor's
  `order`), each with the number of its part. `merge` takes them in that order: `selected_row` is
  the row of the current key that the last row of a version at least as high replaced, and
  `insertRow` writes it when the key changes and after the last row. A block full at a new key
  (`merged_rows >= max_block_size`) is returned with that row left in the queue, and the key's
  state stays for the next `readImpl`. With `out_row_sources_buf`, each row of the key gets a
  `RowSourcePart` with the skip flag set (`current_row_sources`), and `insertRow` clears the flag
  of the selected row (`max_pos`) before it writes them out.

  Proved, for every `max_block_size > 0`:
  - `Inv.readAll`: the stream gives, for each key of the rows it pops, the last row of the
    greatest version (`LastMax.Winners`), in key order; and `out_row_sources_buf` gets one
    `RowSourcePart` per row, in the order of the pops, whose skip flag is clear exactly on the rows
    given.
  - `replacing_merge_keeps_last_max_version`: so on sorted parts; and replacing the results of
    replacing adjacent groups of the parts gives the result of replacing all of them.
-/

namespace ClickHouseGpu.DataStreams

open KMerge LastMax

namespace ReplacingSorted

variable {ρ κ ν : Type}

/-- The arguments of `ReplacingSortedBlockInputStream`. -/
structure Params (ρ κ ν : Type) where
  /-- The sort description. -/
  key : ρ → κ
  /-- The version column, `none` without one (`version_column_number == -1`). -/
  version : Option (ρ → ν)
  max_block_size : Nat
  /-- Whether `out_row_sources_buf` is given. -/
  out_row_sources : Bool

/-- The state of the stream between two rows. -/
structure State (ρ κ : Type) where
  /-- `current_key`, empty before the first row. -/
  current_key : Option κ
  selected_row : Option ρ
  max_pos : Nat
  current_row_sources : List RowSourcePart
  /-- What `out_row_sources_buf` holds. -/
  row_sources : List RowSourcePart
  finished : Bool

/-- The stream before its first `read()`. -/
def State.init : State ρ κ := ⟨none, none, 0, [], [], false⟩

section Stream

variable [LinearOrder κ] [LinearOrder ν] (p : Params ρ κ ν)

/-- The version test of the loop, `compareAt(...) >= 0` of the row `current` against the selected
    row; without a version column every row passes. -/
def newer (selected current : ρ) : Bool :=
  match p.version with
  | none => true
  | some version => decide (version selected ≤ version current)

/-- Whether `current` replaces the selected row: the key has none yet, or `current` passes the
    version test. The test is not strict, so of the rows of the greatest version the last stays. -/
def replaces (selected_row : Option ρ) (current : ρ) : Bool :=
  match selected_row with
  | none => true
  | some selected => newer p selected current

/-- `insertRow`: the row sources of the key written out, the skip flag of the selected row
    cleared, and the selected row given. -/
def insertRow (s : State ρ κ) (merged : List ρ) (merged_rows : Nat) : State ρ κ × List ρ × Nat :=
  let s :=
    if p.out_row_sources then
      { s with
        row_sources := s.row_sources ++ s.current_row_sources.modify s.max_pos (·.setSkipFlag false),
        current_row_sources := [] }
    else s
  (s, merged ++ s.selected_row.toList, merged_rows + 1)

/-- `key_differs`: `next_key != current_key`, where `current_key` is set to the row's own key on
    the first row. -/
def keyDiffers (s : State ρ κ) (current : ρ) : Bool := p.key current != s.current_key.getD (p.key current)

/-- The row `current` of part `order` joins the rows of its key: its row source with the skip flag
    set, and it becomes the selected row if it replaces it. -/
def takeRow (s : State ρ κ) (order : Nat) (current : ρ) : State ρ κ :=
  -- `current_key.swap(next_key)` on a new key; otherwise `current_key` already equals the row's
  let s := { s with current_key := some (p.key current) }
  let current_pos := s.current_row_sources.length
  let s :=
    if p.out_row_sources then { s with current_row_sources := s.current_row_sources ++ [.ofSource order true] }
    else s
  if replaces p s.selected_row current then { s with max_pos := current_pos, selected_row := some current }
  else s

/-- The body of `merge`'s loop for a row popped: a new key writes the previous key's row out,
    then the row joins its key. -/
def mergeRow (s : State ρ κ) (merged : List ρ) (merged_rows : Nat) (order : Nat) (current : ρ) :
    State ρ κ × List ρ × Nat :=
  if keyDiffers p s current then
    let (s, merged, merged_rows) := insertRow p s merged merged_rows
    (takeRow p { s with selected_row := none } order current, merged, merged_rows)
  else (takeRow p s order current, merged, merged_rows)

/-- `merge`: the rows the queue pops, each with the number of its part, until the queue is empty
    (the last key's row is written, and the stream is finished) or the block is full at a new
    key (the row stays in the queue); the state, the block and the rows left. -/
def merge (s : State ρ κ) (merged : List ρ) (merged_rows : Nat) :
    List (Nat × ρ) → State ρ κ × List ρ × List (Nat × ρ)
  | [] =>
    let (s, merged, _) := insertRow p s merged merged_rows
    ({ s with finished := true }, merged, [])
  | (order, current) :: queue =>
    if keyDiffers p s current && decide (p.max_block_size ≤ merged_rows) then
      (s, merged, (order, current) :: queue)
    else
      let (s, merged, merged_rows) := mergeRow p s merged merged_rows order current
      merge s merged merged_rows queue

/-- `readImpl`: the next block, or `none` for the empty block that ends the stream; also when no
    part has a row (`merged_columns.empty()`: no source block has columns to clone). -/
def readImpl (s : State ρ κ) (queue : List (Nat × ρ)) : Option (List ρ) × State ρ κ × List (Nat × ρ) :=
  if s.finished then (none, s, queue)
  else if queue = [] then (none, s, queue)
  else
    let (s, merged, queue) := merge p s [] 0 queue
    (some merged, s, queue)

/-- The rows of the blocks of `n` reads, or of the reads up to the end of the stream. -/
def readAll : Nat → State ρ κ → List (Nat × ρ) → List ρ × State ρ κ
  | 0, s, _ => ([], s)
  | n + 1, s, queue =>
    match readImpl p s queue with
    | (none, s, _) => ([], s)
    | (some block, s, queue) =>
      let (rest, s) := readAll n s queue
      (block ++ rest, s)

/-- The stream on the parts `parts`, read to its end: every block but the last holds a row. -/
def readParts (parts : List (List ρ)) : List ρ × State ρ κ :=
  readAll p ((kmerge p.key parts).length + 1) State.init (kmerge p.key parts)

/-- The rows of `ReplacingSorted` on the parts `parts`. -/
def replace (parts : List (List ρ)) : List ρ := (readParts p parts).1

end Stream

/-! ## What each step does to the state -/

section Fields

variable {p : Params ρ κ ν} {s : State ρ κ} {merged : List ρ} {merged_rows order : Nat} {current : ρ}

@[simp] theorem insertRow_merged : (insertRow p s merged merged_rows).2.1 = merged ++ s.selected_row.toList := by
  unfold insertRow
  cases p.out_row_sources <;> rfl

@[simp] theorem insertRow_current_key : (insertRow p s merged merged_rows).1.current_key = s.current_key := by
  unfold insertRow
  cases p.out_row_sources <;> rfl

@[simp] theorem insertRow_finished : (insertRow p s merged merged_rows).1.finished = s.finished := by
  unfold insertRow
  cases p.out_row_sources <;> rfl

@[simp] theorem insertRow_current_row_sources :
    (insertRow p s merged merged_rows).1.current_row_sources =
      if p.out_row_sources then [] else s.current_row_sources := by
  unfold insertRow
  cases p.out_row_sources <;> rfl

@[simp] theorem insertRow_row_sources :
    (insertRow p s merged merged_rows).1.row_sources =
      if p.out_row_sources then s.row_sources ++ s.current_row_sources.modify s.max_pos (·.setSkipFlag false)
      else s.row_sources := by
  unfold insertRow
  cases p.out_row_sources <;> rfl

variable [LinearOrder ν]

@[simp] theorem takeRow_current_key : (takeRow p s order current).current_key = some (p.key current) := by
  dsimp only [takeRow]
  split_ifs <;> rfl

@[simp] theorem takeRow_row_sources : (takeRow p s order current).row_sources = s.row_sources := by
  dsimp only [takeRow]
  split_ifs <;> rfl

@[simp] theorem takeRow_finished : (takeRow p s order current).finished = s.finished := by
  dsimp only [takeRow]
  split_ifs <;> rfl

@[simp] theorem takeRow_current_row_sources :
    (takeRow p s order current).current_row_sources =
      if p.out_row_sources then s.current_row_sources ++ [.ofSource order true] else s.current_row_sources := by
  dsimp only [takeRow]
  split_ifs <;> rfl

@[simp] theorem takeRow_selected_row :
    (takeRow p s order current).selected_row =
      if replaces p s.selected_row current then some current else s.selected_row := by
  dsimp only [takeRow]
  split_ifs <;> rfl

@[simp] theorem takeRow_max_pos :
    (takeRow p s order current).max_pos =
      if replaces p s.selected_row current then s.current_row_sources.length else s.max_pos := by
  dsimp only [takeRow]
  split_ifs <;> rfl

end Fields

/-! ## The row sources -/

section RowSources

/-- The row sources of the rows `rows` with the skip flags `flags`. -/
def rowSources (rows : List (Nat × ρ)) (flags : List Bool) : List RowSourcePart :=
  (rows.zip flags).map fun e => .ofSource e.1.1 e.2

/-- The rows whose skip flag is clear: what a gather by the row sources keeps of them. -/
def kept (rows : List (Nat × ρ)) (flags : List Bool) : List ρ :=
  ((rows.zip flags).filter fun e => !e.2).map fun e => e.1.2

theorem rowSources_append {rows rows' : List (Nat × ρ)} {flags flags' : List Bool}
    (h : flags.length = rows.length) :
    rowSources (rows ++ rows') (flags ++ flags') = rowSources rows flags ++ rowSources rows' flags' := by
  simp [rowSources, List.zip_append h.symm]

theorem kept_append {rows rows' : List (Nat × ρ)} {flags flags' : List Bool} (h : flags.length = rows.length) :
    kept (rows ++ rows') (flags ++ flags') = kept rows flags ++ kept rows' flags' := by
  simp [kept, List.zip_append h.symm]

theorem rowSources_replicate (cur : List (Nat × ρ)) (flag : Bool) :
    rowSources cur (List.replicate cur.length flag) = cur.map fun e => .ofSource e.1 flag := by
  induction cur with
  | nil => rfl
  | cons e cur ih =>
    rw [List.length_cons, List.replicate_succ, List.map_cons, ← ih]
    rfl

/-- Clearing the skip flag at `j` of a key's row sources. -/
theorem modify_rowSources (cur : List (Nat × ρ)) (j : Nat) :
    (cur.map fun e => RowSourcePart.ofSource e.1 true).modify j (·.setSkipFlag false) =
      rowSources cur ((List.replicate cur.length true).set j false) := by
  induction cur generalizing j with
  | nil => simp [rowSources]
  | cons e cur ih =>
    cases j with
    | zero =>
      rw [List.map_cons, List.modify_zero_cons, RowSourcePart.ofSource_setSkipFlag, List.length_cons,
        List.replicate_succ, List.set_cons_zero, ← rowSources_replicate]
      rfl
    | succ j =>
      simp only [List.map_cons, List.modify_succ_cons, ih, List.length_cons, List.replicate_succ,
        List.set_cons_succ]
      rfl

/-- Of a key's rows only the one at `j` is kept. -/
theorem kept_set {cur : List (Nat × ρ)} {j : Nat} {a : ρ} (h : (cur.map Prod.snd)[j]? = some a) :
    kept cur ((List.replicate cur.length true).set j false) = [a] := by
  induction cur generalizing j with
  | nil => cases h
  | cons e cur ih =>
    cases j with
    | zero =>
      simp only [List.map_cons, List.getElem?_cons_zero, Option.some.injEq] at h
      subst h
      simp only [kept, List.length_cons, List.replicate_succ, List.set_cons_zero, List.zip_cons_cons,
        List.filter_cons, Bool.not_false, if_true, List.map_cons]
      rw [List.filter_eq_nil_iff.mpr]
      · rfl
      · intro f hf
        rw [(List.of_mem_zip hf).2 |> List.eq_of_mem_replicate]
        simp
    | succ j =>
      simp only [List.map_cons, List.getElem?_cons_succ] at h
      have := ih h
      simp only [kept, List.length_cons, List.replicate_succ, List.set_cons_succ, List.zip_cons_cons,
        List.filter_cons, Bool.not_true] at this ⊢
      exact this

end RowSources

/-! ## The invariant -/

section Invariant

variable [LinearOrder ν] {p : Params ρ κ ν}

/-- The version test is a total preorder. -/
theorem newer_total (a b : ρ) : newer p a b = true ∨ newer p b a = true := by
  unfold newer
  cases p.version with
  | none => exact .inl rfl
  | some version => simpa using le_total (version a) (version b)

theorem newer_trans (a b c : ρ) : newer p a b = true → newer p b c = true → newer p a c = true := by
  unfold newer
  cases p.version with
  | none => intro _ _; rfl
  | some version =>
    simp only [decide_eq_true_eq]
    exact le_trans

variable [LinearOrder κ]

variable (p) in
/-- After the rows `done`, all written out, the stream has given `out`: the winner of each key of
    `done`, and the row sources of `done`, the skip flag clear exactly on the rows given. -/
structure Flushed (s : State ρ κ) (done : List (Nat × ρ)) (out : List ρ) : Prop where
  winners : Winners p.key (newer p) out (done.map Prod.snd)
  row_sources : ∃ flags : List Bool, flags.length = done.length ∧
    s.row_sources = (if p.out_row_sources then rowSources done flags else []) ∧
    (p.out_row_sources = true → kept done flags = out)

variable (p) in
/-- Between two rows: of the rows popped, `done` are written out and `cur` are those of the
    current key, whose selected row is their winner, at `max_pos`. -/
structure Inv (s : State ρ κ) (done cur : List (Nat × ρ)) (out : List ρ) : Prop extends Flushed p s done out where
  current_key : ∀ e ∈ cur, s.current_key = some (p.key e.2)
  cur_nil : cur = [] → done = [] ∧ s.current_key = none
  done_lt : ∀ e ∈ done, ∀ e' ∈ cur, p.key e.2 < p.key e'.2
  selected_row : s.selected_row = lastMax (newer p) (cur.map Prod.snd)
  current_row_sources :
    s.current_row_sources = if p.out_row_sources then cur.map (fun e => .ofSource e.1 true) else []
  max_pos : p.out_row_sources = true → (cur.map Prod.snd)[s.max_pos]? = s.selected_row
  not_finished : s.finished = false

theorem Flushed.congr {s s' : State ρ κ} {done : List (Nat × ρ)} {out : List ρ} (h : Flushed p s done out)
    (hrs : s'.row_sources = s.row_sources) : Flushed p s' done out :=
  ⟨h.winners, by rw [hrs]; exact h.row_sources⟩

theorem inv_init : Inv p State.init [] [] [] where
  winners := winners_nil
  row_sources := ⟨[], rfl, by simp [State.init, rowSources], fun _ => rfl⟩
  current_key := nofun
  cur_nil _ := ⟨rfl, rfl⟩
  done_lt := nofun
  selected_row := rfl
  current_row_sources := by simp [State.init]
  max_pos _ := rfl
  not_finished := rfl

variable {s : State ρ κ} {done cur : List (Nat × ρ)} {out : List ρ}

/-- A row of the current key's. -/
theorem keyDiffers_eq_false (h : Inv p s done cur out) {x : ρ} (hx : keyDiffers p s x = false) :
    ∀ e ∈ cur, p.key e.2 = p.key x := by
  intro e he
  have hk := h.current_key e he
  simp only [keyDiffers, hk, Option.getD_some, bne_eq_false_iff_eq] at hx
  exact hx.symm

/-- A row of a new key: the current key has rows, none of the row's key. -/
theorem keyDiffers_eq_true (h : Inv p s done cur out) {x : ρ} (hx : keyDiffers p s x = true) :
    cur ≠ [] ∧ ∀ e ∈ cur, p.key e.2 ≠ p.key x := by
  refine ⟨fun hnil => ?_, fun e he => ?_⟩
  · simp [keyDiffers, (h.cur_nil hnil).2] at hx
  · have hk := h.current_key e he
    simp only [keyDiffers, hk, Option.getD_some, bne_iff_ne, ne_eq] at hx
    exact fun heq => hx heq.symm

/-- A row of the current key joins it. -/
theorem Inv.takeRow_same (h : Inv p s done cur out) {order : Nat} {x : ρ} (hk : ∀ e ∈ cur, p.key e.2 = p.key x) :
    Inv p (takeRow p s order x) done (cur ++ [(order, x)]) out where
  toFlushed := h.toFlushed.congr takeRow_row_sources
  current_key e he := by
    rcases List.mem_append.mp he with he | he
    · rw [takeRow_current_key, hk e he]
    · rw [List.mem_singleton.mp he, takeRow_current_key]
  cur_nil hnil := absurd hnil (by simp)
  done_lt d hd e he := by
    rcases List.mem_append.mp he with he | he
    · exact h.done_lt d hd e he
    · rw [List.mem_singleton.mp he]
      by_cases hcur : cur = []
      · rw [(h.cur_nil hcur).1] at hd
        cases hd
      · obtain ⟨e', he'⟩ := List.exists_mem_of_ne_nil _ hcur
        rw [← hk e' he']
        exact h.done_lt d hd e' he'
  selected_row := by
    rw [takeRow_selected_row, List.map_append, List.map_singleton, lastMax_append_singleton, h.selected_row]
    cases lastMax (newer p) (cur.map Prod.snd) with
    | none => rfl
    | some a =>
      simp only [replaces, LastMax.push, LastMax.pick]
      by_cases hn : newer p a x = true <;> simp [hn]
  current_row_sources := by
    rw [takeRow_current_row_sources, h.current_row_sources]
    cases p.out_row_sources <;> simp
  max_pos hout := by
    rw [takeRow_max_pos, takeRow_selected_row]
    split
    · rw [h.current_row_sources, if_pos hout]
      simp
    · -- the position stays, inside the rows before `x`
      have hlt : s.max_pos < (cur.map Prod.snd).length := by
        by_contra hge
        have hnone := List.getElem?_eq_none (Nat.le_of_not_lt hge)
        rw [h.max_pos hout, h.selected_row] at hnone
        rename_i hrep
        rw [h.selected_row, hnone] at hrep
        exact hrep rfl
      rw [List.map_append, List.getElem?_append_left hlt, h.max_pos hout]
  not_finished := by rw [takeRow_finished, h.not_finished]

/-- The first row of a key, after all the rows written out. -/
theorem Flushed.takeRow_start (h : Flushed p s done out) (hc : s.current_row_sources = [])
    (hsel : s.selected_row = none) (hfin : s.finished = false) {order : Nat} {x : ρ}
    (hlt : ∀ e ∈ done, p.key e.2 < p.key x) : Inv p (takeRow p s order x) done [(order, x)] out where
  toFlushed := h.congr takeRow_row_sources
  current_key e he := by rw [List.mem_singleton.mp he, takeRow_current_key]
  cur_nil hnil := absurd hnil (by simp)
  done_lt d hd e he := by
    rw [List.mem_singleton.mp he]
    exact hlt d hd
  selected_row := by simp [hsel, replaces]
  current_row_sources := by
    rw [takeRow_current_row_sources, hc]
    cases p.out_row_sources <;> rfl
  max_pos _ := by simp [hsel, hc, replaces]
  not_finished := by rw [takeRow_finished, hfin]

/-- Writing the current key's row out. -/
theorem Inv.flush (h : Inv p s done cur out) (merged : List ρ) (merged_rows : Nat) {pre : List ρ}
    (hout : out = pre ++ merged) :
    Flushed p (insertRow p s merged merged_rows).1 (done ++ cur) (pre ++ (insertRow p s merged merged_rows).2.1) ∧
      (insertRow p s merged merged_rows).1.current_row_sources = [] := by
  obtain ⟨flags, hlen, hrs, hkept⟩ := h.row_sources
  refine ⟨⟨?_, ?_⟩, ?_⟩
  · rw [insertRow_merged, ← List.append_assoc, ← hout, h.selected_row, List.map_append]
    cases cur with
    | nil => simpa using h.winners
    | cons e₀ cur' =>
      -- the current key's rows are all of the key of the first, after those written out
      apply h.winners.append_group (c := p.key e₀.2)
      · intro x hx
        obtain ⟨e, he, rfl⟩ := List.mem_map.mp hx
        have hk := h.current_key e he
        rw [h.current_key e₀ List.mem_cons_self, Option.some.injEq] at hk
        exact hk.symm
      · intro x hx
        obtain ⟨d, hd, rfl⟩ := List.mem_map.mp hx
        exact h.done_lt d hd e₀ List.mem_cons_self
  · refine ⟨flags ++ (List.replicate cur.length true).set s.max_pos false, by simp [hlen], ?_, fun hon => ?_⟩
    · rw [insertRow_row_sources, hrs, h.current_row_sources]
      cases p.out_row_sources
      · rfl
      · simp only [if_true]
        rw [modify_rowSources, rowSources_append hlen]
    · rw [kept_append hlen, hkept hon, insertRow_merged, hout, List.append_assoc]
      congr 2
      cases hsel : s.selected_row with
      | none =>
        rw [h.selected_row, lastMax_eq_none_iff, List.map_eq_nil_iff] at hsel
        subst hsel
        rfl
      | some a => exact kept_set ((h.max_pos hon).trans hsel)
  · rw [insertRow_current_row_sources, h.current_row_sources]
    cases p.out_row_sources <;> rfl

/-- One row popped: written out with its key's rows, or joining them. -/
theorem Inv.mergeRow {pre merged : List ρ} (h : Inv p s done cur (pre ++ merged)) (merged_rows order : Nat)
    {x : ρ} (hx : ∀ e ∈ done ++ cur, p.key e.2 ≤ p.key x) :
    ∃ done' cur', done' ++ cur' = done ++ cur ++ [(order, x)] ∧
      Inv p (mergeRow p s merged merged_rows order x).1 done' cur' (pre ++ (mergeRow p s merged merged_rows order x).2.1) := by
  cases hd : keyDiffers p s x
  · refine ⟨done, cur ++ [(order, x)], by simp, ?_⟩
    simp only [ReplacingSorted.mergeRow, hd, Bool.false_eq_true, if_false]
    exact h.takeRow_same (keyDiffers_eq_false h hd)
  · -- a new key: the current key's row is written out, and `x` starts its key
    obtain ⟨hne, hk⟩ := keyDiffers_eq_true h hd
    obtain ⟨hf, hc⟩ := h.flush merged merged_rows rfl
    refine ⟨done ++ cur, [(order, x)], rfl, ?_⟩
    have hrow : ReplacingSorted.mergeRow p s merged merged_rows order x =
        (takeRow p { (insertRow p s merged merged_rows).1 with selected_row := none } order x,
          (insertRow p s merged merged_rows).2.1, (insertRow p s merged merged_rows).2.2) := by
      unfold ReplacingSorted.mergeRow
      rw [if_pos hd]
    rw [hrow]
    apply Flushed.takeRow_start (s := { (insertRow p s merged merged_rows).1 with selected_row := none })
      (hf.congr rfl) hc rfl (by rw [insertRow_finished, h.not_finished])
    intro e he
    rcases List.mem_append.mp he with hd' | hc'
    · obtain ⟨e', he'⟩ := List.exists_mem_of_ne_nil _ hne
      exact lt_of_lt_of_le (h.done_lt e hd' e' he') (hx e' (List.mem_append_right _ he'))
    · exact lt_of_le_of_ne (hx e he) (hk e hc')

/-- `merge` on the rows `queue`: it takes some of them (at least one, if the block is not full
    yet), and either it has taken them all and written every key out, or the invariant holds. -/
theorem Inv.merge {pre : List ρ} :
    ∀ (queue : List (Nat × ρ)) {s : State ρ κ} {done cur : List (Nat × ρ)} {merged merged' : List ρ}
      {merged_rows : Nat} {s' : State ρ κ} {rest : List (Nat × ρ)},
      Inv p s done cur (pre ++ merged) → SortedKey p.key ((done ++ cur ++ queue).map Prod.snd) →
      ReplacingSorted.merge p s merged merged_rows queue = (s', merged', rest) →
      ∃ consumed, queue = consumed ++ rest ∧ (queue ≠ [] → merged_rows < p.max_block_size → consumed ≠ []) ∧
        (rest = [] → Flushed p s' (done ++ cur ++ queue) (pre ++ merged') ∧ s'.finished = true) ∧
        (rest ≠ [] → ∃ done' cur', done' ++ cur' = done ++ cur ++ consumed ∧ Inv p s' done' cur' (pre ++ merged'))
  | [], s, done, cur, merged, merged', merged_rows, s', rest, h, _, hr => by
    simp only [ReplacingSorted.merge, Prod.mk.injEq] at hr
    obtain ⟨rfl, rfl, rfl⟩ := hr
    obtain ⟨hf, -⟩ := h.flush merged merged_rows rfl
    refine ⟨[], rfl, nofun, fun _ => ⟨?_, rfl⟩, nofun⟩
    rw [List.append_nil]
    exact hf.congr rfl
  | (order, x) :: queue, s, done, cur, merged, merged', merged_rows, s', rest, h, hsorted, hr => by
    simp only [ReplacingSorted.merge] at hr
    split at hr
    · -- the block is full at a new key: `x` stays in the queue
      rename_i hcut
      simp only [Prod.mk.injEq] at hr
      obtain ⟨rfl, rfl, rfl⟩ := hr
      simp only [Bool.and_eq_true, decide_eq_true_eq] at hcut
      exact ⟨[], rfl, fun _ hlt => absurd hcut.2 (Nat.not_le.mpr hlt), nofun,
        fun _ => ⟨done, cur, by simp, h⟩⟩
    · -- `x` is taken, and the loop goes on with the rest
      have hx : ∀ e ∈ done ++ cur, p.key e.2 ≤ p.key x := by
        intro e he
        unfold SortedKey at hsorted
        rw [List.map_append, List.pairwise_append] at hsorted
        exact hsorted.2.2 e.2 (List.mem_map_of_mem he) x (by simp)
      obtain ⟨done₁, cur₁, heq, h₁⟩ := h.mergeRow merged_rows order hx
      have hall : done₁ ++ cur₁ ++ queue = done ++ cur ++ (order, x) :: queue := by
        rw [heq]
        simp
      obtain ⟨consumed, hq, -, hfin, hinv⟩ := Inv.merge queue h₁ (hall ▸ hsorted) hr
      refine ⟨(order, x) :: consumed, by rw [hq]; rfl, fun _ _ => by simp, fun hrest => hall ▸ hfin hrest,
        fun hrest => ?_⟩
      obtain ⟨done', cur', heq', hinv'⟩ := hinv hrest
      exact ⟨done', cur', by rw [heq', heq]; simp, hinv'⟩

/-- A finished stream gives nothing more. -/
theorem readAll_of_finished {s : State ρ κ} (hs : s.finished = true) (n : Nat) (queue : List (Nat × ρ)) :
    readAll p n s queue = ([], s) := by
  cases n with
  | zero => rfl
  | succ n => simp [readAll, readImpl, hs]

/-- Read to its end, the stream has given the winner of every key and written every row's source. -/
theorem Inv.readAll (hblock : 0 < p.max_block_size) :
    ∀ (n : Nat) {s : State ρ κ} {done cur queue : List (Nat × ρ)} {pre : List ρ},
      Inv p s done cur pre → (queue = [] → cur = []) → SortedKey p.key ((done ++ cur ++ queue).map Prod.snd) →
      queue.length ≤ n → Flushed p (readAll p n s queue).2 (done ++ cur ++ queue) (pre ++ (readAll p n s queue).1)
  | n, s, done, cur, [], pre, h, hq, _, _ => by
    -- no row left: nothing was popped but written out
    have hnil := hq rfl
    subst hnil
    have hread : ReplacingSorted.readAll p n s [] = ([], s) := by
      cases n with
      | zero => rfl
      | succ n => simp [ReplacingSorted.readAll, readImpl, h.not_finished]
    rw [hread]
    simpa using h.toFlushed
  | 0, _, _, _, _ :: _, _, _, _, _, hn => absurd hn (by simp)
  | n + 1, s, done, cur, (order, x) :: queue, pre, h, _, hsorted, hn => by
    rcases hm : ReplacingSorted.merge p s [] 0 ((order, x) :: queue) with ⟨s₁, merged, rest⟩
    obtain ⟨consumed, hq, hprog, hfin, hinv⟩ := Inv.merge ((order, x) :: queue) (by simpa using h) hsorted hm
    have hread : ReplacingSorted.readAll p (n + 1) s ((order, x) :: queue) =
        (merged ++ (ReplacingSorted.readAll p n s₁ rest).1, (ReplacingSorted.readAll p n s₁ rest).2) := by
      simp [ReplacingSorted.readAll, readImpl, h.not_finished, hm]
    rw [hread]
    by_cases hrest : rest = []
    · -- the block took every row: the stream is finished
      subst hrest
      obtain ⟨hf, hdone⟩ := hfin rfl
      simpa [readAll_of_finished hdone] using hf
    · obtain ⟨done', cur', heq, hinv'⟩ := hinv hrest
      have hlen : rest.length ≤ n := by
        have hne := List.length_pos_of_ne_nil (hprog (List.cons_ne_nil _ _) hblock)
        have hsplit : ((order, x) :: queue).length = consumed.length + rest.length := by
          rw [hq, List.length_append]
        omega
      have hall : done' ++ cur' ++ rest = done ++ cur ++ (order, x) :: queue := by
        rw [heq, hq]
        simp
      have hnext := Inv.readAll hblock n hinv' (fun h => absurd h hrest) (hall ▸ hsorted) hlen
      rw [hall] at hnext
      rw [← List.append_assoc]
      exact hnext

end Invariant

/-! ## Replacing whole parts -/

section Parts

variable [LinearOrder κ] [LinearOrder ν] {p : Params ρ κ ν}

/-- On sorted parts the stream gives the winner of each key of the merge, and the row source of
    each row of the merge, the skip flag clear on the rows given. -/
theorem readParts_flushed (hblock : 0 < p.max_block_size) {parts : List (List ρ)}
    (hsorted : ∀ s ∈ parts, SortedKey p.key s) :
    Flushed p (readParts p parts).2 (kmerge p.key parts) (replace p parts) := by
  have hrows : SortedKey p.key (([] ++ [] ++ kmerge p.key parts).map Prod.snd) := by
    simpa using sortedKey_kmerge hsorted
  have h := inv_init.readAll hblock ((kmerge p.key parts).length + 1) (fun _ => rfl) hrows (Nat.le_succ _)
  simpa [readParts, replace] using h

theorem replace_winners (hblock : 0 < p.max_block_size) {parts : List (List ρ)}
    (hsorted : ∀ s ∈ parts, SortedKey p.key s) :
    Winners p.key (newer p) (replace p parts) ((kmerge p.key parts).map Prod.snd) :=
  (readParts_flushed hblock hsorted).winners

/-- Replacing the results of replacing each group of parts is replacing all the parts: the winner
    of a key over the groups' winners is its winner over all the rows. -/
theorem replace_flatten (hblock : 0 < p.max_block_size) {groups : List (List (List ρ))}
    (hsorted : ∀ g ∈ groups, ∀ s ∈ g, SortedKey p.key s) :
    replace p (groups.map (replace p)) = replace p groups.flatten := by
  have hall : ∀ s ∈ groups.flatten, SortedKey p.key s := by
    intro s hs
    obtain ⟨g, hg, hs⟩ := List.mem_flatten.mp hs
    exact hsorted g hg s hs
  have hgroup : ∀ g ∈ groups, Winners p.key (newer p) (replace p g) ((kmerge p.key g).map Prod.snd) :=
    fun g hg => replace_winners hblock (hsorted g hg)
  -- each group's result is sorted by key, so it is a part the outer merge can take
  have hsorted' : ∀ s ∈ groups.map (replace p), SortedKey p.key s := by
    intro s hs
    obtain ⟨g, hg, rfl⟩ := List.mem_map.mp hs
    exact (hgroup g hg).1.imp le_of_lt
  have hL := replace_winners hblock hsorted'
  refine Winners.unique ⟨hL.1, fun k => ?_⟩ (replace_winners hblock hall)
  rw [hL.2 k, filter_kmerge hsorted' k, filter_kmerge hall k]
  have hper : (groups.map (replace p)).flatMap (List.filter fun x => p.key x = k) =
      groups.flatMap fun g => (lastMax (newer p) (g.flatMap (List.filter fun x => p.key x = k))).toList := by
    rw [List.flatMap_map]
    apply List.flatMap_congr
    intro g hg
    rw [(hgroup g hg).2 k, filter_kmerge (hsorted g hg) k]
  rw [hper, flatMap_flatten, lastMax_flatten newer_total newer_trans, List.flatMap_map]

end Parts

/-- `ReplacingSortedBlockInputStream` on sorted parts, whatever `max_block_size > 0` cuts its
    blocks: it gives one row per key of the parts, in key order, the last in the order of the merge
    of the rows of the greatest version of that key (the last row, without a version column); the
    row sources it writes have the skip flag clear exactly on those rows; and replacing the results
    of replacing adjacent groups of the parts gives the same rows as replacing all of them. -/
theorem replacing_merge_keeps_last_max_version [LinearOrder κ] [LinearOrder ν] (p : Params ρ κ ν)
    (hblock : 0 < p.max_block_size) (parts : List (List ρ)) (hsorted : ∀ s ∈ parts, SortedKey p.key s) :
    (replace p parts).Pairwise (fun a b => p.key a < p.key b) ∧
      (∀ r ∈ parts.flatten, ∃ x ∈ replace p parts, p.key x = p.key r) ∧
      (∀ x ∈ replace p parts,
        IsLastMax (newer p) (((kmerge p.key parts).map Prod.snd).filter fun r => p.key r = p.key x) x) ∧
      (p.out_row_sources = true → ∃ flags, (readParts p parts).2.row_sources = rowSources (kmerge p.key parts) flags ∧
        kept (kmerge p.key parts) flags = replace p parts) ∧
      ∀ groups : List (List (List ρ)), groups.flatten = parts → replace p (groups.map (replace p)) = replace p parts := by
  have hf := readParts_flushed hblock hsorted
  refine ⟨hf.winners.1, fun r hr => hf.winners.exists_out ((perm_kmerge parts).mem_iff.mpr hr),
    fun x hx => isLastMax_of_lastMax newer_total newer_trans (hf.winners.filter_key hx), fun hon => ?_,
    fun groups hgroups => ?_⟩
  · obtain ⟨flags, -, hrs, hkept⟩ := hf.row_sources
    exact ⟨flags, by rw [hrs, if_pos hon], hkept hon⟩
  · subst hgroups
    exact replace_flatten hblock fun g hg s hs => hsorted s (List.mem_flatten.mpr ⟨g, hg, hs⟩)

/-- Two parts with the key 1 at the version 2 in both, and the key 2 at the versions 1 and 0, read
    in blocks of one row with `out_row_sources_buf`. -/
theorem replacing_two_parts :
    let p : Params (Nat × Nat) Nat Nat := ⟨Prod.fst, some Prod.snd, 1, true⟩
    let parts : List (List (Nat × Nat)) := [[(1, 2), (2, 1)], [(1, 2), (2, 0)]]
    0 < p.max_block_size ∧ (∀ s ∈ parts, SortedKey p.key s) ∧
      ((replace p parts).Pairwise (fun a b => p.key a < p.key b) ∧
        (∀ r ∈ parts.flatten, ∃ x ∈ replace p parts, p.key x = p.key r) ∧
        (∀ x ∈ replace p parts,
          IsLastMax (newer p) (((kmerge p.key parts).map Prod.snd).filter fun r => p.key r = p.key x) x) ∧
        (p.out_row_sources = true → ∃ flags, (readParts p parts).2.row_sources = rowSources (kmerge p.key parts) flags ∧
          kept (kmerge p.key parts) flags = replace p parts) ∧
        ∀ groups : List (List (List (Nat × Nat))), groups.flatten = parts →
          replace p (groups.map (replace p)) = replace p parts) := by
  intro p parts
  have hblock : 0 < p.max_block_size := by decide
  have hsorted : ∀ s ∈ parts, SortedKey p.key s := by decide
  exact ⟨hblock, hsorted, replacing_merge_keeps_last_max_version p hblock parts hsorted⟩

end ReplacingSorted

end ClickHouseGpu.DataStreams
