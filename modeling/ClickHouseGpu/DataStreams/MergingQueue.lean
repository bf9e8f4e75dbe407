import ClickHouseGpu.DataStreams.MergingSorted

/-
  ClickHouseGpu.DataStreams.MergingQueue — what the queue of cursors of the sorted merges pops
  (see `ClickHouseGpu.DataStreams.MergingSorted`).

  The rows left of a source are those from its cursor on, then those of the blocks its input has
  still to give (`streams`). Between two pops every source is opened: it has a cursor in the
  queue, on the block it gave last, or it is used up (`Inv`); while the merge holds the top
  cursor, the same holds of it and the queue (`Holding`). The lemmas here are what these
  invariants rest on: the queue's order (`popsBefore_iff`, `Pairwise.push`), the rows a cursor has
  left (`drop_pos`, `next_rows`), and that each invariant only reads the inputs, the source blocks
  and the queue (`Inv.congr`, `Holding.congr`).
-/

namespace ClickHouseGpu.DataStreams

open KMerge

variable {ρ κ : Type} [LinearOrder κ] {key : ρ → κ}

/-! ## The order of the queue -/

theorem greaterAt_eq_false_iff {c d : SortCursorImpl ρ} {x y : ρ} :
    greaterAt key c d x y = false ↔ key x < key y ∨ (key x = key y ∧ c.order ≤ d.order) := by
  rcases lt_trichotomy (key x) (key y) with hlt | heq | hgt
  · simp [greaterAt, hlt, not_lt.mpr (le_of_lt hlt), ne_of_lt hlt]
  · simp [greaterAt, heq]
  · simp [greaterAt, hgt, not_lt.mpr (le_of_lt hgt), ne_of_gt hgt]

theorem popsBefore_iff {a b : SortCursorImpl ρ} :
    PopsBefore key a b ↔ key a.row < key b.row ∨ (key a.row = key b.row ∧ a.order ≤ b.order) :=
  greaterAt_eq_false_iff

/-- Of two rows of different sources, the one the queue pops first comes first in the merge. -/
theorem precedes_of_greaterAt_eq_false {c d : SortCursorImpl ρ} {x y : ρ} (h : greaterAt key c d x y = false)
    (hne : c.order ≠ d.order) : Precedes key c.order x d.order y := by
  rcases greaterAt_eq_false_iff.mp h with hlt | ⟨heq, hle⟩
  · exact .inl hlt
  · exact .inr ⟨heq, by omega⟩

instance : Std.Total (PopsBefore key) where
  total a b := by
    simp only [popsBefore_iff]
    rcases lt_trichotomy (key a.row) (key b.row) with hlt | heq | hgt
    · exact .inl (.inl hlt)
    · rcases Nat.le_total a.order b.order with h | h
      · exact .inl (.inr ⟨heq, h⟩)
      · exact .inr (.inr ⟨heq.symm, h⟩)
    · exact .inr (.inl hgt)

instance : IsTrans (SortCursorImpl ρ) (PopsBefore key) where
  trans a b c := by
    simp only [popsBefore_iff]
    rintro (hab | ⟨hab, hab'⟩) (hbc | ⟨hbc, hbc'⟩)
    · exact .inl (lt_trans hab hbc)
    · exact .inl (hbc ▸ hab)
    · exact .inl (hab ▸ hbc)
    · exact .inr ⟨hab.trans hbc, by omega⟩

theorem Pairwise.push {q : List (SortCursorImpl ρ)} (h : q.Pairwise (PopsBefore key)) (c : SortCursorImpl ρ) :
    (push key q c).Pairwise (PopsBefore key) :=
  List.Pairwise.orderedInsert c q h

theorem perm_push (q : List (SortCursorImpl ρ)) (c : SortCursorImpl ρ) : List.Perm (push key q c) (c :: q) :=
  List.perm_orderedInsert _ c q

/-! ## Cursors -/

namespace SortCursorImpl

theorem drop_pos (c : SortCursorImpl ρ) : c.rows.drop c.pos = c.row :: c.rows.drop (c.pos + 1) := by
  rw [row, List.drop_eq_getElem_cons c.pos_lt]
  rfl

theorem drop_pos_of_isLast {c : SortCursorImpl ρ} (h : c.isLast = true) : c.rows.drop (c.pos + 1) = [] := by
  simp only [isLast, decide_eq_true_eq] at h
  exact List.drop_eq_nil_of_le h

@[simp] theorem next_rows (c : SortCursorImpl ρ) (h : c.isLast = false) : (c.next h).rows = c.rows := rfl

@[simp] theorem next_pos (c : SortCursorImpl ρ) (h : c.isLast = false) : (c.next h).pos = c.pos + 1 := rfl

@[simp] theorem next_order (c : SortCursorImpl ρ) (h : c.isLast = false) : (c.next h).order = c.order := rfl

@[simp] theorem ofBlock_rows (block : List ρ) (order : Nat) (h : block ≠ []) : (ofBlock block order h).rows = block := rfl

@[simp] theorem ofBlock_pos (block : List ρ) (order : Nat) (h : block ≠ []) : (ofBlock block order h).pos = 0 := rfl

@[simp] theorem ofBlock_order (block : List ρ) (order : Nat) (h : block ≠ []) :
    (ofBlock block order h).order = order := rfl

end SortCursorImpl

/-! ## The rows left -/

/-- The rows of source `i` from its cursor in `cs` on. -/
def cursorRest (cs : List (SortCursorImpl ρ)) (i : Nat) : List ρ :=
  (cs.filter fun c => c.order == i).flatMap fun c => c.rows.drop c.pos

/-- The rows left of each input: from its cursor on, then in the blocks still to read. -/
def streams (cs : List (SortCursorImpl ρ)) (s : State ρ) : List (List ρ) :=
  (List.range s.children.length).map fun i => cursorRest cs i ++ (s.children.getD i []).flatten

theorem cursorRest_of_forall_ne {cs : List (SortCursorImpl ρ)} {i : Nat} (h : ∀ c ∈ cs, c.order ≠ i) :
    cursorRest cs i = [] := by
  rw [cursorRest, List.filter_eq_nil_iff.mpr (by simpa using h), List.flatMap_nil]

theorem cursorRest_cons_of_ne {c : SortCursorImpl ρ} {cs : List (SortCursorImpl ρ)} {i : Nat} (h : c.order ≠ i) :
    cursorRest (c :: cs) i = cursorRest cs i := by
  simp [cursorRest, h]

theorem cursorRest_cons_self {c : SortCursorImpl ρ} {cs : List (SortCursorImpl ρ)} (h : ∀ d ∈ cs, d.order ≠ c.order) :
    cursorRest (c :: cs) c.order = c.rows.drop c.pos := by
  simp only [cursorRest, List.filter_cons, beq_self_eq_true, if_true, List.flatMap_cons]
  rw [List.filter_eq_nil_iff.mpr (by simpa using h), List.flatMap_nil, List.append_nil]

/-- Each source has at most one cursor. -/
theorem length_filter_order_le_one {cs : List (SortCursorImpl ρ)} (h : (cs.map (·.order)).Nodup) (i : Nat) :
    (cs.filter fun c => c.order == i).length ≤ 1 := by
  have hsub : ((cs.filter fun c => c.order == i).map (·.order)).Sublist (cs.map (·.order)) :=
    (List.filter_sublist).map _
  have hrep : (cs.filter fun c => c.order == i).map (·.order) =
      List.replicate (cs.filter fun c => c.order == i).length i := by
    rw [List.eq_replicate_iff]
    constructor
    · simp
    · intro j hj
      simp only [List.mem_map, List.mem_filter, beq_iff_eq] at hj
      obtain ⟨c, ⟨-, hc⟩, rfl⟩ := hj
      exact hc
  have hnd := h.sublist hsub
  rw [hrep, List.nodup_replicate] at hnd
  omega

theorem eq_of_perm_of_length_le_one {l l' : List (SortCursorImpl ρ)} (hp : List.Perm l l') (hl : l.length ≤ 1) : l = l' := by
  rcases l with _ | ⟨a, _ | ⟨b, l⟩⟩
  · exact hp.nil_eq
  · exact (List.perm_singleton.mp hp.symm).symm
  · simp at hl

/-- The rows left do not depend on the layout of the cursors. -/
theorem cursorRest_perm {cs cs' : List (SortCursorImpl ρ)} (hp : List.Perm cs cs') (h : (cs.map (·.order)).Nodup) (i : Nat) :
    cursorRest cs i = cursorRest cs' i := by
  rw [cursorRest, cursorRest, eq_of_perm_of_length_le_one (hp.filter _) (length_filter_order_le_one h i)]

theorem streams_perm {cs cs' : List (SortCursorImpl ρ)} (hp : List.Perm cs cs') (h : (cs.map (·.order)).Nodup) (s : State ρ) :
    streams cs s = streams cs' s := by
  simp only [streams, cursorRest_perm hp h]

theorem getElem?_streams (cs : List (SortCursorImpl ρ)) (s : State ρ) (i : Nat) :
    (streams cs s)[i]? = if i < s.children.length then some (cursorRest cs i ++ (s.children.getD i []).flatten)
      else none := by
  by_cases hi : i < s.children.length <;> simp [streams, hi]

theorem streams_congr {cs : List (SortCursorImpl ρ)} {s s' : State ρ} (h : s'.children = s.children) :
    streams cs s' = streams cs s := by
  simp only [streams, h]

theorem cursorRest_of_mem {cs : List (SortCursorImpl ρ)} (h : (cs.map (·.order)).Nodup) {d : SortCursorImpl ρ}
    (hd : d ∈ cs) : cursorRest cs d.order = d.rows.drop d.pos := by
  have hmem : d ∈ cs.filter fun c => c.order == d.order := List.mem_filter.mpr ⟨hd, by simp⟩
  have hlen := length_filter_order_le_one h d.order
  obtain ⟨l, hl⟩ : ∃ l, cs.filter (fun c => c.order == d.order) = l := ⟨_, rfl⟩
  rw [hl] at hmem hlen
  rcases l with _ | ⟨a, _ | ⟨b, l⟩⟩
  · cases hmem
  · rw [List.mem_singleton] at hmem
    subst hmem
    simp [cursorRest, hl]
  · simp at hlen

/-! ## Blocks and their indices -/

theorem getD_modify_self {α : Type} {l : List α} {i : Nat} (hi : i < l.length) (f : α → α) (d : α) :
    (l.modify i f).getD i d = f (l.getD i d) := by
  simp [List.getD_eq_getElem?_getD, hi]

theorem getD_modify_ne {α : Type} (l : List α) {i j : Nat} (h : i ≠ j) (f : α → α) (d : α) :
    (l.modify i f).getD j d = l.getD j d := by
  simp [List.getD_eq_getElem?_getD, List.getElem?_modify_ne _ _ h]

theorem getD_set_self {α : Type} {l : List α} {i : Nat} (hi : i < l.length) (a d : α) : (l.set i a).getD i d = a := by
  simp [List.getD_eq_getElem?_getD, hi]

theorem getD_set_ne {α : Type} (l : List α) {i j : Nat} (h : i ≠ j) (a d : α) : (l.set i a).getD j d = l.getD j d := by
  simp [List.getD_eq_getElem?_getD, List.getElem?_set_ne h]

/-! ## The invariant -/

/-- The rows are sorted by the key. -/
def SortedBy (key : ρ → κ) (l : List ρ) : Prop := l.Pairwise fun a b => key a ≤ key b

/-- Source `i` has a cursor in `cs` on the block it gave last, and its rows from the start of that
    block on are sorted; or it is used up. -/
def Opened (key : ρ → κ) (cs : List (SortCursorImpl ρ)) (s : State ρ) (i : Nat) : Prop :=
  (∃ c ∈ cs, c.order = i ∧ s.source_blocks.getD i [] = c.rows ∧
      SortedBy key (c.rows ++ (s.children.getD i []).flatten)) ∨
    ((∀ c ∈ cs, c.order ≠ i) ∧ s.children.getD i [] = [] ∧ s.source_blocks.getD i [] = [])

/-- Source `i` has no cursor in `cs`, and the rows it has still to give are sorted. -/
def Unopened (key : ρ → κ) (cs : List (SortCursorImpl ρ)) (s : State ρ) (i : Nat) : Prop :=
  (∀ c ∈ cs, c.order ≠ i) ∧ SortedBy key (s.children.getD i []).flatten

/-- The cursors `cs` are of sources of the stream, one for each, and no input gives an empty
    block. -/
structure Wf (cs : List (SortCursorImpl ρ)) (s : State ρ) : Prop where
  length_source_blocks : s.source_blocks.length = s.children.length
  order_lt : ∀ c ∈ cs, c.order < s.children.length
  nodup : (cs.map (·.order)).Nodup
  blocks_ne_nil : ∀ bs ∈ s.children, ∀ b ∈ bs, b ≠ []

/-- Between two pops: every source is opened, and the queue is in its order. -/
structure Inv (key : ρ → κ) (s : State ρ) : Prop where
  wf : Wf s.queue s
  opened : ∀ i < s.children.length, Opened key s.queue s i
  sorted : s.queue.Pairwise (PopsBefore key)

/-- The merge holds the cursor `c`, popped from the queue. -/
structure Holding (key : ρ → κ) (c : SortCursorImpl ρ) (s : State ρ) : Prop where
  wf : Wf (c :: s.queue) s
  opened : ∀ i < s.children.length, Opened key (c :: s.queue) s i
  sorted : s.queue.Pairwise (PopsBefore key)

section Congr

variable {cs : List (SortCursorImpl ρ)} {s s' : State ρ}

theorem Wf.congr (h : Wf cs s) (hc : s'.children = s.children) (hb : s'.source_blocks = s.source_blocks) : Wf cs s' where
  length_source_blocks := by rw [hc, hb]; exact h.length_source_blocks
  order_lt := by rw [hc]; exact h.order_lt
  nodup := h.nodup
  blocks_ne_nil := by rw [hc]; exact h.blocks_ne_nil

theorem Opened.congr {i : Nat} (h : Opened key cs s i) (hc : s'.children = s.children)
    (hb : s'.source_blocks = s.source_blocks) : Opened key cs s' i := by
  simpa only [Opened, hc, hb] using h

theorem Inv.congr (h : Inv key s) (hc : s'.children = s.children) (hb : s'.source_blocks = s.source_blocks)
    (hq : s'.queue = s.queue) : Inv key s' where
  wf := by rw [hq]; exact h.wf.congr hc hb
  opened i hi := by rw [hq]; exact (h.opened i (hc ▸ hi)).congr hc hb
  sorted := by rw [hq]; exact h.sorted

theorem Holding.congr {c : SortCursorImpl ρ} (h : Holding key c s) (hc : s'.children = s.children)
    (hb : s'.source_blocks = s.source_blocks) (hq : s'.queue = s.queue) : Holding key c s' where
  wf := by rw [hq]; exact h.wf.congr hc hb
  opened i hi := by rw [hq]; exact (h.opened i (hc ▸ hi)).congr hc hb
  sorted := by rw [hq]; exact h.sorted

end Congr

end ClickHouseGpu.DataStreams
