import ClickHouseGpu.DataStreams.MergingQueue

/-
  ClickHouseGpu.DataStreams.MergingSortedOutput — what `MergingSortedBlockInputStream` gives (see
  `ClickHouseGpu.DataStreams.MergingSorted`): with no limit, its blocks one after another are the
  k-way merge of its inputs (`KMerge.kmerge`), for any inputs sorted by the sort description.

  The rows the stream has still to give (`pending`) are the merge of the rows each source has
  left (`streams`). Every part of the stream takes rows off the front of it:
  - opening a source reads its next block and puts a cursor on it, and leaves the rows left as
    they are (`pending_openSource`); `init` opens every source (`init_spec`);
  - the loop on the popped cursor (`mergeCurrent_spec`) gives a whole block that comes before
    every other cursor's row (`pending_block`), or the cursor's rows while it stays on top
    (`pending_next`, `pending_last`); `merge` runs it until the block is full or the queue is
    empty (`mergeLoop_spec`);
  - a `read` that gives a block gives it off the front of `pending` (`Reading.read_some`), and
    one that gives none finds nothing pending (`Reading.pending_eq_nil_of_read`).
  Each read that gives a block lowers the rows pending or ends the stream (`progress`), so enough
  reads give them all (`readAll_of_reading`). A single input is passed through (`readAll_single`).

  Proved: `readAll_eq_kmerge`: with no limit, on inputs whose blocks have rows and whose rows are
  sorted by the key, the stream gives the k-way merge of the inputs.
-/

namespace ClickHouseGpu.DataStreams

open KMerge

variable {ρ κ : Type} [LinearOrder κ]

/-- The rows the merge has still to give with the cursors `cs`: the k-way merge of the rows left
    of each source. -/
def pending (key : ρ → κ) (cs : List (SortCursorImpl ρ)) (s : State ρ) : List ρ :=
  (kmerge key (streams cs s)).map Prod.snd

/-- `s'` reads the inputs of `s`, with its flags. -/
structure Frame (s s' : State ρ) : Prop where
  length : s'.children.length = s.children.length
  first : s'.first = s.first
  finished : s'.finished = s.finished
  is_cancelled : s'.is_cancelled = s.is_cancelled

theorem Frame.refl (s : State ρ) : Frame s s := ⟨rfl, rfl, rfl, rfl⟩

theorem Frame.with_queue {s s' : State ρ} (h : Frame s s') (q : List (SortCursorImpl ρ)) :
    Frame s { s' with queue := q } :=
  ⟨h.length, h.first, h.finished, h.is_cancelled⟩

theorem Frame.trans {s s' s'' : State ρ} (h : Frame s s') (h' : Frame s' s'') : Frame s s'' :=
  ⟨h'.length.trans h.length, h'.first.trans h.first, h'.finished.trans h.finished,
    h'.is_cancelled.trans h.is_cancelled⟩

theorem State.exists_writeRowSources_eq (b : Bool) (s : State ρ) (r : List RowSourcePart) :
    ∃ rs, s.writeRowSources b r = { s with row_sources := rs } := by
  unfold State.writeRowSources
  split
  · exact ⟨_, rfl⟩
  · exact ⟨s.row_sources, rfl⟩

theorem mem_modify {α : Type} {l : List α} {i : Nat} {f : α → α} {x : α} (h : x ∈ l.modify i f) :
    x ∈ l ∨ ∃ y ∈ l, x = f y := by
  obtain ⟨k, hk⟩ := List.mem_iff_getElem?.mp h
  rw [List.getElem?_modify] at hk
  cases hl : l[k]? with
  | none => simp [hl] at hk
  | some y =>
    have hy : y ∈ l := List.mem_of_getElem? hl
    simp only [hl, Option.map_eq_map, Option.map_some, Option.some.injEq] at hk
    split at hk
    · exact .inr ⟨y, hy, hk.symm⟩
    · exact .inl (hk ▸ hy)

/-! ## Opening a source -/

section Open

variable {key : ρ → κ} {p : Params ρ κ} {cs : List (SortCursorImpl ρ)} {s : State ρ} {i : Nat}

theorem Wf.ne_nil_of_getD (h : Wf cs s) {b : List ρ} {bs : List (List ρ)} (hget : s.children.getD i [] = b :: bs) :
    b ≠ [] := by
  rw [List.getD_eq_getElem?_getD] at hget
  cases hc : s.children[i]? with
  | none => simp [hc] at hget
  | some bs' =>
    rw [hc, Option.getD_some] at hget
    exact h.blocks_ne_nil bs' (List.mem_of_getElem? hc) b (by simp [hget])

/-- What opening source `i` does: it reads the source's next block into `source_blocks`, and
    pushes a cursor of source `i` when the block has rows. -/
theorem openSource_eq (p : Params ρ κ) (i : Nat) (s : State ρ) :
    ∃ q, openSource p i s = { s with
        children := s.children.modify i List.tail
        source_blocks := s.source_blocks.set i ((s.children.getD i []).headD [])
        queue := q } ∧
      (q = s.queue ∨ ∃ c : SortCursorImpl ρ, c.order = i ∧ q = push p.key s.queue c) := by
  by_cases hb : (s.children.getD i []).headD [] = []
  · exact ⟨s.queue, by simp only [openSource, State.readChild, hb, dite_true], .inl rfl⟩
  · refine ⟨_, ?_, .inr ⟨SortCursorImpl.ofBlock _ i hb, rfl, rfl⟩⟩
    simp only [openSource, State.readChild]
    exact dif_neg hb

theorem openSource_of_getD_nil (h : s.children.getD i [] = []) :
    openSource p i s = { s with children := s.children.modify i List.tail, source_blocks := s.source_blocks.set i [] } := by
  simp only [openSource, State.readChild, h, List.headD_nil, dite_true]

theorem openSource_of_getD_cons {b : List ρ} {bs : List (List ρ)} (h : s.children.getD i [] = b :: bs) (hb : b ≠ []) :
    openSource p i s = { s with
      children := s.children.modify i List.tail
      source_blocks := s.source_blocks.set i b
      queue := push p.key s.queue (SortCursorImpl.ofBlock b i hb) } := by
  simp only [openSource, State.readChild, h, List.headD_cons, hb, dite_false]

theorem frame_openSource : Frame s (openSource p i s) := by
  obtain ⟨q, hq, -⟩ := openSource_eq p i s
  rw [hq]
  exact ⟨List.length_modify _ _ _, rfl, rfl, rfl⟩

/-- The cursors after opening source `i`: those before, and one of source `i`. -/
theorem mem_queue_openSource {c : SortCursorImpl ρ} :
    (c ∈ s.queue → c ∈ (openSource p i s).queue) ∧ (c ∈ (openSource p i s).queue → c ∈ s.queue ∨ c.order = i) := by
  obtain ⟨q, hq, hq'⟩ := openSource_eq p i s
  rw [hq]
  rcases hq' with rfl | ⟨d, hd, rfl⟩
  · exact ⟨id, .inl⟩
  · refine ⟨fun hc => (perm_push _ _).symm.subset (List.mem_cons_of_mem _ hc), fun hc => ?_⟩
    rcases List.mem_cons.mp ((perm_push _ _).mem_iff.mp hc) with rfl | hc
    · exact .inr hd
    · exact .inl hc

theorem sorted_openSource (h : s.queue.Pairwise (PopsBefore p.key)) :
    (openSource p i s).queue.Pairwise (PopsBefore p.key) := by
  obtain ⟨q, hq, hq'⟩ := openSource_eq p i s
  rw [hq]
  rcases hq' with rfl | ⟨d, -, rfl⟩
  · exact h
  · exact Pairwise.push h _

theorem getD_children_openSource {j : Nat} (hij : i ≠ j) :
    (openSource p i s).children.getD j [] = s.children.getD j [] := by
  obtain ⟨q, hq, -⟩ := openSource_eq p i s
  rw [hq]
  exact getD_modify_ne _ hij _ _

theorem getD_source_blocks_openSource {j : Nat} (hij : i ≠ j) :
    (openSource p i s).source_blocks.getD j [] = s.source_blocks.getD j [] := by
  obtain ⟨q, hq, -⟩ := openSource_eq p i s
  rw [hq]
  exact getD_set_ne _ hij _ _

/-- The one cursor a source's block gets, with the cursors of the other sources. -/
theorem nodup_cons_of_forall_ne (h : (cs.map (·.order)).Nodup) {c : SortCursorImpl ρ} (hno : ∀ d ∈ cs, d.order ≠ c.order) :
    ((c :: cs).map (·.order)).Nodup := by
  rw [List.map_cons, List.nodup_cons]
  refine ⟨?_, h⟩
  simp only [List.mem_map, not_exists, not_and]
  exact hno

section OpenWf

variable (hwf : Wf s.queue s) (hno : ∀ c ∈ s.queue, c.order ≠ i)
include hwf hno

theorem Wf.openSource (hi : i < s.children.length) : Wf (openSource p i s).queue (openSource p i s) := by
  have hchildren : ∀ bs ∈ s.children.modify i List.tail, ∀ b ∈ bs, b ≠ [] := by
    intro bs hbs b hb
    rcases mem_modify hbs with hbs | ⟨bs', hbs', rfl⟩
    · exact hwf.blocks_ne_nil bs hbs b hb
    · exact hwf.blocks_ne_nil bs' hbs' b (List.mem_of_mem_tail hb)
  rcases hget : s.children.getD i [] with _ | ⟨b, bs⟩
  · rw [openSource_of_getD_nil hget]
    exact ⟨by simp [hwf.length_source_blocks], by simpa using hwf.order_lt, hwf.nodup, hchildren⟩
  · have hb := hwf.ne_nil_of_getD hget
    rw [openSource_of_getD_cons hget hb]
    have hperm : List.Perm (push p.key s.queue (SortCursorImpl.ofBlock b i hb))
        (SortCursorImpl.ofBlock b i hb :: s.queue) := perm_push _ _
    refine ⟨by simp [hwf.length_source_blocks], ?_, ?_, hchildren⟩
    · intro c hc
      rcases List.mem_cons.mp ((perm_push _ _).mem_iff.mp hc) with rfl | hc
      · simpa using hi
      · simpa using hwf.order_lt c hc
    · exact (hperm.map (·.order)).symm.nodup (nodup_cons_of_forall_ne hwf.nodup (by simpa using hno))

theorem streams_openSource : streams (openSource p i s).queue (openSource p i s) = streams s.queue s := by
  have hlen := (frame_openSource (p := p) (s := s) (i := i)).length
  apply List.ext_getElem?
  intro j
  rw [getElem?_streams, getElem?_streams, hlen]
  split
  · rename_i hj
    congr 1
    rcases hget : s.children.getD i [] with _ | ⟨b, bs⟩
    · rw [openSource_of_getD_nil hget]
      by_cases hij : i = j
      · subst hij
        rw [getD_modify_self hj, hget]
        rfl
      · rw [getD_modify_ne _ hij]
    · have hb := hwf.ne_nil_of_getD hget
      rw [openSource_of_getD_cons hget hb]
      have hnd := nodup_cons_of_forall_ne (c := SortCursorImpl.ofBlock b i hb) hwf.nodup (by simpa using hno)
      dsimp only
      rw [← cursorRest_perm (perm_push _ _).symm hnd]
      by_cases hij : i = j
      · subst hij
        have hself := cursorRest_cons_self (c := SortCursorImpl.ofBlock b i hb)
          (show ∀ d ∈ s.queue, d.order ≠ (SortCursorImpl.ofBlock b i hb).order by simpa using hno)
        simp only [SortCursorImpl.ofBlock_order, SortCursorImpl.ofBlock_rows, SortCursorImpl.ofBlock_pos,
          List.drop_zero] at hself
        rw [hself, getD_modify_self hj, hget, cursorRest_of_forall_ne hno]
        simp
      · rw [cursorRest_cons_of_ne (by simpa using hij), getD_modify_ne _ hij]
  · rfl

theorem pending_openSource : pending key (openSource p i s).queue (openSource p i s) = pending key s.queue s := by
  rw [pending, pending, streams_openSource hwf hno]

/-- Opening source `i`, with its rows sorted, leaves it opened. -/
theorem opened_openSource (hi : i < s.children.length) (hsorted : SortedBy key (s.children.getD i []).flatten) :
    Opened key (openSource p i s).queue (openSource p i s) i := by
  have hib : i < s.source_blocks.length := hwf.length_source_blocks ▸ hi
  rcases hget : s.children.getD i [] with _ | ⟨b, bs⟩
  · rw [openSource_of_getD_nil hget]
    refine .inr ⟨hno, ?_, getD_set_self hib _ _⟩
    rw [getD_modify_self hi, hget]
    rfl
  · have hb := hwf.ne_nil_of_getD hget
    rw [openSource_of_getD_cons hget hb]
    refine .inl ⟨SortCursorImpl.ofBlock b i hb, (perm_push _ _).symm.subset List.mem_cons_self, rfl,
      getD_set_self hib _ _, ?_⟩
    rw [hget] at hsorted
    rw [getD_modify_self hi, hget]
    simpa using hsorted

end OpenWf

/-- Opening source `i` leaves every other source opened. -/
theorem Opened.openSource {j : Nat} (h : Opened key s.queue s j) (hij : i ≠ j) :
    Opened key (openSource p i s).queue (openSource p i s) j := by
  rw [Opened, getD_children_openSource hij, getD_source_blocks_openSource hij]
  rcases h with ⟨c, hcq, hco, hcb, hcs⟩ | ⟨hno, hnil, hbnil⟩
  · exact .inl ⟨c, mem_queue_openSource.1 hcq, hco, hcb, hcs⟩
  · refine .inr ⟨fun c hc => ?_, hnil, hbnil⟩
    rcases mem_queue_openSource.2 hc with hc | hc
    · exact hno c hc
    · rw [hc]
      exact hij

/-- Opening source `i` leaves every other source that is still to open as it was. -/
theorem Unopened.openSource {j : Nat} (h : Unopened key s.queue s j) (hij : i ≠ j) :
    Unopened key (openSource p i s).queue (openSource p i s) j := by
  obtain ⟨hno, hsorted⟩ := h
  refine ⟨fun c hc => ?_, by rwa [getD_children_openSource hij]⟩
  rcases mem_queue_openSource.2 hc with hc | hc
  · exact hno c hc
  · rw [hc]
    exact hij

end Open

/-! ## The held cursor -/

section Held

variable {key : ρ → κ} {c : SortCursorImpl ρ} {cs : List (SortCursorImpl ρ)} {s : State ρ}

theorem Wf.of_cons (h : Wf (c :: cs) s) : Wf cs s :=
  ⟨h.length_source_blocks, fun d hd => h.order_lt d (List.mem_cons_of_mem c hd), (List.nodup_cons.mp h.nodup).2,
    h.blocks_ne_nil⟩

theorem Wf.order_ne_of_cons (h : Wf (c :: cs) s) : ∀ d ∈ cs, d.order ≠ c.order := by
  intro d hd heq
  have hmem : d.order ∈ cs.map (·.order) := List.mem_map_of_mem hd
  rw [heq] at hmem
  exact (List.nodup_cons.mp h.nodup).1 hmem

theorem Wf.perm {cs' : List (SortCursorImpl ρ)} (h : Wf cs s) (hp : List.Perm cs cs') : Wf cs' s :=
  ⟨h.length_source_blocks, fun d hd => h.order_lt d (hp.symm.subset hd), (hp.map _).nodup_iff.mp h.nodup,
    h.blocks_ne_nil⟩

/-- A cursor moved along its block keeps its place among the cursors. -/
theorem Wf.cons_congr {c' : SortCursorImpl ρ} (h : Wf (c :: cs) s) (ho : c'.order = c.order) : Wf (c' :: cs) s :=
  ⟨h.length_source_blocks, fun d hd => by
    rcases List.mem_cons.mp hd with rfl | hd
    · rw [ho]
      exact h.order_lt c List.mem_cons_self
    · exact h.order_lt d (List.mem_cons_of_mem c hd), by simpa [ho] using h.nodup, h.blocks_ne_nil⟩

theorem Opened.of_cons {i : Nat} (h : Opened key (c :: cs) s i) (hi : i ≠ c.order) : Opened key cs s i := by
  rcases h with ⟨d, hd, hdo, hb, hs⟩ | ⟨hno, hnil, hbnil⟩
  · rcases List.mem_cons.mp hd with rfl | hd
    · exact absurd hdo.symm hi
    · exact .inl ⟨d, hd, hdo, hb, hs⟩
  · exact .inr ⟨fun d hd => hno d (List.mem_cons_of_mem c hd), hnil, hbnil⟩

theorem Opened.perm {cs' : List (SortCursorImpl ρ)} {i : Nat} (h : Opened key cs s i) (hp : List.Perm cs cs') :
    Opened key cs' s i := by
  rcases h with ⟨d, hd, hdo, hb, hs⟩ | ⟨hno, hnil, hbnil⟩
  · exact .inl ⟨d, hp.subset hd, hdo, hb, hs⟩
  · exact .inr ⟨fun d hd => hno d (hp.symm.subset hd), hnil, hbnil⟩

theorem Opened.cons_congr {i : Nat} {c' : SortCursorImpl ρ} (h : Opened key (c :: cs) s i) (hr : c'.rows = c.rows)
    (ho : c'.order = c.order) : Opened key (c' :: cs) s i := by
  rcases h with ⟨d, hd, hdo, hb, hs⟩ | ⟨hno, hnil, hbnil⟩
  · rcases List.mem_cons.mp hd with rfl | hd
    · exact .inl ⟨c', List.mem_cons_self, ho.trans hdo, hr ▸ hb, hr ▸ hs⟩
    · exact .inl ⟨d, List.mem_cons_of_mem c' hd, hdo, hb, hs⟩
  · refine .inr ⟨fun d hd => ?_, hnil, hbnil⟩
    rcases List.mem_cons.mp hd with rfl | hd
    · rw [ho]
      exact hno c List.mem_cons_self
    · exact hno d (List.mem_cons_of_mem c hd)

/-- Every cursor is on the block its source gave last, and the rows of its source from there on
    are sorted. -/
theorem sortedBy_of_opened (hwf : Wf cs s) (hop : ∀ i < s.children.length, Opened key cs s i) {d : SortCursorImpl ρ}
    (hd : d ∈ cs) : SortedBy key (d.rows ++ (s.children.getD d.order []).flatten) := by
  rcases hop d.order (hwf.order_lt d hd) with ⟨d', hd', hdo, -, hs⟩ | ⟨hno, -, -⟩
  · rwa [List.inj_on_of_nodup_map hwf.nodup hd' hd hdo] at hs
  · exact absurd rfl (hno d hd)

theorem Holding.sortedBy_rows (h : Holding key c s) : SortedBy key (c.rows ++ (s.children.getD c.order []).flatten) :=
  sortedBy_of_opened h.wf h.opened List.mem_cons_self

theorem Holding.next (h : Holding key c s) (hl : c.isLast = false) : Holding key (c.next hl) s :=
  ⟨h.wf.cons_congr rfl, fun i hi => (h.opened i hi).cons_congr rfl rfl, h.sorted⟩

/-- The cursor pushed back: the invariant between two pops. -/
theorem Holding.inv_push (h : Holding key c s) : Inv key { s with queue := push key s.queue c } := by
  have hp : List.Perm (push key s.queue c) (c :: s.queue) := perm_push _ _
  exact ⟨(h.wf.perm hp.symm).congr rfl rfl, fun i hi => ((h.opened i hi).perm hp.symm).congr rfl rfl,
    Pairwise.push h.sorted c⟩

/-- The next block of the cursor's source read in its place: the invariant between two pops. -/
theorem Holding.inv_openSource {p : Params ρ κ} (h : Holding p.key c s) : Inv p.key (openSource p c.order s) := by
  have hwf := h.wf.of_cons
  have hno := h.wf.order_ne_of_cons
  have hlt := h.wf.order_lt c List.mem_cons_self
  refine ⟨hwf.openSource hno hlt, fun i hi => ?_, sorted_openSource h.sorted⟩
  rw [frame_openSource.length] at hi
  by_cases hic : i = c.order
  · subst hic
    exact opened_openSource hwf hno hlt (List.pairwise_append.mp h.sortedBy_rows).2.1
  · exact ((h.opened i hi).of_cons hic).openSource (Ne.symm hic)

theorem Inv.holding (h : Inv key s) {q : List (SortCursorImpl ρ)} (hq : s.queue = c :: q) :
    Holding key c { s with queue := q } ∧ ∀ d ∈ q, PopsBefore key c d := by
  have hsorted := List.pairwise_cons.mp (hq ▸ h.sorted)
  refine ⟨⟨(hq ▸ h.wf).congr rfl rfl, fun i hi => (hq ▸ h.opened i hi).congr rfl rfl, hsorted.2⟩, hsorted.1⟩

/-! ### The rows left with the cursor held -/

@[simp] theorem cursorRest_nil (i : Nat) : cursorRest ([] : List (SortCursorImpl ρ)) i = [] := rfl

theorem cursorRest_singleton (d : SortCursorImpl ρ) : cursorRest [d] d.order = d.rows.drop d.pos :=
  cursorRest_cons_self nofun

theorem cursorRest_append (cs cs' : List (SortCursorImpl ρ)) (i : Nat) :
    cursorRest (cs ++ cs') i = cursorRest cs i ++ cursorRest cs' i := by
  simp only [cursorRest, List.filter_append, List.flatMap_append]

theorem Holding.getElem?_streams_self (h : Holding key c s) :
    (streams (c :: s.queue) s)[c.order]? = some (c.rows.drop c.pos ++ (s.children.getD c.order []).flatten) := by
  rw [getElem?_streams, if_pos (h.wf.order_lt c List.mem_cons_self), cursorRest_cons_self h.wf.order_ne_of_cons]

/-- The rows every other source has left start at its cursor in the queue. -/
theorem Holding.exists_cursor_of_head (h : Holding key c s) {j : Nat} (hj : j ≠ c.order) {y : ρ} {t : List ρ}
    (hs : (streams (c :: s.queue) s)[j]? = some (y :: t)) : ∃ d ∈ s.queue, d.order = j ∧ y = d.row := by
  rw [getElem?_streams] at hs
  split at hs
  · rename_i hjl
    rw [Option.some.injEq] at hs
    rcases h.opened j hjl with ⟨d, hd, hdo, -, -⟩ | ⟨hno, hnil, -⟩
    · rcases List.mem_cons.mp hd with rfl | hd
      · exact absurd hdo.symm hj
      · refine ⟨d, hd, hdo, ?_⟩
        rw [cursorRest_cons_of_ne (Ne.symm hj), ← hdo, cursorRest_of_mem h.wf.of_cons.nodup hd,
          SortCursorImpl.drop_pos, List.cons_append] at hs
        exact (List.cons.inj hs).1.symm
    · rw [cursorRest_of_forall_ne hno, hnil] at hs
      simp at hs
  · cases hs

/-- The held cursor's source, with the cursors `cs` of it in place of the held one. -/
theorem Holding.streams_set (h : Holding key c s) (cs : List (SortCursorImpl ρ)) (hcs : ∀ d ∈ cs, d.order = c.order) :
    (streams (c :: s.queue) s).set c.order (cursorRest cs c.order ++ (s.children.getD c.order []).flatten) =
      streams (cs ++ s.queue) s := by
  have hlt := h.wf.order_lt c List.mem_cons_self
  apply List.ext_getElem?
  intro j
  by_cases hj : c.order = j
  · subst hj
    rw [List.getElem?_set_self (by simpa [streams] using hlt), getElem?_streams, if_pos hlt, cursorRest_append,
      cursorRest_of_forall_ne h.wf.order_ne_of_cons, List.append_nil]
  · rw [List.getElem?_set_ne hj, getElem?_streams, getElem?_streams, cursorRest_cons_of_ne hj, cursorRest_append,
      cursorRest_of_forall_ne (show ∀ d ∈ cs, d.order ≠ j from fun d hd => (hcs d hd).symm ▸ hj), List.nil_append]

/-- The held cursor's source with no cursor: the rows it has still to read. -/
theorem Holding.streams_set_unread (h : Holding key c s) :
    (streams (c :: s.queue) s).set c.order (s.children.getD c.order []).flatten = streams s.queue s := by
  have hset := h.streams_set [] nofun
  rwa [cursorRest_nil, List.nil_append, List.nil_append] at hset

/-- The held cursor's row is the merge's next when the cursor pops before the queue. -/
theorem Holding.isLeast (h : Holding key c s) (hleast : ∀ d ∈ s.queue, PopsBefore key c d) :
    IsLeast key (streams (c :: s.queue) s) c.order c.row := by
  refine ⟨⟨_, by rw [h.getElem?_streams_self, SortCursorImpl.drop_pos, List.cons_append]⟩, fun j y t hj hs => ?_⟩
  obtain ⟨d, hd, rfl, rfl⟩ := h.exists_cursor_of_head hj hs
  exact precedes_of_greaterAt_eq_false (hleast d hd) (Ne.symm hj)

theorem Holding.pending_next (h : Holding key c s) (hleast : ∀ d ∈ s.queue, PopsBefore key c d) (hl : c.isLast = false) :
    pending key (c :: s.queue) s = c.row :: pending key (c.next hl :: s.queue) s := by
  have hstream := h.getElem?_streams_self
  rw [SortCursorImpl.drop_pos, List.cons_append] at hstream
  have hrest : cursorRest [c.next hl] c.order = c.rows.drop (c.pos + 1) := cursorRest_singleton (c.next hl)
  rw [pending, kmerge_of_isLeast hstream (h.isLeast hleast), ← hrest, h.streams_set [c.next hl] (by simp)]
  rfl

theorem Holding.pending_last (h : Holding key c s) (hleast : ∀ d ∈ s.queue, PopsBefore key c d) (hl : c.isLast = true) :
    pending key (c :: s.queue) s = c.row :: pending key s.queue s := by
  have hstream := h.getElem?_streams_self
  rw [SortCursorImpl.drop_pos, List.cons_append, SortCursorImpl.drop_pos_of_isLast hl, List.nil_append] at hstream
  rw [pending, kmerge_of_isLeast hstream (h.isLeast hleast), h.streams_set_unread]
  rfl

theorem pending_push (hwf : Wf (c :: cs) s) : pending key (push key cs c) s = pending key (c :: cs) s := by
  have hp : List.Perm (push key cs c) (c :: cs) := perm_push _ _
  rw [pending, pending, streams_perm hp (hwf.perm hp.symm).nodup]

theorem popsBefore_refl (a : SortCursorImpl ρ) : PopsBefore key a a :=
  popsBefore_iff.mpr (.inr ⟨rfl, le_rfl⟩)

/-- The queue's top pops before every cursor in it. -/
theorem popsBefore_head {top : SortCursorImpl ρ} {rest : List (SortCursorImpl ρ)}
    (hs : (top :: rest).Pairwise (PopsBefore key)) {d : SortCursorImpl ρ} (hd : d ∈ top :: rest) : PopsBefore key top d := by
  rcases List.mem_cons.mp hd with rfl | hd
  · exact popsBefore_refl d
  · exact (List.pairwise_cons.mp hs).1 d hd

/-- A cursor that pops before the queue's top pops before every cursor in it. -/
theorem popsBefore_of_head {q : List (SortCursorImpl ρ)} (hs : q.Pairwise (PopsBefore key))
    (h : ∀ top ∈ q.head?, PopsBefore key c top) : ∀ d ∈ q, PopsBefore key c d := by
  intro d hd
  rcases q with _ | ⟨top, rest⟩
  · cases hd
  · exact IsTrans.trans _ _ _ (h top rfl) (popsBefore_head hs hd)

theorem SortedBy.head_le {l : List ρ} (hl : SortedBy key l) (h : l ≠ []) {x : ρ} (hx : x ∈ l) : key (l.head h) ≤ key x := by
  cases l with
  | nil => exact absurd rfl h
  | cons a t => exact SortedKey.head_le hl hx

/-- A whole block whose last row is not greater than the first row of the top cursor's block
    comes before the row of every cursor in the queue. -/
theorem precedes_of_totallyLessOrEquals {top d : SortCursorImpl ρ} (hc : SortedBy key c.rows)
    (htop : SortedBy key top.rows) (hle : totallyLessOrEquals key c top = true) (hd : PopsBefore key top d)
    (hct : c.order ≠ top.order) {x : ρ} (hx : x ∈ c.rows) : Precedes key c.order x d.order d.row := by
  have h1 : key x ≤ key c.lastRow := SortedKey.le_getLast hc (List.getLast?_eq_some_getLast c.rows_ne_nil) hx
  have h2 : key top.firstRow ≤ key top.row := SortedBy.head_le htop top.rows_ne_nil (List.get_mem _ _)
  have h3 : greaterAt key c top c.lastRow top.firstRow = false := by
    simpa [totallyLessOrEquals] using hle
  have h3' := greaterAt_eq_false_iff.mp h3
  have h4 := popsBefore_iff.mp hd
  have h3le : key c.lastRow ≤ key top.firstRow := by
    rcases h3' with h | ⟨h, -⟩
    · exact h.le
    · exact h.le
  have h4le : key top.row ≤ key d.row := by
    rcases h4 with h | ⟨h, -⟩
    · exact h.le
    · exact h.le
  rcases lt_or_eq_of_le (show key x ≤ key d.row by order) with hlt | heq
  · exact .inl hlt
  · -- every key between is the same, so both ties go by the source numbers
    refine .inr ⟨heq, ?_⟩
    rcases h3' with h3 | ⟨-, h3⟩
    · exact absurd heq (by order)
    rcases h4 with h4 | ⟨-, h4⟩
    · exact absurd heq (by order)
    omega

/-- The held cursor's whole block is the merge's next rows when it comes before the top of the
    queue. -/
theorem Holding.pending_block (h : Holding key c s) (hpos : c.pos = 0)
    (htop : ∀ top ∈ s.queue.head?, totallyLessOrEquals key c top = true) :
    pending key (c :: s.queue) s = c.rows ++ pending key s.queue s := by
  have hstream := h.getElem?_streams_self
  rw [hpos, List.drop_zero] at hstream
  rw [pending, kmerge_of_block c.rows hstream ?_, h.streams_set_unread, List.map_append, List.map_map]
  · simp [pending]
  · intro x hx j y t hj hs
    obtain ⟨d, hd, rfl, rfl⟩ := h.exists_cursor_of_head hj hs
    rcases hq : s.queue with _ | ⟨top, rest⟩
    · rw [hq] at hd
      cases hd
    have htop_mem : top ∈ c :: s.queue := by simp [hq]
    exact precedes_of_totallyLessOrEquals (List.pairwise_append.mp h.sortedBy_rows).1
      (List.pairwise_append.mp (sortedBy_of_opened h.wf h.opened htop_mem)).1 (htop top (by simp [hq]))
      (popsBefore_head (hq ▸ h.sorted) (hq ▸ hd)) (Ne.symm (h.wf.order_ne_of_cons top (by simp [hq]))) hx

end Held

/-! ## Counting rows -/

/-- `s'` is `s` with only its counters changed: `total_merged_rows`, and what
    `out_row_sources_buf` holds. -/
structure Counted (s s' : State ρ) : Prop where
  children : s'.children = s.children
  source_blocks : s'.source_blocks = s.source_blocks
  queue : s'.queue = s.queue
  first : s'.first = s.first
  finished : s'.finished = s.finished
  is_cancelled : s'.is_cancelled = s.is_cancelled

section Counted

variable {key : ρ → κ} {s s' : State ρ}

theorem counted_row_sources (s : State ρ) (rs : List RowSourcePart) : Counted s { s with row_sources := rs } :=
  ⟨rfl, rfl, rfl, rfl, rfl, rfl⟩

theorem counted_count (s : State ρ) (rs : List RowSourcePart) (n : Nat) :
    Counted s { s with row_sources := rs, total_merged_rows := n } :=
  ⟨rfl, rfl, rfl, rfl, rfl, rfl⟩

theorem Counted.frame (h : Counted s s') : Frame s s' :=
  ⟨congrArg List.length h.children, h.first, h.finished, h.is_cancelled⟩

theorem Counted.holding {c : SortCursorImpl ρ} (h : Counted s s') (hc : Holding key c s) : Holding key c s' :=
  hc.congr h.children h.source_blocks h.queue

theorem Counted.pending (h : Counted s s') : DataStreams.pending key s'.queue s' = DataStreams.pending key s.queue s := by
  rw [h.queue, DataStreams.pending, DataStreams.pending, streams_congr h.children]

theorem Counted.pending_cons (h : Counted s s') (c : SortCursorImpl ρ) :
    DataStreams.pending key (c :: s'.queue) s' = DataStreams.pending key (c :: s.queue) s := by
  rw [h.queue, DataStreams.pending, DataStreams.pending, streams_congr h.children]

end Counted

omit [LinearOrder κ] in
/-- With no limit, `count_row_and_check_limit` counts the row, and the block is full at
    `max_block_size` rows. -/
theorem countRow_of_limit_eq_zero {p : Params ρ κ} (hlimit : p.limit = 0) (s : State ρ) (merged_rows : Nat) :
    countRow p s merged_rows =
      (merged_rows + 1 == p.max_block_size, { s with total_merged_rows := s.total_merged_rows + 1 }, merged_rows + 1) := by
  simp [countRow, hlimit]

/-! ## The loop on the current cursor, branch by branch -/

section Branches

variable {p : Params ρ κ} (fuel : Nat) (c : SortCursorImpl ρ) (s : State ρ) (merged : List ρ) (merged_rows : Nat)

/-- The block comes before the queue, and rows are merged already: the cursor goes back. -/
theorem mergeCurrent_of_block_pending (hfirst : c.isFirst = true)
    (htop : ∀ top ∈ s.queue.head?, totallyLessOrEquals p.key c top = true) (hm : merged_rows ≠ 0) :
    mergeCurrent p (fuel + 1) c s merged merged_rows =
      (.ret, { s with queue := push p.key s.queue c }, merged, merged_rows) := by
  have hm' : (merged_rows != 0) = true := by simpa using hm
  rcases hq : s.queue with _ | ⟨top, rest⟩
  · simp only [mergeCurrent, hq, hfirst, hm', Bool.and_self, ↓reduceIte]
  · have ht : totallyLessOrEquals p.key c top = true := htop top (by simp [hq])
    simp only [mergeCurrent, hq, hfirst, ht, hm', Bool.and_self, ↓reduceIte]

/-- The block comes before the queue, and no row is merged yet: the block is taken whole, and
    the source's next block read. -/
theorem mergeCurrent_of_block (hlimit : p.limit = 0) (hfirst : c.isFirst = true)
    (htop : ∀ top ∈ s.queue.head?, totallyLessOrEquals p.key c top = true) :
    ∃ s2, Counted s s2 ∧ mergeCurrent p (fuel + 1) c s merged 0 = (.ret, fetchNextBlock p c s2, c.rows, 0) := by
  obtain ⟨rs, hrs⟩ :=
    State.exists_writeRowSources_eq p.out_row_sources s (List.replicate c.rows.length (.ofSource c.order false))
  refine ⟨_, counted_count s rs (s.total_merged_rows + c.rows.length), ?_⟩
  rcases hq : s.queue with _ | ⟨top, rest⟩
  · simp only [mergeCurrent, hrs, hq, hfirst, hlimit, bne_self_eq_false, Bool.and_self, Bool.false_and,
      Bool.false_eq_true, ↓reduceIte]
  · have ht : totallyLessOrEquals p.key c top = true := htop top (by simp [hq])
    simp only [mergeCurrent, hrs, hq, hfirst, ht, hlimit, bne_self_eq_false, Bool.and_self, Bool.false_and,
      Bool.false_eq_true, ↓reduceIte]

section Row

variable (hfast : ¬ (c.isFirst = true ∧ ∀ top ∈ s.queue.head?, totallyLessOrEquals p.key c top = true))
include hfast

theorem isFirst_and_eq_false_of_cons {top : SortCursorImpl ρ} {rest : List (SortCursorImpl ρ)}
    (hq : s.queue = top :: rest) : (c.isFirst && totallyLessOrEquals p.key c top) = false := by
  simp only [hq, List.head?_cons, Option.mem_def, Option.some.injEq, forall_eq', not_and] at hfast
  cases hc : c.isFirst
  · rfl
  · simpa using hfast hc

theorem isFirst_eq_false_of_nil (hq : s.queue = []) : c.isFirst = false := by
  simpa [hq] using hfast

/-- The cursor's row is merged and the cursor, moved on, stays on top: the next row, unless
    the block is full. -/
theorem mergeCurrent_of_stays (hlimit : p.limit = 0) (hl : c.isLast = false)
    (hstay : ∀ top ∈ s.queue.head?, greater p.key (c.next hl) top = false) :
    ∃ s2, Counted s s2 ∧ mergeCurrent p (fuel + 1) c s merged merged_rows =
      if merged_rows + 1 == p.max_block_size then
        (.ret, { s2 with queue := push p.key s2.queue (c.next hl) }, merged ++ [c.row], merged_rows + 1)
      else mergeCurrent p fuel (c.next hl) s2 (merged ++ [c.row]) (merged_rows + 1) := by
  obtain ⟨rs, hrs⟩ := State.exists_writeRowSources_eq p.out_row_sources s [.ofSource c.order false]
  refine ⟨_, counted_count s rs (s.total_merged_rows + 1), ?_⟩
  rcases hq : s.queue with _ | ⟨top, rest⟩
  · have hf := isFirst_eq_false_of_nil c s hfast hq
    cases hb : (merged_rows + 1 == p.max_block_size) <;>
      simp only [mergeCurrent, hrs, hq, hf, hl, hlimit, hb, countRow, bne_self_eq_false, Bool.false_and,
        Bool.false_eq_true, ↓reduceIte, Bool.and_true, dite_true]
  · have ht : greater p.key (c.next hl) top = false := hstay top (by simp [hq])
    have hf := isFirst_and_eq_false_of_cons c s hfast hq
    cases hb : (merged_rows + 1 == p.max_block_size) <;>
      simp only [mergeCurrent, hrs, hq, hf, hl, ht, hlimit, hb, countRow, bne_self_eq_false, Bool.false_and,
        Bool.false_eq_true, ↓reduceIte, dite_true, Bool.not_false]

/-- The cursor's row is merged and the cursor, moved on, is no longer on top: it goes back. -/
theorem mergeCurrent_of_moves (hl : c.isLast = false)
    (hmoves : ¬ ∀ top ∈ s.queue.head?, greater p.key (c.next hl) top = false) :
    ∃ s2, Counted s s2 ∧ mergeCurrent p (fuel + 1) c s merged merged_rows =
      (.brk, { s2 with queue := push p.key s2.queue (c.next hl) }, merged ++ [c.row], merged_rows) := by
  obtain ⟨rs, hrs⟩ := State.exists_writeRowSources_eq p.out_row_sources s [.ofSource c.order false]
  refine ⟨_, counted_row_sources s rs, ?_⟩
  rcases hq : s.queue with _ | ⟨top, rest⟩
  · simp [hq] at hmoves
  · have ht : greater p.key (c.next hl) top = true := by simpa [hq] using hmoves
    have hf := isFirst_and_eq_false_of_cons c s hfast hq
    simp only [mergeCurrent, hrs, hq, hf, hl, ht, Bool.false_eq_true, ↓reduceIte, dite_true, Bool.not_true]

/-- The cursor's row is merged and it was the block's last: the source's next block is read. -/
theorem mergeCurrent_of_last (hl : c.isLast = true) :
    ∃ s2, Counted s s2 ∧ mergeCurrent p (fuel + 1) c s merged merged_rows =
      (.brk, fetchNextBlock p c s2, merged ++ [c.row], merged_rows) := by
  obtain ⟨rs, hrs⟩ := State.exists_writeRowSources_eq p.out_row_sources s [.ofSource c.order false]
  refine ⟨_, counted_row_sources s rs, ?_⟩
  rcases hq : s.queue with _ | ⟨top, rest⟩
  · have hf := isFirst_eq_false_of_nil c s hfast hq
    simp only [mergeCurrent, hrs, hq, hf, hl, Bool.false_and, Bool.false_eq_true, ↓reduceIte, Bool.true_eq_false,
      dite_false]
  · have hf := isFirst_and_eq_false_of_cons c s hfast hq
    simp only [mergeCurrent, hrs, hq, hf, hl, Bool.false_eq_true, ↓reduceIte, Bool.true_eq_false, dite_false]

end Row

end Branches

/-! ## The loop on the current cursor -/

section Current

variable {p : Params ρ κ}

/-- The loop on the held cursor `c`, which pops before the queue, gives rows off the front of
    what is pending, and leaves the invariant between two pops. It gives a row at least when no
    row is merged yet, and on `break` the row it merged last is still to count. -/
theorem mergeCurrent_spec (hlimit : p.limit = 0) :
    ∀ (fuel : Nat) (c : SortCursorImpl ρ) (s : State ρ) (merged : List ρ) (merged_rows : Nat) (e : Exit)
      (s' : State ρ) (merged' : List ρ) (merged_rows' : Nat),
      mergeCurrent p fuel c s merged merged_rows = (e, s', merged', merged_rows') →
      Holding p.key c s → (∀ d ∈ s.queue, PopsBefore p.key c d) → c.rows.length - c.pos ≤ fuel →
      merged.length = merged_rows →
      ∃ out, merged' = merged ++ out ∧ out ++ pending p.key s'.queue s' = pending p.key (c :: s.queue) s ∧
        Inv p.key s' ∧ Frame s s' ∧ (merged_rows = 0 → out ≠ []) ∧ (e = .brk → merged'.length = merged_rows' + 1) := by
  intro fuel
  induction fuel with
  | zero =>
    intro c s merged merged_rows e s' merged' merged_rows' _ _ _ hfuel _
    have := c.pos_lt
    omega
  | succ fuel ih =>
    intro c s merged merged_rows e s' merged' merged_rows' hrun h hleast hfuel hlen
    by_cases hfast : c.isFirst = true ∧ ∀ top ∈ s.queue.head?, totallyLessOrEquals p.key c top = true
    · by_cases hm : merged_rows = 0
      · -- the whole block, which comes before the queue, in place of the empty block so far
        subst hm
        obtain ⟨s2, hs2, heq⟩ := mergeCurrent_of_block fuel c s merged hlimit hfast.1 hfast.2
        rw [heq] at hrun
        simp only [Prod.mk.injEq] at hrun
        obtain ⟨rfl, rfl, rfl, rfl⟩ := hrun
        have h2 := hs2.holding h
        have hpos : c.pos = 0 := by simpa [SortCursorImpl.isFirst] using hfast.1
        refine ⟨c.rows, by rw [List.eq_nil_of_length_eq_zero hlen, List.nil_append], ?_, h2.inv_openSource,
          hs2.frame.trans frame_openSource, fun _ => c.rows_ne_nil, nofun⟩
        rw [fetchNextBlock, pending_openSource h2.wf.of_cons h2.wf.order_ne_of_cons, hs2.pending,
          h.pending_block hpos hfast.2]
      · -- the rows so far are returned first
        rw [mergeCurrent_of_block_pending fuel c s merged merged_rows hfast.1 hfast.2 hm] at hrun
        simp only [Prod.mk.injEq] at hrun
        obtain ⟨rfl, rfl, rfl, rfl⟩ := hrun
        refine ⟨[], (List.append_nil _).symm, ?_, h.inv_push, ⟨rfl, rfl, rfl, rfl⟩, fun h0 => absurd h0 hm, nofun⟩
        exact (List.nil_append _).trans (pending_push (s := s) h.wf)
    · by_cases hl : c.isLast = false
      · have hnext := h.pending_next hleast hl
        by_cases hstay : ∀ top ∈ s.queue.head?, greater p.key (c.next hl) top = false
        · obtain ⟨s2, hs2, heq⟩ := mergeCurrent_of_stays fuel c s merged merged_rows hfast hlimit hl hstay
          have h2 := hs2.holding (h.next hl)
          rw [heq] at hrun
          split at hrun
          · -- the block is full
            simp only [Prod.mk.injEq] at hrun
            obtain ⟨rfl, rfl, rfl, rfl⟩ := hrun
            refine ⟨[c.row], rfl, ?_, h2.inv_push, hs2.frame.with_queue _, nofun, nofun⟩
            rw [List.singleton_append, hnext, ← hs2.pending_cons]
            exact congrArg (c.row :: ·) (pending_push (s := s2) h2.wf)
          · -- the cursor goes on with its next row
            have hleast' : ∀ d ∈ s2.queue, PopsBefore p.key (c.next hl) d := by
              rw [hs2.queue]
              exact popsBefore_of_head h.sorted hstay
            obtain ⟨out, hout, hpend, hinv, hframe, -, hbrk⟩ := ih (c.next hl) s2 (merged ++ [c.row])
              (merged_rows + 1) e s' merged' merged_rows' hrun h2 hleast' (by simp; omega) (by simp [hlen])
            refine ⟨c.row :: out, by simp [hout], ?_, hinv, hs2.frame.trans hframe, fun _ => List.cons_ne_nil _ _, hbrk⟩
            rw [List.cons_append, hpend, hs2.pending_cons, hnext]
        · -- the cursor moved on is no longer on top
          obtain ⟨s2, hs2, heq⟩ := mergeCurrent_of_moves fuel c s merged merged_rows hfast hl hstay
          have h2 := hs2.holding (h.next hl)
          rw [heq] at hrun
          simp only [Prod.mk.injEq] at hrun
          obtain ⟨rfl, rfl, rfl, rfl⟩ := hrun
          refine ⟨[c.row], rfl, ?_, h2.inv_push, hs2.frame.with_queue _, nofun, fun _ => by simp [hlen]⟩
          rw [List.singleton_append, hnext, ← hs2.pending_cons]
          exact congrArg (c.row :: ·) (pending_push (s := s2) h2.wf)
      · -- the block's last row: the source's next block is read
        have hl' : c.isLast = true := by simpa using hl
        obtain ⟨s2, hs2, heq⟩ := mergeCurrent_of_last fuel c s merged merged_rows hfast hl'
        have h2 := hs2.holding h
        rw [heq] at hrun
        simp only [Prod.mk.injEq] at hrun
        obtain ⟨rfl, rfl, rfl, rfl⟩ := hrun
        refine ⟨[c.row], rfl, ?_, h2.inv_openSource, hs2.frame.trans frame_openSource, nofun,
          fun _ => by simp [hlen]⟩
        rw [fetchNextBlock, pending_openSource h2.wf.of_cons h2.wf.order_ne_of_cons, hs2.pending,
          h.pending_last hleast hl', List.singleton_append]

end Current

/-! ## `merge` -/

section Loop

variable {key : ρ → κ} {s s' s'' : State ρ}

/-- Nothing is pending when every source is used up. -/
theorem pending_eq_nil {cs : List (SortCursorImpl ρ)}
    (h : ∀ i < s.children.length, (∀ c ∈ cs, c.order ≠ i) ∧ s.children.getD i [] = []) : pending key cs s = [] := by
  rw [pending, kmerge_of_forall_nil, List.map_nil]
  intro l hl
  obtain ⟨i, hi, rfl⟩ := List.mem_map.mp hl
  have hi' := List.mem_range.mp hi
  rw [cursorRest_of_forall_ne (h i hi').1, (h i hi').2]
  rfl

theorem Inv.pending_eq_nil_of_queue (h : Inv key s) (hq : s.queue = []) : pending key s.queue s = [] := by
  refine pending_eq_nil fun i hi => ?_
  rcases h.opened i hi with ⟨c, hc, -⟩ | ⟨hno, hnil, -⟩
  · rw [hq] at hc
    cases hc
  · exact ⟨hno, hnil⟩

/-- With every source block empty, no source has a cursor, and nothing is pending. -/
theorem Inv.pending_eq_nil_of_source_blocks (h : Inv key s) (hb : ∀ b ∈ s.source_blocks, b = []) :
    pending key s.queue s = [] := by
  have hget : ∀ i, s.source_blocks.getD i [] = [] := by
    intro i
    rw [List.getD_eq_getElem?_getD]
    cases hi : s.source_blocks[i]? with
    | none => rfl
    | some b => exact hb b (List.mem_of_getElem? hi)
  refine pending_eq_nil fun i hi => ?_
  rcases h.opened i hi with ⟨c, -, -, hcb, -⟩ | ⟨hno, hnil, -⟩
  · exact absurd (hcb.symm.trans (hget i)) c.rows_ne_nil
  · exact ⟨hno, hnil⟩

/-- What `merge` does from `s` to `s'`: it gives `out` off the front of what is pending, keeps
    the invariant and the inputs, and ends the stream only when nothing is left. -/
structure Merged (key : ρ → κ) (s s' : State ρ) (out : List ρ) : Prop where
  pending : out ++ DataStreams.pending key s'.queue s' = DataStreams.pending key s.queue s
  inv : Inv key s'
  length : s'.children.length = s.children.length
  first : s'.first = s.first
  finished : s.finished = true → s'.finished = true
  ended : s'.finished = true ∨ s'.is_cancelled = true →
    s.finished = true ∨ s.is_cancelled = true ∨ DataStreams.pending key s'.queue s' = []

theorem Merged.of_frame {out : List ρ} (hf : Frame s s') (hinv : Inv key s')
    (hp : out ++ DataStreams.pending key s'.queue s' = DataStreams.pending key s.queue s) : Merged key s s' out :=
  ⟨hp, hinv, hf.length, hf.first, fun h => hf.finished.trans h, fun h => by
    rw [hf.finished, hf.is_cancelled] at h
    exact h.elim .inl (.inr ∘ .inl)⟩

theorem Merged.trans {out out' : List ρ} (h : Merged key s s' out) (h' : Merged key s' s'' out') :
    Merged key s s'' (out ++ out') where
  pending := by rw [List.append_assoc, h'.pending, h.pending]
  inv := h'.inv
  length := h'.length.trans h.length
  first := h'.first.trans h.first
  finished hf := h'.finished (h.finished hf)
  ended he := by
    rcases h'.ended he with he' | he' | hnil
    · exact (h.ended (.inl he')).imp_right (Or.imp_right fun hnil' => by
        rw [← h'.pending, List.append_eq_nil_iff] at hnil'
        exact hnil'.2)
    · exact (h.ended (.inr he')).imp_right (Or.imp_right fun hnil' => by
        rw [← h'.pending, List.append_eq_nil_iff] at hnil'
        exact hnil'.2)
    · exact .inr (.inr hnil)

theorem Merged.of_counted (h : Counted s s') (hinv : Inv key s) : Merged key s s' [] :=
  .of_frame h.frame (hinv.congr h.children h.source_blocks h.queue) (by rw [List.nil_append, h.pending])

/-- `merge` gives rows off the front of what is pending; with fuel and no row merged yet, it
    gives a row or ends the stream. -/
theorem mergeLoop_spec {p : Params ρ κ} (hlimit : p.limit = 0) :
    ∀ (fuel : Nat) (s : State ρ) (merged : List ρ) (merged_rows : Nat) (s' : State ρ) (merged' : List ρ),
      mergeLoop p fuel s merged merged_rows = (s', merged') → Inv p.key s → merged.length = merged_rows →
      ∃ out, merged' = merged ++ out ∧ Merged p.key s s' out ∧
        (0 < fuel → merged_rows = 0 → out ≠ [] ∨ s'.finished = true) := by
  intro fuel
  induction fuel with
  | zero =>
    intro s merged merged_rows s' merged' hrun hinv _
    simp only [mergeLoop, Prod.mk.injEq] at hrun
    obtain ⟨rfl, rfl⟩ := hrun
    exact ⟨[], (List.append_nil _).symm, .of_frame (.refl s) hinv (List.nil_append _), nofun⟩
  | succ fuel ih =>
    intro s merged merged_rows s' merged' hrun hinv hlen
    rcases hq : s.queue with _ | ⟨c, rest⟩
    · -- the queue is empty: the stream ends
      simp only [mergeLoop, hq, Prod.mk.injEq] at hrun
      obtain ⟨rfl, rfl⟩ := hrun
      have hinv' : Inv p.key { s with queue := [], is_cancelled := true, finished := true } :=
        hinv.congr rfl rfl hq.symm
      refine ⟨[], (List.append_nil _).symm, ⟨?_, hinv', rfl, rfl, fun _ => rfl,
        fun _ => .inr (.inr (hinv'.pending_eq_nil_of_queue rfl))⟩, fun _ _ => .inr rfl⟩
      rw [hq]
      rfl
    · obtain ⟨hhold, hleast⟩ := hinv.holding hq
      simp only [mergeLoop, hq] at hrun
      rcases hcur : mergeCurrent p c.rows.length c { s with queue := rest } merged merged_rows with
        ⟨e, s1, merged1, merged_rows1⟩
      obtain ⟨out1, hout1, hpend1, hinv1, hframe1, hne1, hbrk1⟩ :=
        mergeCurrent_spec hlimit _ _ _ _ _ _ _ _ _ hcur hhold hleast (Nat.sub_le _ _) hlen
      have hm1 : Merged p.key s s1 out1 := by
        refine .of_frame ⟨hframe1.length, hframe1.first, hframe1.finished, hframe1.is_cancelled⟩ hinv1 ?_
        rw [hpend1, hq]
        rfl
      rw [hcur] at hrun
      cases e with
      | ret =>
        simp only [Prod.mk.injEq] at hrun
        obtain ⟨rfl, rfl⟩ := hrun
        exact ⟨out1, hout1, hm1, fun _ h0 => .inl (hne1 h0)⟩
      | brk =>
        have hm1' : Merged p.key s { s1 with total_merged_rows := s1.total_merged_rows + 1 } out1 := by
          simpa using hm1.trans (Merged.of_counted (counted_count s1 s1.row_sources _) hinv1)
        simp only [countRow_of_limit_eq_zero hlimit] at hrun
        cases hb : (merged_rows1 + 1 == p.max_block_size)
        · -- the block is not full: the next pop
          simp only [hb] at hrun
          obtain ⟨out2, hout2, hm2, -⟩ := ih _ _ _ _ _ hrun hm1'.inv (by rw [hbrk1 rfl])
          refine ⟨out1 ++ out2, by rw [hout2, hout1, List.append_assoc], hm1'.trans hm2, fun _ h0 => .inl ?_⟩
          exact fun hnil => hne1 h0 (List.append_eq_nil_iff.mp hnil).1
        · simp only [hb, Prod.mk.injEq] at hrun
          obtain ⟨rfl, rfl⟩ := hrun
          exact ⟨out1, hout1, hm1', fun _ h0 => .inl (hne1 h0)⟩

end Loop

/-! ## `init` -/

/-- `init`'s pass up to source `k`: the sources before `k` opened, the others still to open. -/
structure Opening (key : ρ → κ) (k : Nat) (s : State ρ) : Prop where
  wf : Wf s.queue s
  opened : ∀ i < k, i < s.children.length → Opened key s.queue s i
  unopened : ∀ i, k ≤ i → i < s.children.length → Unopened key s.queue s i
  sorted : s.queue.Pairwise (PopsBefore key)

section Init

variable {p : Params ρ κ} {s : State ρ}

theorem Opening.openSource {k : Nat} (h : Opening p.key k s) (hk : k < s.children.length) :
    Opening p.key (k + 1) (openSource p k s) := by
  have hlen := (frame_openSource (p := p) (s := s) (i := k)).length
  have hno := (h.unopened k le_rfl hk).1
  refine ⟨h.wf.openSource hno hk, fun i hi hil => ?_, fun i hi hil => ?_, sorted_openSource h.sorted⟩
  · rw [hlen] at hil
    rcases Nat.lt_succ_iff_lt_or_eq.mp hi with hi | rfl
    · exact (h.opened i hi hil).openSource (by omega)
    · exact opened_openSource h.wf hno hk (h.unopened i le_rfl hk).2
  · rw [hlen] at hil
    exact (h.unopened i (by omega) hil).openSource (by omega)

/-- `init`'s pass over the first `k` sources opens them, and leaves what is pending. -/
theorem opening_foldl (h : Opening p.key 0 s) :
    ∀ k ≤ s.children.length,
      Opening p.key k ((List.range k).foldl (fun s i => openSource p i s) s) ∧
        Frame s ((List.range k).foldl (fun s i => openSource p i s) s) ∧
        pending p.key ((List.range k).foldl (fun s i => openSource p i s) s).queue
          ((List.range k).foldl (fun s i => openSource p i s) s) = pending p.key s.queue s := by
  intro k
  induction k with
  | zero => exact fun _ => ⟨h, .refl s, rfl⟩
  | succ k ih =>
    intro hk
    obtain ⟨hop, hframe, hpend⟩ := ih (by omega)
    have hk' : k < ((List.range k).foldl (fun s i => openSource p i s) s).children.length := by
      rw [hframe.length]
      omega
    rw [List.range_succ, List.foldl_append, List.foldl_cons, List.foldl_nil]
    refine ⟨hop.openSource hk', hframe.trans frame_openSource, ?_⟩
    rw [pending_openSource hop.wf (hop.unopened k le_rfl hk').1, hpend]

/-- The first `init` opens every source: the invariant between two pops, with what is pending
    as it was; and it finds no header only when nothing is pending. -/
theorem init_spec (h : Opening p.key 0 s) (hfirst : s.first = true) {s1 : State ρ} {has_header : Bool}
    (hinit : init p s = (s1, has_header)) :
    Inv p.key s1 ∧ Frame { s with first := false } s1 ∧ pending p.key s1.queue s1 = pending p.key s.queue s ∧
      (has_header = false → pending p.key s.queue s = []) := by
  have h0 : Opening p.key 0 { s with first := false } :=
    ⟨h.wf.congr rfl rfl, nofun, fun i _ hi => h.unopened i (Nat.zero_le i) hi, h.sorted⟩
  obtain ⟨hop, hframe, hpend⟩ := opening_foldl h0 s.children.length le_rfl
  simp only [init, hfirst, if_true, Prod.mk.injEq] at hinit
  obtain ⟨rfl, rfl⟩ := hinit
  have hinv : Inv p.key ((List.range s.children.length).foldl (fun s i => openSource p i s) { s with first := false }) :=
    ⟨hop.wf, fun i hi => hop.opened i (hframe.length ▸ hi) hi, hop.sorted⟩
  refine ⟨hinv, hframe, hpend, fun hh => hpend.symm.trans (hinv.pending_eq_nil_of_source_blocks fun b hb => ?_)⟩
  simpa using List.any_eq_false.mp hh b hb

theorem init_of_first_eq_false (hfirst : s.first = false) : init p s = (s, s.source_blocks.any fun b => !b.isEmpty) := by
  simp [init, hfirst]

end Init

/-! ## Reads -/

/-- Between two reads of the merge of several inputs: before the first, every source still to
    open; after it, the invariant between two pops; and once the stream has ended, nothing
    pending. -/
structure Reading (key : ρ → κ) (s : State ρ) : Prop where
  not_single : s.children.length ≠ 1
  start : s.first = true → Opening key 0 s
  inv : s.first = false → Inv key s
  ended : s.finished = true ∨ s.is_cancelled = true → pending key s.queue s = []

/-- The rows pending, and one more while the stream has not ended: every read that gives a block
    lowers it. -/
def progress (key : ρ → κ) (s : State ρ) : Nat := (pending key s.queue s).length + if s.finished then 0 else 1

section Read

variable {p : Params ρ κ} {s s' : State ρ}

/-- `init` from any state between two reads. -/
theorem Reading.init (h : Reading p.key s) {s1 : State ρ} {has_header : Bool} (hinit : init p s = (s1, has_header)) :
    Inv p.key s1 ∧ Frame { s with first := false } s1 ∧ pending p.key s1.queue s1 = pending p.key s.queue s ∧
      (has_header = false → pending p.key s.queue s = []) := by
  cases hfirst : s.first
  · rw [init_of_first_eq_false hfirst, Prod.mk.injEq] at hinit
    obtain ⟨rfl, rfl⟩ := hinit
    have hinv := h.inv hfirst
    refine ⟨hinv, ⟨rfl, hfirst, rfl, rfl⟩, rfl, fun hh => hinv.pending_eq_nil_of_source_blocks fun b hb => ?_⟩
    simpa using List.any_eq_false.mp hh b hb
  · exact init_spec (h.start hfirst) hfirst hinit

/-- A read that gives no block finds nothing pending. -/
theorem Reading.pending_eq_nil_of_read (h : Reading p.key s) (hr : read p s = (none, s')) :
    pending p.key s.queue s = [] := by
  cases hc : s.is_cancelled
  · cases hf : s.finished
    · rcases hinit : DataStreams.init p s with ⟨s1, has_header⟩
      cases has_header
      · exact (h.init hinit).2.2.2 rfl
      · simp [read, readImpl, hc, hf, h.not_single, hinit] at hr
    · exact h.ended (.inl hf)
  · exact h.ended (.inr hc)

/-- A read that gives a block gives it off the front of what is pending, and lowers `progress`. -/
theorem Reading.read_some (hlimit : p.limit = 0) (h : Reading p.key s) {b : List ρ} (hr : read p s = (some b, s')) :
    Reading p.key s' ∧ b ++ pending p.key s'.queue s' = pending p.key s.queue s ∧
      progress p.key s' < progress p.key s := by
  have hc : s.is_cancelled = false := by
    cases hc : s.is_cancelled
    · rfl
    · simp [read, hc] at hr
  have hf : s.finished = false := by
    cases hf : s.finished
    · rfl
    · simp [read, readImpl, hc, hf] at hr
  rcases hinit : DataStreams.init p s with ⟨s1, has_header⟩
  obtain ⟨hinv1, hframe1, hpend1, -⟩ := h.init hinit
  cases has_header
  · simp [read, readImpl, hc, hf, h.not_single, hinit] at hr
  rcases hloop : mergeLoop p (s1.rowsLeft + 1) s1 [] 0 with ⟨s2, merged⟩
  simp only [read, readImpl, hc, hf, h.not_single, hinit, hloop, Bool.false_eq_true, if_false, Bool.not_true,
    Prod.mk.injEq, Option.some.injEq] at hr
  obtain ⟨rfl, rfl⟩ := hr
  obtain ⟨out, hout, hm, hprog⟩ := mergeLoop_spec hlimit _ _ _ _ _ _ hloop hinv1 rfl
  rw [List.nil_append] at hout
  subst hout
  have hf1 : s1.finished = false := hframe1.finished.trans hf
  have hc1 : s1.is_cancelled = false := hframe1.is_cancelled.trans hc
  refine ⟨⟨?_, fun h2 => ?_, fun _ => hm.inv, fun he => ?_⟩, hm.pending.trans hpend1, ?_⟩
  · rw [hm.length, hframe1.length]
    exact h.not_single
  · rw [hm.first, hframe1.first] at h2
    cases h2
  · rcases hm.ended he with he1 | he1 | hnil
    · rw [hf1] at he1
      cases he1
    · rw [hc1] at he1
      cases he1
    · exact hnil
  · -- the rows given come off what is pending, or the stream ends
    have hlen := congrArg List.length hm.pending
    rw [List.length_append, hpend1] at hlen
    have hone : (if s.finished = true then 0 else 1) = 1 := by
      rw [hf]
      rfl
    unfold progress
    rw [hone]
    rcases hprog (Nat.succ_pos _) rfl with hne | hfin
    · have := List.length_pos_of_ne_nil hne
      split <;> omega
    · rw [if_pos hfin]
      omega

/-- Reads as long as `progress` allows give everything pending. -/
theorem readAll_of_reading (hlimit : p.limit = 0) :
    ∀ (n : Nat) (s : State ρ), Reading p.key s → progress p.key s < n → (readAll p n s).1 = pending p.key s.queue s := by
  intro n
  induction n with
  | zero => exact fun _ _ hn => absurd hn (Nat.not_lt_zero _)
  | succ n ih =>
    intro s h hn
    rcases hr : read p s with ⟨ob, s'⟩
    cases ob with
    | none =>
      simp only [readAll, hr]
      exact (h.pending_eq_nil_of_read hr).symm
    | some b =>
      obtain ⟨h', hpend, hprog⟩ := h.read_some hlimit hr
      simp only [readAll, hr]
      rw [ih s' h' (by omega), hpend]

/-- Blocks with rows have at least as many rows as blocks. -/
theorem length_le_length_flatten {bs : List (List ρ)} (h : ∀ b ∈ bs, b ≠ []) : bs.length ≤ bs.flatten.length := by
  induction bs with
  | nil => exact le_rfl
  | cons b bs ih =>
    have hb := List.length_pos_of_ne_nil (h b List.mem_cons_self)
    have hbs := ih fun b' hb' => h b' (List.mem_cons_of_mem b hb')
    rw [List.flatten_cons, List.length_append, List.length_cons]
    omega

/-- A single input is passed through block by block. -/
theorem readAll_single :
    ∀ (bs : List (List ρ)) (n : Nat) (s : State ρ), s.children = [bs] → s.finished = false → s.is_cancelled = false →
      (∀ b ∈ bs, b ≠ []) → bs.length < n → (readAll p n s).1 = bs.flatten := by
  intro bs
  induction bs with
  | nil =>
    intro n s hs hf hc _ hn
    obtain ⟨n, rfl⟩ : ∃ m, n = m + 1 := ⟨n - 1, by simp at hn; omega⟩
    simp [readAll, read, readImpl, State.readChild, hs, hf, hc]
  | cons b bs ih =>
    intro n s hs hf hc hne hn
    obtain ⟨n, rfl⟩ : ∃ m, n = m + 1 := ⟨n - 1, by simp at hn; omega⟩
    have hb : b ≠ [] := hne b List.mem_cons_self
    have hread : read p s = (some b, { s with children := [bs] }) := by
      simp [read, readImpl, State.readChild, hs, hf, hc, hb]
    simp only [readAll, hread]
    rw [ih n { s with children := [bs] } rfl hf hc (fun b' hb' => hne b' (List.mem_cons_of_mem b hb'))
      (by simp at hn; omega), List.flatten_cons]

end Read

/-! ## The merge of the inputs -/

section Create

variable {key : ρ → κ} {inputs : List (List (List ρ))}

theorem streams_create (inputs : List (List (List ρ))) : streams [] (State.create inputs) = inputs.map List.flatten := by
  apply List.ext_getElem?
  intro i
  rw [getElem?_streams, cursorRest_nil, List.nil_append, List.getElem?_map]
  simp only [State.create, List.getD_eq_getElem?_getD]
  split
  · rename_i hi
    simp [hi]
  · rename_i hi
    simp [List.getElem?_eq_none (Nat.le_of_not_lt hi)]

theorem reading_create (hone : inputs.length ≠ 1) (hblocks : ∀ bs ∈ inputs, ∀ b ∈ bs, b ≠ [])
    (hsorted : ∀ bs ∈ inputs, SortedBy key bs.flatten) : Reading key (State.create inputs) where
  not_single := hone
  start _ := by
    refine ⟨⟨by simp [State.create], nofun, List.nodup_nil, hblocks⟩, fun _ h => absurd h (Nat.not_lt_zero _),
      fun i _ hi => ⟨nofun, ?_⟩, List.Pairwise.nil⟩
    have hi' : i < inputs.length := hi
    simp only [State.create, List.getD_eq_getElem?_getD, List.getElem?_eq_getElem hi', Option.getD_some]
    exact hsorted _ (List.getElem_mem hi')
  inv h := nomatch h
  ended h := by simp [State.create] at h

theorem pending_create (inputs : List (List (List ρ))) :
    pending key (State.create inputs).queue (State.create inputs) = (kmerge key (inputs.map List.flatten)).map Prod.snd := by
  show (kmerge key (streams [] (State.create inputs))).map Prod.snd = _
  rw [streams_create]

theorem progress_create (inputs : List (List (List ρ))) :
    progress key (State.create inputs) = size (inputs.map List.flatten) + 1 := by
  rw [progress, pending_create, length_kmerge]
  rfl

end Create

/-- With no limit, `MergingSortedBlockInputStream` on inputs whose blocks have rows and whose rows
    are sorted by the key gives, over enough reads, the k-way merge of the inputs: every row once,
    in the order of the key, ties in the order of the inputs and, within an input, of its rows. -/
theorem readAll_eq_kmerge (p : Params ρ κ) (inputs : List (List (List ρ))) (n : Nat) (hlimit : p.limit = 0)
    (hblocks : ∀ bs ∈ inputs, ∀ b ∈ bs, b ≠ []) (hsorted : ∀ bs ∈ inputs, SortedBy p.key bs.flatten)
    (hn : size (inputs.map List.flatten) + 1 < n) :
    (readAll p n (State.create inputs)).1 = (kmerge p.key (inputs.map List.flatten)).map Prod.snd := by
  by_cases hone : inputs.length = 1
  · -- one input: passed through
    obtain ⟨bs, rfl⟩ : ∃ bs, inputs = [bs] := List.length_eq_one_iff.mp hone
    have hle := length_le_length_flatten (hblocks bs List.mem_cons_self)
    have hsize : size [bs.flatten] = bs.flatten.length := by simp [size]
    rw [List.map_singleton] at hn ⊢
    rw [kmerge_singleton, List.map_map]
    simpa using readAll_single bs n _ rfl rfl rfl (hblocks bs List.mem_cons_self) (by omega)
  · rw [readAll_of_reading hlimit n _ (reading_create hone hblocks hsorted) (by rw [progress_create]; exact hn)]
    rw [pending_create]

/-- Three inputs of sorted blocks. -/
def threeInputs : List (List (List Nat)) := [[[1, 4], [6]], [[2, 3], [5, 7]], [[0, 8]]]

theorem readAll_eq_kmerge_threeInputs :
    (⟨id, 2, 0, false⟩ : Params Nat Nat).limit = 0 ∧ (∀ bs ∈ threeInputs, ∀ b ∈ bs, b ≠ []) ∧
      (∀ bs ∈ threeInputs, SortedBy (⟨id, 2, 0, false⟩ : Params Nat Nat).key bs.flatten) ∧
      size (threeInputs.map List.flatten) + 1 < 12 ∧
      (readAll ⟨id, 2, 0, false⟩ 12 (State.create threeInputs)).1 = (kmerge id (threeInputs.map List.flatten)).map Prod.snd :=
  have hblocks : ∀ bs ∈ threeInputs, ∀ b ∈ bs, b ≠ [] := by decide
  have hsorted : ∀ bs ∈ threeInputs, SortedBy (⟨id, 2, 0, false⟩ : Params Nat Nat).key bs.flatten := by
    unfold SortedBy
    decide
  have hn : size (threeInputs.map List.flatten) + 1 < 12 := by decide
  ⟨rfl, hblocks, hsorted, hn, readAll_eq_kmerge ⟨id, 2, 0, false⟩ threeInputs 12 rfl hblocks hsorted hn⟩

example : (readAll (⟨id, 2, 0, false⟩ : Params Nat Nat) 12 (State.create threeInputs)).1 = [0, 1, 2, 3, 4, 5, 6, 7, 8] := by
  decide

end ClickHouseGpu.DataStreams
