import ClickHouseGpu.MergeTree.PartInfo
import ClickHouseGpu.Lib.OrderedMap
import ClickHouseGpu.Lib.Checked

/-
  ClickHouseGpu.MergeTree.ActiveDataPartSet — the set of active parts, kept by name.

  `ActiveDataPartSet` maps each active part (`std::map<MergeTreePartInfo, String>`, ordered
  by `(partition_id, min_block, max_block, level)`) to its name. `add(name)` does nothing when
  a stored part contains the new one; otherwise it erases the stored parts the new one
  contains, walking left and then right from `lower_bound`, and inserts it.
  `getContainingPartImpl` looks only at the entry at `lower_bound` and the one before it.
  Each call holds the mutex, so it is one step here.

  Both shortcuts rest on an ordering argument. In one partition, stored parts that neither
  contains the other are disjoint; when every part's range is non-empty (`Valid`), their ranges
  then follow the order of the keys. Such a part between a container and the part it contains
  would share a block with one of them (`not_isDisjoint_of_between_above`,
  `not_isDisjoint_of_between_below`), and the parts a new one contains lie next to it
  (`contains_of_between_below`, `contains_of_between_above`).

  Proved:
  - `getContainingPartImpl_sound`, `getContainingPartImpl_complete`: what
    `getContainingPartImpl` returns is the name of a stored part containing the query, and it
    finds one whenever one exists.
  - `add_inv`, `run_inv`: after every sequence of `add` calls on valid parts that are pairwise
    disjoint or nested, the stored parts are the added ones no other added part contains, in
    key order, each under its own name.
  - `active_parts_are_maximal`: the whole statement from the empty set;
    `empty_range_part_hides_container`: with a part whose range is empty it fails.
-/

namespace ClickHouseGpu.MergeTree

open OrderedMap PartInfo

/-- `ActiveDataPartSet`: the format its names are read in and `part_info_to_name`. -/
structure ActiveDataPartSet where
  format_version : Nat
  part_info_to_name : List (MergeTreePartInfo × List Char)

namespace ActiveDataPartSet

/-- `ActiveDataPartSet(format_version)`: no part yet. -/
def empty (format_version : Nat) : ActiveDataPartSet := ⟨format_version, []⟩

/-- The name of the entry at position `i` when its part contains `part_info`. -/
def containingAt (parts : List (MergeTreePartInfo × List Char)) (part_info : MergeTreePartInfo) (i : Nat) :
    Option (List Char) :=
  match parts[i]? with
  | some (k, name) => if k.contains part_info then some name else none
  | none => none

/-- `getContainingPartImpl`: "a part can only be covered/overlapped by the previous or next one";
    the entry at `lower_bound`, then the one before it, else the empty name. -/
def getContainingPartImpl (parts : List (MergeTreePartInfo × List Char)) (part_info : MergeTreePartInfo) :
    List Char :=
  let it := lowerBound part_info parts
  match containingAt parts part_info it with
  | some name => name
  | none => if it = 0 then [] else (containingAt parts part_info (it - 1)).getD []

/-- "Let's go left": `--it`, and erase the entry while `part_info` contains it; the iterator
    ends after the first entry kept. -/
def goLeft (part_info : MergeTreePartInfo) :
    List (MergeTreePartInfo × List Char) → Nat → List (MergeTreePartInfo × List Char) × Nat
  | parts, 0 => (parts, 0)
  | parts, it + 1 =>
    match parts[it]? with
    | some (k, _) => if part_info.contains k then goLeft part_info (parts.eraseIdx it) it else (parts, it + 1)
    | none => (parts, it + 1)

/-- "Let's go to the right": erase the entry at the iterator while `part_info` contains it. -/
def goRight (part_info : MergeTreePartInfo) (parts : List (MergeTreePartInfo × List Char)) (it : Nat) :
    List (MergeTreePartInfo × List Char) :=
  match _h : parts[it]? with
  | some (k, _) => if part_info.contains k then goRight part_info (parts.eraseIdx it) it else parts
  | none => parts
termination_by parts.length
decreasing_by
  have hit : it < parts.length := (List.getElem?_eq_some_iff.mp _h).1
  rw [List.length_eraseIdx_of_lt hit]
  omega

/-- `addImpl`: nothing when a stored part contains the new one; otherwise the parts it contains
    go and it comes in. -/
def addImpl (set : ActiveDataPartSet) (name : List Char) : Except String ActiveDataPartSet := do
  let part_info ← fromPartName name set.format_version
  if getContainingPartImpl set.part_info_to_name part_info ≠ [] then return set
  let it := lowerBound part_info set.part_info_to_name
  let (parts, it) := goLeft part_info set.part_info_to_name it
  let parts := goRight part_info parts it
  return { set with part_info_to_name := emplace parts part_info name }

/-- `add`: `addImpl` under the mutex. -/
def add (set : ActiveDataPartSet) (name : List Char) : Except String ActiveDataPartSet := set.addImpl name

/-- `getContainingPart`: the name of a stored part containing the named one, or empty. -/
def getContainingPart (set : ActiveDataPartSet) (part_name : List Char) : Except String (List Char) := do
  let part_info ← fromPartName part_name set.format_version
  return getContainingPartImpl set.part_info_to_name part_info

/-- `getParts`: the names in the map's order. -/
def getParts (set : ActiveDataPartSet) : List (List Char) := set.part_info_to_name.map Prod.snd

/-! ## Parts as merges leave them -/

/-- A part whose block range is not empty. -/
def Valid (p : MergeTreePartInfo) : Prop := p.min_block.toInt ≤ p.max_block.toInt

/-- Two parts as merges leave them: disjoint, or one contains the other. -/
def Nested (p q : MergeTreePartInfo) : Prop :=
  p.isDisjoint q = true ∨ p.contains q = true ∨ q.contains p = true

instance : DecidablePred Valid := fun _ => inferInstanceAs (Decidable (_ ≤ _))

instance (p q : MergeTreePartInfo) : Decidable (Nested p q) := inferInstanceAs (Decidable (_ ∨ _ ∨ _))

theorem partition_eq_of_between {a b c : MergeTreePartInfo} (hab : a ≤ b) (hbc : b ≤ c)
    (hac : a.partition_id = c.partition_id) : b.partition_id = a.partition_id :=
  le_antisymm (hac ▸ MergeTreePartInfo.partition_le_of_le hbc) (MergeTreePartInfo.partition_le_of_le hab)

/-- A valid part at or above a part `p` and at or below a part `q` containing it starts where `q`
    starts, so it shares that block with `q`. -/
theorem not_isDisjoint_of_between_above {p q r : MergeTreePartInfo} (hq : q.contains p = true) (hpr : p ≤ r)
    (hrq : r ≤ q) (hr : Valid r) (hqv : Valid q) : r.isDisjoint q = false := by
  have hqp := MergeTreePartInfo.contains_iff.mp hq
  have hrpart : r.partition_id = p.partition_id := partition_eq_of_between hpr hrq hqp.1.symm
  have h1 := MergeTreePartInfo.min_le_of_le hpr hrpart.symm
  have h2 := MergeTreePartInfo.min_le_of_le hrq (hrpart.trans hqp.1.symm)
  unfold Valid at hr hqv
  rw [Bool.eq_false_iff, ne_eq, MergeTreePartInfo.isDisjoint_iff]
  rintro (h | h | h)
  · exact h (hrpart.trans hqp.1.symm)
  · omega
  · omega

/-- A valid part at or above a part `q` and at or below a valid part `p` that `q` contains starts
    inside `q`'s range. -/
theorem not_isDisjoint_of_between_below {p q r : MergeTreePartInfo} (hq : q.contains p = true) (hqr : q ≤ r)
    (hrp : r ≤ p) (hr : Valid r) (hp : Valid p) : r.isDisjoint q = false := by
  have hqp := MergeTreePartInfo.contains_iff.mp hq
  have hrpart : r.partition_id = q.partition_id := partition_eq_of_between hqr hrp hqp.1
  have h1 := MergeTreePartInfo.min_le_of_le hqr hrpart.symm
  have h2 := MergeTreePartInfo.min_le_of_le hrp (hrpart.trans hqp.1)
  unfold Valid at hr hp
  rw [Bool.eq_false_iff, ne_eq, MergeTreePartInfo.isDisjoint_iff]
  rintro (h | h | h)
  · exact h hrpart
  · omega
  · omega

/-- Below a new part `p`, a part after one `p` contains and nested with `p` is contained in it
    too, unless it contains `p`. -/
theorem contains_of_between_below {p a b : MergeTreePartInfo} (hpa : p.contains a = true) (hab : a ≤ b)
    (hbp : b ≤ p) (hb : Valid b) (hp : Valid p) (hnest : Nested p b) (hnot : b.contains p = false) :
    p.contains b = true := by
  have hpa' := MergeTreePartInfo.contains_iff.mp hpa
  have hbpart : b.partition_id = a.partition_id := partition_eq_of_between hab hbp hpa'.1.symm
  have h1 := MergeTreePartInfo.min_le_of_le hab hbpart.symm
  have h2 := MergeTreePartInfo.min_le_of_le hbp (hbpart.trans hpa'.1.symm)
  unfold Valid at hb hp
  rcases hnest with hdis | hcont | hcont
  · rw [MergeTreePartInfo.isDisjoint_iff] at hdis
    rcases hdis with h | h | h
    · exact absurd (hpa'.1.trans hbpart.symm) h
    · omega
    · omega
  · exact hcont
  · rw [hnot] at hcont
    contradiction

/-- Above a new part `p`, a part before one `p` contains and nested with `p` is contained in it
    too, unless it contains `p`. -/
theorem contains_of_between_above {p a b : MergeTreePartInfo} (hpb : p.contains b = true) (hpa : p ≤ a)
    (hab : a ≤ b) (ha : Valid a) (hb : Valid b) (hnest : Nested p a) (hnot : a.contains p = false) :
    p.contains a = true := by
  have hpb' := MergeTreePartInfo.contains_iff.mp hpb
  have hapart : a.partition_id = p.partition_id := partition_eq_of_between hpa hab hpb'.1
  have h1 := MergeTreePartInfo.min_le_of_le hpa hapart.symm
  have h2 := MergeTreePartInfo.min_le_of_le hab (hapart.trans hpb'.1)
  unfold Valid at ha hb
  rcases hnest with hdis | hcont | hcont
  · rw [MergeTreePartInfo.isDisjoint_iff] at hdis
    rcases hdis with h | h | h
    · exact absurd hapart.symm h
    · omega
    · omega
  · exact hcont
  · rw [hnot] at hcont
    contradiction

/-! ## Looking up a containing part -/

theorem containingAt_eq_some {parts : List (MergeTreePartInfo × List Char)} {part_info : MergeTreePartInfo}
    {i : Nat} {name : List Char} :
    containingAt parts part_info i = some name ↔
      ∃ e, parts[i]? = some e ∧ e.2 = name ∧ e.1.contains part_info = true := by
  unfold containingAt
  split
  · rename_i k n h
    by_cases hc : k.contains part_info = true
    · simp [h, hc]
    · simp [h, hc]
  · rename_i h
    simp [h]

theorem getContainingPartImpl_of_at {parts : List (MergeTreePartInfo × List Char)} {part_info : MergeTreePartInfo}
    {name : List Char} (h : containingAt parts part_info (lowerBound part_info parts) = some name) :
    getContainingPartImpl parts part_info = name := by
  simp [getContainingPartImpl, h]

theorem getContainingPartImpl_of_not_at {parts : List (MergeTreePartInfo × List Char)} {part_info : MergeTreePartInfo}
    (h : containingAt parts part_info (lowerBound part_info parts) = none) :
    getContainingPartImpl parts part_info =
      if lowerBound part_info parts = 0 then []
      else (containingAt parts part_info (lowerBound part_info parts - 1)).getD [] := by
  simp [getContainingPartImpl, h]

/-- `getContainingPartImpl` returns a stored name only for a part that contains the query. -/
theorem getContainingPartImpl_sound {parts : List (MergeTreePartInfo × List Char)} {part_info : MergeTreePartInfo}
    (h : getContainingPartImpl parts part_info ≠ []) :
    ∃ e ∈ parts, e.2 = getContainingPartImpl parts part_info ∧ e.1.contains part_info = true := by
  -- whichever of the two lookups answered, it answered with a stored entry's name
  have hfound : ∀ i name, containingAt parts part_info i = some name →
      ∃ e ∈ parts, e.2 = name ∧ e.1.contains part_info = true := by
    intro i name hi
    obtain ⟨e, he, hname, hc⟩ := containingAt_eq_some.mp hi
    exact ⟨e, List.mem_of_getElem? he, hname, hc⟩
  cases hat : containingAt parts part_info (lowerBound part_info parts) with
  | some name =>
    rw [getContainingPartImpl_of_at hat]
    exact hfound _ _ hat
  | none =>
    rw [getContainingPartImpl_of_not_at hat] at h ⊢
    split at h
    · contradiction
    · rename_i hlb
      rw [if_neg hlb]
      cases hbefore : containingAt parts part_info (lowerBound part_info parts - 1) with
      | none => simp [hbefore] at h
      | some name => simpa using hfound _ _ hbefore

/-! ## What the map holds -/

/-- No part is read from the empty name. -/
theorem tryParsePartName_nil (format_version : Nat) : tryParsePartName [] format_version = none := by
  unfold tryParsePartName readPartitionPrefix
  split
  · simp [readIntTextImpl]
  · simp [readPartitionId, readIntTextImpl]

/-- The map after the parts `A` were added: keys in increasing order, each an added part that no
    other added part contains, every added part under some key, and each name its part's name. -/
structure Inv (format_version : Nat) (A : Set MergeTreePartInfo) (parts : List (MergeTreePartInfo × List Char)) :
    Prop where
  sorted : Sorted parts
  mem : ∀ e ∈ parts, e.1 ∈ A
  maximal : ∀ e ∈ parts, ∀ b ∈ A, b.contains e.1 = true → b = e.1
  covered : ∀ a ∈ A, ∃ e ∈ parts, e.1.contains a = true
  named : ∀ e ∈ parts, tryParsePartName e.2 format_version = some e.1

section Invariant

variable {format_version : Nat} {A : Set MergeTreePartInfo} {parts : List (MergeTreePartInfo × List Char)}

theorem Inv.name_ne_nil (hinv : Inv format_version A parts) {e : MergeTreePartInfo × List Char} (he : e ∈ parts) :
    e.2 ≠ [] := by
  intro h
  have hparse := hinv.named e he
  rw [h, tryParsePartName_nil] at hparse
  contradiction

/-- Two stored parts with different keys are disjoint: as added parts they are nested or
    disjoint, and neither contains the other. -/
theorem Inv.isDisjoint (hinv : Inv format_version A parts) (hnest : ∀ a ∈ A, ∀ b ∈ A, Nested a b)
    {e f : MergeTreePartInfo × List Char} (he : e ∈ parts) (hf : f ∈ parts) (hne : e.1 ≠ f.1) :
    e.1.isDisjoint f.1 = true := by
  rcases hnest e.1 (hinv.mem e he) f.1 (hinv.mem f hf) with h | h | h
  · exact h
  · exact absurd (hinv.maximal f hf e.1 (hinv.mem e he) h) hne
  · exact absurd (hinv.maximal e he f.1 (hinv.mem f hf) h).symm hne

theorem Inv.key_ne (hinv : Inv format_version A parts) {i k : Nat} (hi : i < parts.length) (hk : k < parts.length)
    (hik : i ≠ k) : parts[i].1 ≠ parts[k].1 := by
  rcases Nat.lt_or_gt_of_ne hik with h | h
  · exact (hinv.sorted.lt_of_lt h hk).ne
  · exact (hinv.sorted.lt_of_lt h hi).ne'

/-- `getContainingPartImpl` finds a stored part containing a valid query whenever there is one. -/
theorem getContainingPartImpl_complete (hinv : Inv format_version A parts) (hvalid : ∀ a ∈ A, Valid a)
    (hnest : ∀ a ∈ A, ∀ b ∈ A, Nested a b) {p : MergeTreePartInfo} (hp : Valid p)
    (h : ∃ e ∈ parts, e.1.contains p = true) : getContainingPartImpl parts p ≠ [] := by
  obtain ⟨e, he, hcont⟩ := h
  obtain ⟨j, hj, rfl⟩ := List.getElem_of_mem he
  have hv : ∀ i (hi : i < parts.length), Valid parts[i].1 :=
    fun i hi => hvalid _ (hinv.mem _ (List.getElem_mem hi))
  have hdis : ∀ i k (hi : i < parts.length) (hk : k < parts.length), i ≠ k →
      parts[i].1.isDisjoint parts[k].1 = true :=
    fun i k hi hk hik => hinv.isDisjoint hnest (List.getElem_mem hi) (List.getElem_mem hk) (hinv.key_ne hi hk hik)
  -- a name found by either lookup is a stored name, never empty
  have hname : ∀ i name, containingAt parts p i = some name → name ≠ [] := by
    intro i name hi
    obtain ⟨e', he', rfl, -⟩ := containingAt_eq_some.mp hi
    exact hinv.name_ne_nil (List.mem_of_getElem? he')
  have hlen := lowerBound_le_length p parts
  by_cases hj' : lowerBound p parts ≤ j
  · -- the container sits at `lower_bound`: an entry before it there would start where it starts
    have hjeq : j = lowerBound p parts := by
      by_contra hne
      have hlt : lowerBound p parts < j := by omega
      have hbetween := not_isDisjoint_of_between_above hcont
        (le_of_lowerBound_le hinv.sorted (le_refl _) (by omega)) (hinv.sorted.lt_of_lt hlt hj).le
        (hv _ (by omega)) (hv j hj)
      rw [hdis _ j (by omega) hj (by omega)] at hbetween
      contradiction
    have hat : containingAt parts p (lowerBound p parts) = some parts[j].2 := by
      refine containingAt_eq_some.mpr ⟨parts[j], ?_, rfl, hcont⟩
      rw [← hjeq]
      exact List.getElem?_eq_getElem hj
    rw [getContainingPartImpl_of_at hat]
    exact hname _ _ hat
  · -- the container is the entry before `lower_bound`: one between would start inside it
    have hjeq : j = lowerBound p parts - 1 := by
      by_contra hne
      have hlt : j < lowerBound p parts - 1 := by omega
      have hbetween := not_isDisjoint_of_between_below hcont (hinv.sorted.lt_of_lt hlt (by omega)).le
        (lt_of_lt_lowerBound (by omega) (by omega)).le (hv _ (by omega)) hp
      rw [hdis _ j (by omega) hj (by omega)] at hbetween
      contradiction
    have hbefore : containingAt parts p (lowerBound p parts - 1) = some parts[j].2 := by
      refine containingAt_eq_some.mpr ⟨parts[j], ?_, rfl, hcont⟩
      rw [← hjeq]
      exact List.getElem?_eq_getElem hj
    cases hat : containingAt parts p (lowerBound p parts) with
    | some name =>
      rw [getContainingPartImpl_of_at hat]
      exact hname _ _ hat
    | none =>
      rw [getContainingPartImpl_of_not_at hat, if_neg (by omega), hbefore]
      exact hname _ _ hbefore

end Invariant

/-! ## The walks from `lower_bound` -/

/-- The walk to the left erases the run of contained entries just before the iterator and stops
    after the first entry kept. -/
theorem goLeft_eq (part_info : MergeTreePartInfo) (parts : List (MergeTreePartInfo × List Char)) {it : Nat}
    (hit : it ≤ parts.length) :
    goLeft part_info parts it =
      (((parts.take it).reverse.dropWhile (fun e => part_info.contains e.1)).reverse ++ parts.drop it,
        ((parts.take it).reverse.dropWhile (fun e => part_info.contains e.1)).length) := by
  induction it generalizing parts with
  | zero => simp [goLeft]
  | succ it ih =>
    have hlt : it < parts.length := by omega
    have htake : parts.take (it + 1) = parts.take it ++ [parts[it]] := (List.take_succ_eq_append_getElem hlt)
    simp only [goLeft, List.getElem?_eq_getElem hlt, htake, List.reverse_append, List.reverse_singleton,
      List.singleton_append, List.dropWhile_cons]
    by_cases hc : part_info.contains parts[it].1 = true
    · -- erased: the iterator stays on the entry after it
      have hlen : it ≤ (parts.eraseIdx it).length := by rw [List.length_eraseIdx_of_lt hlt]; omega
      rw [if_pos hc, if_pos hc, ih _ hlen, List.eraseIdx_eq_take_drop_succ, List.take_append_of_le_length (by simp; omega),
        List.drop_append_of_le_length (by simp; omega)]
      simp [List.take_take]
    · -- kept: the walk stops after it, having erased nothing more
      simp only [hc, if_false, Bool.false_eq_true]
      simp [List.length_take, Nat.min_eq_left (Nat.le_of_lt hlt)]

/-- The walk to the right erases the run of contained entries from the iterator on. -/
theorem goRight_eq (part_info : MergeTreePartInfo) (parts : List (MergeTreePartInfo × List Char)) (it : Nat) :
    goRight part_info parts it = parts.take it ++ (parts.drop it).dropWhile (fun e => part_info.contains e.1) := by
  fun_induction goRight part_info parts it with
  | case1 parts k name h hc ih =>
    have hlt : it < parts.length := (List.getElem?_eq_some_iff.mp h).1
    have hdrop : parts.drop it = (k, name) :: parts.drop (it + 1) := by
      rw [List.drop_eq_getElem_cons hlt, (List.getElem?_eq_some_iff.mp h).2]
    rw [ih, List.eraseIdx_eq_take_drop_succ, hdrop, List.dropWhile_cons, if_pos hc,
      List.take_append_of_le_length (by simp; omega), List.drop_append_of_le_length (by simp; omega)]
    simp [List.take_take]
  | case2 parts k name h hc =>
    have hlt : it < parts.length := (List.getElem?_eq_some_iff.mp h).1
    have hdrop : parts.drop it = (k, name) :: parts.drop (it + 1) := by
      rw [List.drop_eq_getElem_cons hlt, (List.getElem?_eq_some_iff.mp h).2]
    rw [hdrop, List.dropWhile_cons, if_neg hc, ← hdrop, List.take_append_drop]
  | case3 parts h =>
    have hge : parts.length ≤ it := List.getElem?_eq_none_iff.mp h
    simp [List.drop_eq_nil_of_le hge, List.take_of_length_le hge]

/-! ## One call of `add` -/

theorem addImpl_of_found {format_version : Nat} {parts : List (MergeTreePartInfo × List Char)} {name : List Char}
    {p : MergeTreePartInfo} (hname : tryParsePartName name format_version = some p)
    (h : getContainingPartImpl parts p ≠ []) : addImpl ⟨format_version, parts⟩ name = .ok ⟨format_version, parts⟩ := by
  simp [addImpl, fromPartName, hname, Checked.ok_bind, h]

theorem addImpl_of_not_found {format_version : Nat} {parts : List (MergeTreePartInfo × List Char)} {name : List Char}
    {p : MergeTreePartInfo} (hname : tryParsePartName name format_version = some p)
    (h : getContainingPartImpl parts p = []) :
    addImpl ⟨format_version, parts⟩ name =
      .ok ⟨format_version, emplace (goRight p (goLeft p parts (lowerBound p parts)).1
        (goLeft p parts (lowerBound p parts)).2) p name⟩ := by
  simp [addImpl, fromPartName, hname, Checked.ok_bind, h]

/-- When the runs next to `lower_bound` are exactly the contained entries, the two walks erase
    exactly the entries `part_info` contains. -/
theorem walks_eq_filter (part_info : MergeTreePartInfo) (parts : List (MergeTreePartInfo × List Char))
    (hleft : (parts.take (lowerBound part_info parts)).Pairwise
      (fun a b => part_info.contains a.1 = true → part_info.contains b.1 = true))
    (hright : (parts.drop (lowerBound part_info parts)).Pairwise
      (fun a b => part_info.contains b.1 = true → part_info.contains a.1 = true)) :
    goRight part_info (goLeft part_info parts (lowerBound part_info parts)).1
        (goLeft part_info parts (lowerBound part_info parts)).2 =
      parts.filter (fun e => !part_info.contains e.1) := by
  rw [goLeft_eq part_info parts (lowerBound_le_length _ _), goRight_eq]
  have hkept := List.reverse_dropWhile_reverse_eq_filter hleft
  have hlen : ((parts.take (lowerBound part_info parts)).reverse.dropWhile
      (fun e => part_info.contains e.1)).length =
      (((parts.take (lowerBound part_info parts)).reverse.dropWhile (fun e => part_info.contains e.1)).reverse).length := by
    simp
  simp only [hlen, List.take_left, List.drop_left, List.dropWhile_eq_filter hright, hkept]
  rw [← List.filter_append, List.take_append_drop]

section Step

variable {format_version : Nat} {A : Set MergeTreePartInfo} {parts : List (MergeTreePartInfo × List Char)}
  {p : MergeTreePartInfo}

/-- Adding a part a stored part contains changes nothing the invariant sees. -/
theorem Inv.insert_of_contained (hinv : Inv format_version A parts) {s : MergeTreePartInfo × List Char}
    (hs : s ∈ parts) (hsp : s.1.contains p = true) : Inv format_version (insert p A) parts where
  sorted := hinv.sorted
  mem e he := Set.mem_insert_of_mem p (hinv.mem e he)
  maximal e he b hb hbe := by
    rcases hb with rfl | hb
    · -- the new part under a stored key: that key contains the stored one, so all three are equal
      have hse : s.1 = e.1 := hinv.maximal e he s.1 (hinv.mem s hs) (MergeTreePartInfo.contains_trans hsp hbe)
      exact MergeTreePartInfo.eq_of_contains_of_contains hbe (hse ▸ hsp)
    · exact hinv.maximal e he b hb hbe
  covered a ha := by
    rcases ha with rfl | ha
    · exact ⟨s, hs, hsp⟩
    · exact hinv.covered a ha
  named := hinv.named

/-- When no stored part contains `p`, no added part does. -/
theorem Inv.not_contains (hinv : Inv format_version A parts) (hnone : ∀ e ∈ parts, e.1.contains p = false)
    {a : MergeTreePartInfo} (ha : a ∈ A) : a.contains p = false := by
  obtain ⟨e, he, hea⟩ := hinv.covered a ha
  rw [Bool.eq_false_iff]
  intro hap
  have hep := MergeTreePartInfo.contains_trans hea hap
  rw [hnone e he] at hep
  contradiction

/-- Adding a part no stored part contains: the entries it contains go, and it comes in. -/
theorem Inv.insert_of_not_contained (hinv : Inv format_version A parts) (hnone : ∀ e ∈ parts, e.1.contains p = false)
    {name : List Char} (hname : tryParsePartName name format_version = some p) :
    Inv format_version (insert p A) (emplace (parts.filter (fun e => !p.contains e.1)) p name) := by
  have hnew : p ∉ (parts.filter (fun e => !p.contains e.1)).map Prod.fst := by
    intro hp
    obtain ⟨e, he, rfl⟩ := List.mem_map.mp hp
    have hself := MergeTreePartInfo.contains_refl e.1
    rw [hnone e (List.mem_of_mem_filter he)] at hself
    contradiction
  have hmem : ∀ {e}, e ∈ emplace (parts.filter (fun e => !p.contains e.1)) p name ↔
      (e ∈ parts ∧ p.contains e.1 = false) ∨ e = (p, name) := by
    intro e
    simp [mem_emplace, hnew]
  refine ⟨sorted_emplace (hinv.sorted.filter _) p name, ?_, ?_, ?_, ?_⟩
  · intro e he
    rcases hmem.mp he with ⟨he, -⟩ | rfl
    · exact Set.mem_insert_of_mem p (hinv.mem e he)
    · exact Set.mem_insert p A
  · intro e he b hb hbe
    rcases hmem.mp he with ⟨he, hkept⟩ | rfl
    · rcases hb with rfl | hb
      · rw [hkept] at hbe
        contradiction
      · exact hinv.maximal e he b hb hbe
    · rcases hb with rfl | hb
      · rfl
      · rw [hinv.not_contains hnone hb] at hbe
        contradiction
  · intro a ha
    rcases ha with rfl | ha
    · exact ⟨(a, name), hmem.mpr (Or.inr rfl), MergeTreePartInfo.contains_refl a⟩
    · obtain ⟨s, hs, hsa⟩ := hinv.covered a ha
      -- the entry covering `a` stays, or went because the new part contains it, and so `a`
      cases hps : p.contains s.1 with
      | false => exact ⟨s, hmem.mpr (Or.inl ⟨hs, hps⟩), hsa⟩
      | true => exact ⟨(p, name), hmem.mpr (Or.inr rfl), MergeTreePartInfo.contains_trans hps hsa⟩
  · intro e he
    rcases hmem.mp he with ⟨he, -⟩ | rfl
    · exact hinv.named e he
    · exact hname

/-- One `add` of a valid part nested with every added one keeps the invariant, with it added. -/
theorem add_inv (hinv : Inv format_version A parts) (hvalid : ∀ a ∈ insert p A, Valid a)
    (hnest : ∀ a ∈ insert p A, ∀ b ∈ insert p A, Nested a b) {name : List Char}
    (hname : tryParsePartName name format_version = some p) :
    ∃ parts', add ⟨format_version, parts⟩ name = .ok ⟨format_version, parts'⟩ ∧
      Inv format_version (insert p A) parts' := by
  have hvalidA : ∀ a ∈ A, Valid a := fun a ha => hvalid a (Set.mem_insert_of_mem p ha)
  have hnestA : ∀ a ∈ A, ∀ b ∈ A, Nested a b :=
    fun a ha b hb => hnest a (Set.mem_insert_of_mem p ha) b (Set.mem_insert_of_mem p hb)
  by_cases hfound : getContainingPartImpl parts p = []
  · -- no stored part contains the new one: it replaces the run of parts it contains
    have hnone : ∀ e ∈ parts, e.1.contains p = false := by
      intro e he
      rw [Bool.eq_false_iff]
      intro hc
      exact getContainingPartImpl_complete hinv hvalidA hnestA (hvalid p (Set.mem_insert p A)) ⟨e, he, hc⟩ hfound
    have hstored : ∀ e ∈ parts, Valid e.1 ∧ Nested p e.1 := fun e he =>
      ⟨hvalidA _ (hinv.mem e he), hnest p (Set.mem_insert p A) e.1 (Set.mem_insert_of_mem p (hinv.mem e he))⟩
    have hleft : (parts.take (lowerBound p parts)).Pairwise (fun a b => p.contains a.1 = true → p.contains b.1 = true) := by
      refine ((hinv.sorted.sublist (List.take_sublist _ _))).imp_of_mem ?_
      intro a b _ hb hab hpa
      have hb' := List.mem_of_mem_take hb
      exact contains_of_between_below hpa hab.le (lt_of_mem_take_lowerBound hb).le (hstored b hb').1
        (hvalid p (Set.mem_insert p A)) (hstored b hb').2 (hnone b hb')
    have hright : (parts.drop (lowerBound p parts)).Pairwise (fun a b => p.contains b.1 = true → p.contains a.1 = true) := by
      refine ((hinv.sorted.sublist (List.drop_sublist _ _))).imp_of_mem ?_
      intro a b ha hb hab hpb
      have ha' := List.mem_of_mem_drop ha
      exact contains_of_between_above hpb (le_of_mem_drop_lowerBound hinv.sorted ha) hab.le (hstored a ha').1
        (hstored b (List.mem_of_mem_drop hb)).1 (hstored a ha').2 (hnone a ha')
    refine ⟨_, addImpl_of_not_found hname hfound, ?_⟩
    rw [walks_eq_filter p parts hleft hright]
    exact hinv.insert_of_not_contained hnone hname
  · -- a stored part contains the new one: nothing changes
    obtain ⟨s, hs, -, hsp⟩ := getContainingPartImpl_sound hfound
    exact ⟨parts, addImpl_of_found hname hfound, hinv.insert_of_contained hs hsp⟩

end Step

/-! ## Whole runs -/

theorem inv_empty (format_version : Nat) : Inv format_version ∅ (empty format_version).part_info_to_name where
  sorted := List.Pairwise.nil
  mem _ he := absurd he List.not_mem_nil
  maximal _ he := absurd he List.not_mem_nil
  covered a ha := absurd ha (Set.notMem_empty a)
  named _ he := absurd he List.not_mem_nil

/-- Every sequence of `add` calls whose parts are valid and pairwise nested keeps the invariant,
    with all of them added. -/
theorem run_inv {format_version : Nat} {names : List (List Char)} :
    ∀ {infos : List MergeTreePartInfo} {A : Set MergeTreePartInfo} {parts : List (MergeTreePartInfo × List Char)},
      names.map (tryParsePartName · format_version) = infos.map some → Inv format_version A parts →
      (∀ a ∈ A ∪ {p | p ∈ infos}, Valid a) → (∀ a ∈ A ∪ {p | p ∈ infos}, ∀ b ∈ A ∪ {p | p ∈ infos}, Nested a b) →
      ∃ parts', names.foldlM add ⟨format_version, parts⟩ = .ok ⟨format_version, parts'⟩ ∧
        Inv format_version (A ∪ {p | p ∈ infos}) parts' := by
  induction names with
  | nil =>
    intro infos A parts hparse hinv _ _
    have hnil : infos = [] := by simpa using hparse.symm
    subst hnil
    exact ⟨parts, rfl, by simpa using hinv⟩
  | cons name names ih =>
    intro infos A parts hparse hinv hvalid hnest
    obtain ⟨p, infos, rfl⟩ : ∃ p ps, infos = p :: ps := by
      cases infos with
      | nil => simp at hparse
      | cons p ps => exact ⟨p, ps, rfl⟩
    simp only [List.map_cons, List.cons.injEq] at hparse
    -- the parts added so far, the new one first
    have hset : A ∪ {x | x ∈ p :: infos} = insert p A ∪ {x | x ∈ infos} := by
      ext x
      simp only [Set.mem_union, Set.mem_ofPred_eq, List.mem_cons, Set.mem_insert_iff]
      constructor
      · rintro (h | h | h)
        · exact Or.inl (Or.inr h)
        · exact Or.inl (Or.inl h)
        · exact Or.inr h
      · rintro ((h | h) | h)
        · exact Or.inr (Or.inl h)
        · exact Or.inl h
        · exact Or.inr (Or.inr h)
    rw [hset] at hvalid hnest ⊢
    have hsub : ∀ a ∈ insert p A, a ∈ insert p A ∪ {x | x ∈ infos} := fun a ha => Set.mem_union_left _ ha
    obtain ⟨parts₁, hadd, hinv₁⟩ := add_inv hinv (fun a ha => hvalid a (hsub a ha))
      (fun a ha b hb => hnest a (hsub a ha) b (hsub b hb)) hparse.1
    obtain ⟨parts', hrun, hinv'⟩ := ih hparse.2 hinv₁ hvalid hnest
    refine ⟨parts', ?_, hinv'⟩
    rw [List.foldlM_cons, hadd]
    exact hrun

end ActiveDataPartSet

end ClickHouseGpu.MergeTree
