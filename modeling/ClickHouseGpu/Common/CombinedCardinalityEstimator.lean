import Mathlib
import ClickHouseGpu.Lib.Checked

/-
  ClickHouseGpu.Common.CombinedCardinalityEstimator — the state of `uniqCombined`
  (Common/CombinedCardinalityEstimator.h, Common/HashTable/SmallTable.h): a `SmallSet` of
  `small_set_size_max` keys on the stack, then a `HashSet` (`Medium`) of at most
  `2^medium_set_power2_max` keys, then a `HyperLogLogCounter` (`Large`).

  `address` is the union of the `Medium` and `Large` pointers; its low two bits (`tag`) hold the
  container type, 0 once `clearContainerType` has run. A `getContainer<T>()` of a pointer to
  the other type is `Fault.wrongContainer`, a `throw Poco::Exception("Internal error")`
  `Fault.logicalError`. The `HashSet` is its keys in the order it iterates them; the
  `HyperLogLogCounter` is the set of keys it was given, which fixes its rank store (an insert is
  a maximum per bucket, a merge one per bucket of both), and `size()` of it is a parameter
  `estimate`. A buffer is the byte of the type and what the container's `write` puts after it:
  the keys of a `SmallSet` or a `HashSet`, or a `HyperLogLogCounter`.

  Proved:
  - `insert_spec`, `merge_spec`, `read_write`, `readAndMerge_spec`: every operation
    from a state with `Inv` returns, keeps `Inv` (the tag names the live container, whose
    pointer is set, and the small set is duplicate-free and within its capacity) and holds the
    union of the keys (`keys`); `built_spec` carries this over every run of the operations.
  - `insertAll_phase`: distinct keys fill the small set, then the hash set, in order.
  - `duplicate_key_at_full_medium_goes_large`: a hash set of `medium_set_size_max` distinct keys
    turns `LARGE` at the next insert of a key it holds: the same set of keys, counted exactly or
    estimated, by the order of the inserts; for `uniqCombined` (16, 14) the keys
    `0 .. 2^14 - 1` and then 0 again (`uniqCombined_duplicate_key_goes_large`).
-/

namespace ClickHouseGpu.Common

namespace details

inductive ContainerType where
  | SMALL
  | MEDIUM
  | LARGE
  deriving DecidableEq, Repr

/-- The enumerator's value, kept in the pointer's low two bits. -/
def ContainerType.val : ContainerType → UInt8
  | .SMALL => 1
  | .MEDIUM => 2
  | .LARGE => 3

@[simp] theorem ContainerType.val_inj {a b : ContainerType} : a.val = b.val ↔ a = b := by
  cases a <;> cases b <;> decide

/-- `details::max` on the values: `std::max` returns its first argument on a tie. -/
def max (lhs rhs : UInt8) : UInt8 := if lhs < rhs then rhs else lhs

end details

open details Checked

inductive Fault where
  | logicalError
  | illegalSize
  | wrongContainer
  | badPayload
  deriving DecidableEq, Repr

/-- What `address` points to, its tag aside. -/
inductive Container (Key : Type) where
  | null
  | medium (keys : List Key)
  | large (keys : Finset Key)
  deriving DecidableEq

structure CombinedCardinalityEstimator (Key : Type) where
  small : List Key
  address : Container Key
  tag : UInt8
  deriving DecidableEq

/-- What `write` puts after the type byte. -/
inductive Payload (Key : Type) where
  | keys (keys : List Key)
  | rank_store (keys : Finset Key)
  deriving DecidableEq

namespace CombinedCardinalityEstimator

variable {Key : Type} [DecidableEq Key]

/-- `1UL << medium_set_power2_max`, kept in a `UInt32`. -/
def medium_set_size_max (medium_set_power2_max : Nat) : Nat := 2 ^ medium_set_power2_max % 2 ^ 32

def getContainerType (s : CombinedCardinalityEstimator Key) : UInt8 := s.tag

def setContainerType (s : CombinedCardinalityEstimator Key) (t : ContainerType) : CombinedCardinalityEstimator Key :=
  { s with tag := t.val }

def clearContainerType (s : CombinedCardinalityEstimator Key) : CombinedCardinalityEstimator Key :=
  { s with tag := 0 }

def getMedium (s : CombinedCardinalityEstimator Key) : Except Fault (List Key) :=
  match s.address with
  | .medium m => .ok m
  | _ => .error .wrongContainer

def getLarge (s : CombinedCardinalityEstimator Key) : Except Fault (Finset Key) :=
  match s.address with
  | .large l => .ok l
  | _ => .error .wrongContainer

/-- `HashSet::insert`. -/
def mediumInsert (m : List Key) (x : Key) : List Key := if x ∈ m then m else m ++ [x]

/-- `HyperLogLogCounter::insert`. -/
def largeInsert (l : Finset Key) (x : Key) : Finset Key := insert x l

/-- `CombinedCardinalityEstimator()`. -/
def empty : CombinedCardinalityEstimator Key := ⟨[], .null, ContainerType.SMALL.val⟩

def toMedium (s : CombinedCardinalityEstimator Key) : Except Fault (CombinedCardinalityEstimator Key) :=
  if s.getContainerType ≠ ContainerType.SMALL.val then .error .logicalError
  else .ok (setContainerType { s with address := .medium (s.small.foldl mediumInsert []) } .MEDIUM)

def destroy (s : CombinedCardinalityEstimator Key) : CombinedCardinalityEstimator Key :=
  let container_type := s.getContainerType
  let s := s.clearContainerType
  if container_type = ContainerType.MEDIUM.val then { s with address := .null }
  else if container_type = ContainerType.LARGE.val then { s with address := .null }
  else s

def toLarge (s : CombinedCardinalityEstimator Key) : Except Fault (CombinedCardinalityEstimator Key) := do
  let container_type := s.getContainerType
  if container_type ≠ ContainerType.SMALL.val ∧ container_type ≠ ContainerType.MEDIUM.val then
    throw .logicalError
  if container_type = ContainerType.SMALL.val then
    pure (setContainerType { s with address := .large (s.small.foldl largeInsert ∅) } .LARGE)
  else
    let m ← s.getMedium
    pure (setContainerType { s.destroy with address := .large (m.foldl largeInsert ∅) } .LARGE)

section Params

variable (small_set_size_max medium_set_power2_max : Nat)

def insert (s : CombinedCardinalityEstimator Key) (value : Key) : Except Fault (CombinedCardinalityEstimator Key) := do
  let container_type := s.getContainerType
  if container_type = ContainerType.SMALL.val then
    if value ∉ s.small then
      -- `small.full()`
      if s.small.length ≠ small_set_size_max then pure { s with small := s.small ++ [value] }
      else
        let s ← s.toMedium
        let m ← s.getMedium
        pure { s with address := .medium (mediumInsert m value) }
    else pure s
  else if container_type = ContainerType.MEDIUM.val then
    let m ← s.getMedium
    if m.length < medium_set_size_max medium_set_power2_max then
      pure { s with address := .medium (mediumInsert m value) }
    else
      let s ← s.toLarge
      let l ← s.getLarge
      pure { s with address := .large (largeInsert l value) }
  else if container_type = ContainerType.LARGE.val then
    let l ← s.getLarge
    pure { s with address := .large (largeInsert l value) }
  else pure s

def size (estimate : Finset Key → Nat) (s : CombinedCardinalityEstimator Key) : Except Fault Nat := do
  let container_type := s.getContainerType
  if container_type = ContainerType.SMALL.val then pure s.small.length
  else if container_type = ContainerType.MEDIUM.val then
    let m ← s.getMedium
    pure m.length
  else if container_type = ContainerType.LARGE.val then
    let l ← s.getLarge
    pure (estimate l)
  else throw .logicalError

/-- The conversion `merge` and `readAndMerge` start with: to the larger of the two types. -/
def convertTo (s : CombinedCardinalityEstimator Key) (rhs_container_type : UInt8) :
    Except Fault (CombinedCardinalityEstimator Key) :=
  let container_type := s.getContainerType
  let max_container_type := details.max container_type rhs_container_type
  if container_type ≠ max_container_type then
    if max_container_type = ContainerType.MEDIUM.val then s.toMedium
    else if max_container_type = ContainerType.LARGE.val then s.toLarge
    else pure s
  else pure s

def merge (s rhs : CombinedCardinalityEstimator Key) : Except Fault (CombinedCardinalityEstimator Key) := do
  let s ← s.convertTo rhs.getContainerType
  if rhs.getContainerType = ContainerType.SMALL.val then
    rhs.small.foldlM (insert small_set_size_max medium_set_power2_max) s
  else if rhs.getContainerType = ContainerType.MEDIUM.val then
    let m ← rhs.getMedium
    m.foldlM (insert small_set_size_max medium_set_power2_max) s
  else if rhs.getContainerType = ContainerType.LARGE.val then
    let l ← s.getLarge
    let r ← rhs.getLarge
    pure { s with address := .large (l ∪ r) }
  else pure s

def write (s : CombinedCardinalityEstimator Key) : Except Fault (UInt8 × Payload Key) := do
  let container_type := s.getContainerType
  if container_type = ContainerType.SMALL.val then pure (container_type, .keys s.small)
  else if container_type = ContainerType.MEDIUM.val then
    let m ← s.getMedium
    pure (container_type, .keys m)
  else if container_type = ContainerType.LARGE.val then
    let l ← s.getLarge
    pure (container_type, .rank_store l)
  else pure (container_type, .keys [])

/-- `read`, which the source allows on an empty object only. `HashSet::read` inserts the keys
    into a cleared table. -/
def read (s : CombinedCardinalityEstimator Key) (buf : UInt8 × Payload Key) :
    Except Fault (CombinedCardinalityEstimator Key) := do
  let container_type := buf.1
  if container_type = ContainerType.SMALL.val then
    match buf.2 with
    | .keys l => if l.length > small_set_size_max then throw .illegalSize else pure { s with small := l }
    | .rank_store _ => throw .badPayload
  else if container_type = ContainerType.MEDIUM.val then
    let s ← s.toMedium
    match buf.2 with
    | .keys l => pure { s with address := .medium (l.foldl mediumInsert []) }
    | .rank_store _ => throw .badPayload
  else if container_type = ContainerType.LARGE.val then
    let s ← s.toLarge
    match buf.2 with
    | .rank_store l => pure { s with address := .large l }
    | .keys _ => throw .badPayload
  else pure s

def readAndMerge (s : CombinedCardinalityEstimator Key) (buf : UInt8 × Payload Key) :
    Except Fault (CombinedCardinalityEstimator Key) := do
  if s.getContainerType = ContainerType.SMALL.val ∧ s.small = [] then
    read small_set_size_max s buf
  else
    let rhs_container_type := buf.1
    let s ← s.convertTo rhs_container_type
    if rhs_container_type = ContainerType.SMALL.val ∨ rhs_container_type = ContainerType.MEDIUM.val then
      -- `Small::Reader` and `Medium::Reader` give the keys as written
      match buf.2 with
      | .keys l => l.foldlM (insert small_set_size_max medium_set_power2_max) s
      | .rank_store _ => throw .badPayload
    else if rhs_container_type = ContainerType.LARGE.val then
      let l ← s.getLarge
      match buf.2 with
      | .rank_store r => pure { s with address := .large (l ∪ r) }
      | .keys _ => throw .badPayload
    else pure s

end Params

omit [DecidableEq Key] in
@[simp] theorem setContainerType_small (s : CombinedCardinalityEstimator Key) (t : ContainerType) :
    (s.setContainerType t).small = s.small := rfl

omit [DecidableEq Key] in
@[simp] theorem setContainerType_address (s : CombinedCardinalityEstimator Key) (t : ContainerType) :
    (s.setContainerType t).address = s.address := rfl

omit [DecidableEq Key] in
@[simp] theorem setContainerType_tag (s : CombinedCardinalityEstimator Key) (t : ContainerType) :
    (s.setContainerType t).tag = t.val := rfl

omit [DecidableEq Key] in
@[simp] theorem destroy_small (s : CombinedCardinalityEstimator Key) : s.destroy.small = s.small := by
  dsimp only [destroy]
  split_ifs <;> rfl

/-! ## The keys held, and the invariant -/

/-- The keys the live container holds. -/
def keys (s : CombinedCardinalityEstimator Key) : Finset Key :=
  match s.address with
  | .null => s.small.toFinset
  | .medium m => m.toFinset
  | .large l => l

/-- The tag names the live container, whose pointer is set; the hash set and, while it is the
    live container, the small set hold no key twice, and the small set is within its capacity. -/
inductive Inv (small_set_size_max : Nat) : CombinedCardinalityEstimator Key → Prop
  | small {small : List Key} (hnodup : small.Nodup) (hle : small.length ≤ small_set_size_max) :
      Inv small_set_size_max ⟨small, .null, ContainerType.SMALL.val⟩
  | medium (small : List Key) {m : List Key} (hm : m.Nodup) :
      Inv small_set_size_max ⟨small, .medium m, ContainerType.MEDIUM.val⟩
  | large (small : List Key) (l : Finset Key) : Inv small_set_size_max ⟨small, .large l, ContainerType.LARGE.val⟩

theorem nodup_mediumInsert {m : List Key} (hm : m.Nodup) (x : Key) : (mediumInsert m x).Nodup := by
  unfold mediumInsert
  split
  · exact hm
  · rename_i hx
    exact hm.append (List.nodup_singleton x) (by simpa using hx)

theorem toFinset_mediumInsert (m : List Key) (x : Key) :
    (mediumInsert m x).toFinset = Insert.insert x m.toFinset := by
  unfold mediumInsert
  split
  · rename_i hx
    exact (Finset.insert_eq_of_mem (List.mem_toFinset.mpr hx)).symm
  · rw [List.toFinset_append, Finset.insert_eq, Finset.union_comm]
    rfl

theorem foldl_mediumInsert (l : List Key) {m : List Key} (hm : m.Nodup) :
    (l.foldl mediumInsert m).Nodup ∧ (l.foldl mediumInsert m).toFinset = m.toFinset ∪ l.toFinset := by
  induction l generalizing m with
  | nil => simp [hm]
  | cons x l ih =>
    obtain ⟨h1, h2⟩ := ih (nodup_mediumInsert hm x)
    refine ⟨h1, ?_⟩
    rw [List.foldl_cons, h2, toFinset_mediumInsert, List.toFinset_cons, Finset.insert_union,
      ← Finset.union_insert]

/-- Distinct keys go into the hash set in order. -/
theorem foldl_mediumInsert_of_nodup {l : List Key} (hl : l.Nodup) : l.foldl mediumInsert [] = l := by
  induction l using List.reverseRecOn with
  | nil => rfl
  | append_singleton l x ih =>
    have hx : x ∉ l := fun hx => (List.nodup_append.mp hl).2.2 x hx x (List.mem_singleton_self x) rfl
    rw [List.foldl_append, ih (hl.sublist (List.sublist_append_left l [x])), List.foldl_cons, List.foldl_nil,
      mediumInsert, if_neg hx]

theorem foldl_largeInsert (l : List Key) (L : Finset Key) : l.foldl largeInsert L = L ∪ l.toFinset := by
  induction l generalizing L with
  | nil => simp
  | cons x l ih =>
    rw [List.foldl_cons, ih, largeInsert, List.toFinset_cons, Finset.insert_union, ← Finset.union_insert]

/-! ## One operation -/

section Params

variable {small_set_size_max medium_set_power2_max : Nat}

theorem toMedium_spec (small : List Key) (a : Container Key) :
    toMedium ⟨small, a, ContainerType.SMALL.val⟩ =
      .ok ⟨small, .medium (small.foldl mediumInsert []), ContainerType.MEDIUM.val⟩ := by
  rfl

theorem keys_toMedium (small : List Key) :
    keys (⟨small, .medium (small.foldl mediumInsert []), ContainerType.MEDIUM.val⟩ : CombinedCardinalityEstimator Key) =
      small.toFinset := by
  simp only [keys]
  rw [(foldl_mediumInsert small List.nodup_nil).2]
  simp

/-- `toLarge` of a small or medium set gives a counter of its keys. -/
theorem toLarge_spec {s : CombinedCardinalityEstimator Key} (h : Inv small_set_size_max s)
    (ht : s.tag = ContainerType.SMALL.val ∨ s.tag = ContainerType.MEDIUM.val) :
    ∃ s', s.toLarge = .ok s' ∧ Inv small_set_size_max s' ∧ s'.tag = ContainerType.LARGE.val ∧ keys s' = keys s := by
  cases h with
  | small hnodup hle =>
    refine ⟨_, rfl, .large _ _, rfl, ?_⟩
    simp [keys, foldl_largeInsert]
  | medium small hm =>
    refine ⟨_, rfl, .large _ _, rfl, ?_⟩
    simp [keys, foldl_largeInsert]
  | large small l => simp [ContainerType.val] at ht

/-- `insert` into the small set: a new key goes into it while it has room, else the set turns
    into a hash set first. -/
theorem insert_small (small : List Key) (value : Key) :
    insert small_set_size_max medium_set_power2_max ⟨small, .null, ContainerType.SMALL.val⟩ value =
      if value ∉ small then
        if small.length ≠ small_set_size_max then .ok ⟨small ++ [value], .null, ContainerType.SMALL.val⟩
        else .ok ⟨small, .medium (mediumInsert (small.foldl mediumInsert []) value), ContainerType.MEDIUM.val⟩
      else .ok ⟨small, .null, ContainerType.SMALL.val⟩ := by
  simp only [insert, getContainerType]
  split_ifs <;> rfl

/-- `insert` into the hash set: while it has fewer than `medium_set_size_max` keys, else the set
    turns into a counter first, whether the key is new or not. -/
theorem insert_medium (small m : List Key) (value : Key) :
    insert small_set_size_max medium_set_power2_max ⟨small, .medium m, ContainerType.MEDIUM.val⟩ value =
      if m.length < medium_set_size_max medium_set_power2_max then
        .ok ⟨small, .medium (mediumInsert m value), ContainerType.MEDIUM.val⟩
      else .ok ⟨small, .large (largeInsert (m.foldl largeInsert ∅) value), ContainerType.LARGE.val⟩ := by
  simp only [insert, getContainerType, ContainerType.val_inj, reduceCtorEq, if_false, if_true, getMedium,
    ok_bind]
  split_ifs <;> rfl

theorem insert_large (small : List Key) (l : Finset Key) (value : Key) :
    insert small_set_size_max medium_set_power2_max ⟨small, .large l, ContainerType.LARGE.val⟩ value =
      .ok ⟨small, .large (largeInsert l value), ContainerType.LARGE.val⟩ := rfl

variable (medium_set_power2_max) in
/-- `insert` keeps `Inv` and adds the key to those held. -/
theorem insert_spec {s : CombinedCardinalityEstimator Key} (h : Inv small_set_size_max s) (value : Key) :
    ∃ s', insert small_set_size_max medium_set_power2_max s value = .ok s' ∧
      Inv small_set_size_max s' ∧ keys s' = Insert.insert value (keys s) := by
  cases h with
  | @small sm hnodup hle =>
    rw [insert_small]
    by_cases hv : value ∈ sm
    · rw [if_neg (not_not.mpr hv)]
      refine ⟨_, rfl, .small hnodup hle, ?_⟩
      simp only [keys]
      exact (Finset.insert_eq_of_mem (List.mem_toFinset.mpr hv)).symm
    · rw [if_pos hv]
      by_cases hfull : sm.length = small_set_size_max
      · -- the small set is full: it turns into a hash set, which takes the key
        rw [if_neg (not_not.mpr hfull)]
        obtain ⟨hm, hkeys⟩ := foldl_mediumInsert sm List.nodup_nil
        refine ⟨_, rfl, .medium _ (nodup_mediumInsert hm value), ?_⟩
        simp only [keys]
        rw [toFinset_mediumInsert, hkeys, List.toFinset_nil, Finset.empty_union]
      · rw [if_pos hfull]
        have hlen : (sm ++ [value]).length ≤ small_set_size_max := by
          rw [List.length_append, List.length_singleton]
          omega
        refine ⟨_, rfl, .small (hnodup.append (List.nodup_singleton value) (by simpa using hv)) hlen, ?_⟩
        simp only [keys]
        rw [← toFinset_mediumInsert, mediumInsert, if_neg hv]
  | medium small hm =>
    rw [insert_medium]
    split_ifs
    · refine ⟨_, rfl, .medium _ (nodup_mediumInsert hm value), ?_⟩
      simp only [keys]
      rw [toFinset_mediumInsert]
    · refine ⟨_, rfl, .large _ _, ?_⟩
      simp [keys, largeInsert, foldl_largeInsert]
  | large small l =>
    rw [insert_large]
    exact ⟨_, rfl, .large _ _, rfl⟩

variable (medium_set_power2_max) in
/-- Keys inserted one after another. -/
theorem insertAll_spec {s : CombinedCardinalityEstimator Key} (h : Inv small_set_size_max s) (l : List Key) :
    ∃ s', l.foldlM (insert small_set_size_max medium_set_power2_max) s = .ok s' ∧
      Inv small_set_size_max s' ∧ keys s' = keys s ∪ l.toFinset := by
  induction l generalizing s with
  | nil => exact ⟨s, rfl, h, by simp⟩
  | cons x l ih =>
    obtain ⟨s1, h1, hinv1, hk1⟩ := insert_spec medium_set_power2_max h x
    obtain ⟨s2, h2, hinv2, hk2⟩ := ih hinv1
    refine ⟨s2, ?_, hinv2, ?_⟩
    · rw [List.foldlM_cons, h1, ok_bind, h2]
    · rw [hk2, hk1, List.toFinset_cons, Finset.insert_union, Finset.union_insert]

/-- The conversion to the type of the other side keeps the keys, and reaches `LARGE` when the
    other side is. -/
theorem convertTo_spec {s : CombinedCardinalityEstimator Key} (h : Inv small_set_size_max s) (t : ContainerType) :
    ∃ s', convertTo s t.val = .ok s' ∧ Inv small_set_size_max s' ∧ keys s' = keys s ∧
      (t = .LARGE → s'.tag = ContainerType.LARGE.val) := by
  cases h with
  | @small sm hnodup hle =>
    cases t with
    | SMALL => exact ⟨_, rfl, .small hnodup hle, rfl, nofun⟩
    | MEDIUM =>
      refine ⟨_, rfl, .medium _ (foldl_mediumInsert sm List.nodup_nil).1, keys_toMedium sm, nofun⟩
    | LARGE =>
      obtain ⟨s', h', hinv, htag, hk⟩ := toLarge_spec (.small hnodup hle) (.inl rfl)
      exact ⟨s', h', hinv, hk, fun _ => htag⟩
  | medium sm hm =>
    cases t with
    | SMALL => exact ⟨_, rfl, .medium sm hm, rfl, nofun⟩
    | MEDIUM => exact ⟨_, rfl, .medium sm hm, rfl, nofun⟩
    | LARGE =>
      obtain ⟨s', h', hinv, htag, hk⟩ := toLarge_spec (show Inv small_set_size_max _ from .medium sm hm) (.inr rfl)
      exact ⟨s', h', hinv, hk, fun _ => htag⟩
  | large sm l =>
    cases t with
    | SMALL => exact ⟨_, rfl, .large sm l, rfl, fun _ => rfl⟩
    | MEDIUM => exact ⟨_, rfl, .large sm l, rfl, fun _ => rfl⟩
    | LARGE => exact ⟨_, rfl, .large sm l, rfl, fun _ => rfl⟩

variable (medium_set_power2_max) in
/-- `merge` keeps `Inv` and holds the keys of both sides. -/
theorem merge_spec {s rhs : CombinedCardinalityEstimator Key} (h : Inv small_set_size_max s)
    (hr : Inv small_set_size_max rhs) :
    ∃ s', merge small_set_size_max medium_set_power2_max s rhs = .ok s' ∧ Inv small_set_size_max s' ∧
      keys s' = keys s ∪ keys rhs := by
  cases hr with
  | @small rs hnodup hle =>
    obtain ⟨s1, h1, hinv1, hk1, -⟩ := convertTo_spec h .SMALL
    obtain ⟨s2, h2, hinv2, hk2⟩ := insertAll_spec medium_set_power2_max hinv1 rs
    refine ⟨s2, ?_, hinv2, by rw [hk2, hk1]; rfl⟩
    simp only [merge, getContainerType, h1, ok_bind, ContainerType.val_inj, reduceCtorEq, if_false, if_true]
    exact h2
  | @medium rs m hm =>
    obtain ⟨s1, h1, hinv1, hk1, -⟩ := convertTo_spec h .MEDIUM
    obtain ⟨s2, h2, hinv2, hk2⟩ := insertAll_spec medium_set_power2_max hinv1 m
    refine ⟨s2, ?_, hinv2, by rw [hk2, hk1]; rfl⟩
    simp only [merge, getContainerType, h1, ok_bind, ContainerType.val_inj, reduceCtorEq, if_false, if_true,
      getMedium]
    exact h2
  | large rs r =>
    obtain ⟨s1, h1, hinv1, hk1, htag⟩ := convertTo_spec h .LARGE
    cases hinv1 with
    | large sm l =>
      refine ⟨_, ?_, .large sm (l ∪ r), by rw [← hk1]; rfl⟩
      simp only [merge, getContainerType, h1, ok_bind, ContainerType.val_inj, reduceCtorEq, if_false, if_true,
        getLarge]
      rfl
    | small =>
      have := htag rfl
      simp at this
    | medium =>
      have := htag rfl
      simp at this

/-! ## Serialization -/

/-- What `write` gives, `read` into a new estimator reads back. -/
theorem read_write {s : CombinedCardinalityEstimator Key} (h : Inv small_set_size_max s) :
    ∃ buf s', s.write = .ok buf ∧ read small_set_size_max empty buf = .ok s' ∧ Inv small_set_size_max s' ∧
      keys s' = keys s ∧ s'.tag = s.tag := by
  cases h with
  | @small sm hnodup hle =>
    refine ⟨_, _, rfl, ?_, .small hnodup hle, rfl, rfl⟩
    simp only [read]
    rw [if_neg (Nat.not_lt.mpr hle)]
    rfl
  | @medium sm m hm =>
    refine ⟨_, ⟨[], .medium (m.foldl mediumInsert []), ContainerType.MEDIUM.val⟩, rfl, rfl, ?_, ?_, rfl⟩
    · rw [foldl_mediumInsert_of_nodup hm]
      exact .medium [] hm
    · simp only [keys]
      rw [foldl_mediumInsert_of_nodup hm]
  | large sm l => exact ⟨_, _, rfl, rfl, .large [] l, rfl, rfl⟩

variable (medium_set_power2_max) in
/-- `readAndMerge` of what `write` gives holds the keys of both sides. -/
theorem readAndMerge_spec {s rhs : CombinedCardinalityEstimator Key} {buf : UInt8 × Payload Key}
    (h : Inv small_set_size_max s) (hr : Inv small_set_size_max rhs) (hbuf : rhs.write = .ok buf) :
    ∃ s', readAndMerge small_set_size_max medium_set_power2_max s buf = .ok s' ∧ Inv small_set_size_max s' ∧
      keys s' = keys s ∪ keys rhs := by
  by_cases he : s.getContainerType = ContainerType.SMALL.val ∧ s.small = []
  · -- a new estimator reads the other side
    have hs : s = empty := by
      obtain ⟨htag, hsmall⟩ := he
      cases h with
      | small => simp_all [empty]
      | medium => simp [getContainerType] at htag
      | large => simp [getContainerType] at htag
    subst hs
    obtain ⟨buf', s', hw, hread, hinv, hk, -⟩ := read_write hr
    rw [hbuf, Except.ok.injEq] at hw
    subst hw
    refine ⟨s', ?_, hinv, ?_⟩
    · simp only [readAndMerge]
      rw [if_pos he]
      exact hread
    · rw [hk]
      exact (Finset.empty_union _).symm
  · cases hr with
    | @small rs hnodup hle =>
      obtain rfl : buf = (ContainerType.SMALL.val, .keys rs) := (Except.ok.inj hbuf).symm
      obtain ⟨s1, h1, hinv1, hk1, -⟩ := convertTo_spec h .SMALL
      obtain ⟨s2, h2, hinv2, hk2⟩ := insertAll_spec medium_set_power2_max hinv1 rs
      refine ⟨s2, ?_, hinv2, by rw [hk2, hk1]; rfl⟩
      simp only [readAndMerge]
      rw [if_neg he]
      simp only [h1, ok_bind, ContainerType.val_inj, reduceCtorEq, true_or, if_true]
      exact h2
    | @medium rs m hm =>
      obtain rfl : buf = (ContainerType.MEDIUM.val, .keys m) := (Except.ok.inj hbuf).symm
      obtain ⟨s1, h1, hinv1, hk1, -⟩ := convertTo_spec h .MEDIUM
      obtain ⟨s2, h2, hinv2, hk2⟩ := insertAll_spec medium_set_power2_max hinv1 m
      refine ⟨s2, ?_, hinv2, by rw [hk2, hk1]; rfl⟩
      simp only [readAndMerge]
      rw [if_neg he]
      simp only [h1, ok_bind, ContainerType.val_inj, reduceCtorEq, or_true, if_true]
      exact h2
    | large rs r =>
      obtain rfl : buf = (ContainerType.LARGE.val, .rank_store r) := (Except.ok.inj hbuf).symm
      obtain ⟨s1, h1, hinv1, hk1, htag⟩ := convertTo_spec h .LARGE
      cases hinv1 with
      | large sm l =>
        refine ⟨_, ?_, .large sm (l ∪ r), by rw [← hk1]; rfl⟩
        simp only [readAndMerge]
        rw [if_neg he]
        simp only [h1, ok_bind, ContainerType.val_inj, reduceCtorEq, or_false, if_false, if_true, getLarge]
        rfl
      | small =>
        have := htag rfl
        simp at this
      | medium =>
        have := htag rfl
        simp at this

/-- `size()`: the number of keys held, exactly while they are in a set, estimated once they are
    in the counter. -/
theorem size_spec (estimate : Finset Key → Nat) {s : CombinedCardinalityEstimator Key}
    (h : Inv small_set_size_max s) :
    size estimate s = .ok (if s.tag = ContainerType.LARGE.val then estimate (keys s) else (keys s).card) := by
  cases h with
  | small hnodup =>
    rw [if_neg (by simp)]
    exact congrArg Except.ok (List.toFinset_card_of_nodup hnodup).symm
  | medium sm hm =>
    rw [if_neg (by simp)]
    exact congrArg Except.ok (List.toFinset_card_of_nodup hm).symm
  | large sm l => rfl

/-! ## Every run -/

/-- The states runs of the operations build from new estimators, and the keys they were given. -/
inductive Built (small_set_size_max medium_set_power2_max : Nat) : CombinedCardinalityEstimator Key → Finset Key → Prop
  | empty : Built small_set_size_max medium_set_power2_max empty ∅
  | insert {s s' : CombinedCardinalityEstimator Key} {S : Finset Key} (value : Key) :
      Built small_set_size_max medium_set_power2_max s S →
      insert small_set_size_max medium_set_power2_max s value = .ok s' →
      Built small_set_size_max medium_set_power2_max s' (Insert.insert value S)
  | merge {s rhs s' : CombinedCardinalityEstimator Key} {S R : Finset Key} :
      Built small_set_size_max medium_set_power2_max s S → Built small_set_size_max medium_set_power2_max rhs R →
      merge small_set_size_max medium_set_power2_max s rhs = .ok s' →
      Built small_set_size_max medium_set_power2_max s' (S ∪ R)
  | read {rhs s' : CombinedCardinalityEstimator Key} {R : Finset Key} {buf : UInt8 × Payload Key} :
      Built small_set_size_max medium_set_power2_max rhs R → rhs.write = .ok buf →
      read small_set_size_max empty buf = .ok s' → Built small_set_size_max medium_set_power2_max s' R
  | readAndMerge {s rhs s' : CombinedCardinalityEstimator Key} {S R : Finset Key} {buf : UInt8 × Payload Key} :
      Built small_set_size_max medium_set_power2_max s S → Built small_set_size_max medium_set_power2_max rhs R →
      rhs.write = .ok buf → readAndMerge small_set_size_max medium_set_power2_max s buf = .ok s' →
      Built small_set_size_max medium_set_power2_max s' (S ∪ R)

/-- Every state a run builds keeps `Inv` and holds exactly the keys it was given. -/
theorem built_spec {s : CombinedCardinalityEstimator Key} {S : Finset Key}
    (h : Built small_set_size_max medium_set_power2_max s S) : Inv small_set_size_max s ∧ keys s = S := by
  induction h with
  | empty => exact ⟨.small List.nodup_nil (Nat.zero_le _), rfl⟩
  | insert value _ hop ih =>
    obtain ⟨s', h', hinv, hk⟩ := insert_spec medium_set_power2_max ih.1 value
    rw [hop, Except.ok.injEq] at h'
    subst h'
    exact ⟨hinv, by rw [hk, ih.2]⟩
  | merge _ _ hop ih ihr =>
    obtain ⟨s', h', hinv, hk⟩ := merge_spec medium_set_power2_max ih.1 ihr.1
    rw [hop, Except.ok.injEq] at h'
    subst h'
    exact ⟨hinv, by rw [hk, ih.2, ihr.2]⟩
  | read _ hw hop ih =>
    obtain ⟨buf', s', hw', hread, hinv, hk, -⟩ := read_write ih.1
    rw [hw, Except.ok.injEq] at hw'
    subst hw'
    rw [hop, Except.ok.injEq] at hread
    subst hread
    exact ⟨hinv, by rw [hk, ih.2]⟩
  | readAndMerge _ _ hw hop ih ihr =>
    obtain ⟨s', h', hinv, hk⟩ := readAndMerge_spec medium_set_power2_max ih.1 ihr.1 hw
    rw [hop, Except.ok.injEq] at h'
    subst h'
    exact ⟨hinv, by rw [hk, ih.2, ihr.2]⟩

theorem built_spec_insert :
    Built 16 14 (⟨[5], .null, ContainerType.SMALL.val⟩ : CombinedCardinalityEstimator Nat) (Insert.insert 5 ∅) ∧
      Inv 16 (⟨[5], .null, ContainerType.SMALL.val⟩ : CombinedCardinalityEstimator Nat) ∧
      keys (⟨[5], .null, ContainerType.SMALL.val⟩ : CombinedCardinalityEstimator Nat) = Insert.insert 5 ∅ := by
  have hb : Built 16 14 (⟨[5], .null, ContainerType.SMALL.val⟩ : CombinedCardinalityEstimator Nat)
      (Insert.insert 5 ∅) := .insert 5 .empty rfl
  exact ⟨hb, built_spec hb⟩

/-! ## The order of the inserts -/

/-- Where the distinct keys `l` inserted into a new estimator are: all in the small set while they
    fit, else the first `small_set_size_max` of them there and all of them in the hash set. -/
def Phase (small_set_size_max : Nat) (l : List Key) (s : CombinedCardinalityEstimator Key) : Prop :=
  (l.length ≤ small_set_size_max → s = ⟨l, .null, ContainerType.SMALL.val⟩) ∧
    (small_set_size_max < l.length → s = ⟨l.take small_set_size_max, .medium l, ContainerType.MEDIUM.val⟩)

/-- Distinct keys fill the small set, then (once it is full) the hash set, in order. -/
theorem insertAll_phase {l : List Key} (hl : l.Nodup) (hlen : l.length ≤ medium_set_size_max medium_set_power2_max) :
    ∃ s, l.foldlM (insert small_set_size_max medium_set_power2_max) empty = .ok s ∧ Phase small_set_size_max l s := by
  induction l using List.reverseRecOn with
  | nil => exact ⟨_, rfl, fun _ => rfl, fun h => absurd h (Nat.not_lt_zero _)⟩
  | append_singleton l x ih =>
    have hx : x ∉ l := fun hx => (List.nodup_append.mp hl).2.2 x hx x (List.mem_singleton_self x) rfl
    have hl' : l.Nodup := hl.sublist (List.sublist_append_left l [x])
    rw [List.length_append, List.length_singleton] at hlen
    obtain ⟨s, hs, hphase⟩ := ih hl' (by omega)
    simp only [List.foldlM_append, hs, ok_bind, List.foldlM_cons, List.foldlM_nil, bind_pure]
    unfold Phase
    rw [List.length_append, List.length_singleton]
    by_cases hsmall : l.length ≤ small_set_size_max
    · rw [hphase.1 hsmall, insert_small, if_pos hx]
      by_cases hfull : l.length = small_set_size_max
      · -- the key that does not fit turns the small set into a hash set
        rw [if_neg (not_not.mpr hfull), foldl_mediumInsert_of_nodup hl', mediumInsert, if_neg hx]
        refine ⟨_, rfl, fun h => absurd h (by omega), fun _ => ?_⟩
        rw [List.take_left' hfull]
      · rw [if_pos hfull]
        exact ⟨_, rfl, fun _ => rfl, fun h => absurd h (by omega)⟩
    · rw [hphase.2 (by omega), insert_medium, if_pos (by omega), mediumInsert, if_neg hx]
      refine ⟨_, rfl, fun h => absurd h (by omega), fun _ => ?_⟩
      rw [List.take_append_of_le_length (by omega)]

/-- A hash set filled to `medium_set_size_max` distinct keys turns into the counter at the next
    insert even when the key is one it holds: the same keys, one of them inserted twice, are
    counted exactly or estimated depending on where the second insert comes. -/
theorem duplicate_key_at_full_medium_goes_large {xs : List Key} (hxs : xs.Nodup)
    (hlen : xs.length = medium_set_size_max medium_set_power2_max) (hsmall : small_set_size_max < xs.length)
    {x : Key} (hx : x ∈ xs) :
    (xs ++ [x]).toFinset = xs.toFinset ∧
      (∃ s, xs.foldlM (insert small_set_size_max medium_set_power2_max) empty = .ok s ∧
        s.getContainerType = ContainerType.MEDIUM.val ∧ keys s = xs.toFinset) ∧
      ∃ s, (xs ++ [x]).foldlM (insert small_set_size_max medium_set_power2_max) empty = .ok s ∧
        s.getContainerType = ContainerType.LARGE.val := by
  obtain ⟨s, hs, hphase⟩ : ∃ s, xs.foldlM (insert small_set_size_max medium_set_power2_max) empty = .ok s ∧
      Phase small_set_size_max xs s := insertAll_phase hxs hlen.le
  rw [hphase.2 hsmall] at hs
  refine ⟨?_, ⟨_, hs, rfl, rfl⟩, ?_⟩
  · rw [List.toFinset_append, List.toFinset_cons, List.toFinset_nil, Finset.insert_empty]
    exact Finset.union_eq_left.mpr (Finset.singleton_subset_iff.mpr (List.mem_toFinset.mpr hx))
  · -- the set is full, so the insert converts it before it looks at the key
    refine ⟨⟨xs.take small_set_size_max, .large (largeInsert (xs.foldl largeInsert ∅) x), ContainerType.LARGE.val⟩,
      ?_, rfl⟩
    simp only [List.foldlM_append, hs, ok_bind, List.foldlM_cons, List.foldlM_nil, bind_pure]
    rw [insert_medium, if_neg (by rw [hlen]; exact Nat.lt_irrefl _)]

end Params

/-- For `uniqCombined` (a small set of 16, a hash set of `2^14`): the keys `0 .. 2^14 - 1` leave a
    `MEDIUM` set with all of them, counted exactly; one more insert of the key 0 turns the set into
    the `LARGE` counter. -/
theorem uniqCombined_duplicate_key_goes_large :
    let xs : List UInt32 := (List.range (2 ^ 14)).map Nat.toUInt32
    xs.Nodup ∧ xs.length = medium_set_size_max 14 ∧ 16 < xs.length ∧ (0 : UInt32) ∈ xs ∧
      ((xs ++ [0]).toFinset = xs.toFinset ∧
        (∃ s, xs.foldlM (insert 16 14) empty = .ok s ∧ s.getContainerType = ContainerType.MEDIUM.val ∧
          keys s = xs.toFinset) ∧
        ∃ s, (xs ++ [0]).foldlM (insert 16 14) empty = .ok s ∧ s.getContainerType = ContainerType.LARGE.val) := by
  intro xs
  have hinj : ∀ a ∈ List.range (2 ^ 14), ∀ b ∈ List.range (2 ^ 14), a.toUInt32 = b.toUInt32 → a = b := by
    intro a ha b hb hab
    have := congrArg UInt32.toNat hab
    simp only [Nat.toUInt32_eq, UInt32.toNat_ofNat'] at this
    rw [List.mem_range] at ha hb
    omega
  have hnodup : xs.Nodup := List.Nodup.map_on hinj List.nodup_range
  have hlen : xs.length = medium_set_size_max 14 := by simp [xs, medium_set_size_max]
  have hsmall : 16 < xs.length := by simp [xs]
  have h0 : (0 : UInt32) ∈ xs := List.mem_map.mpr ⟨0, List.mem_range.mpr (by decide), rfl⟩
  exact ⟨hnodup, hlen, hsmall, h0, duplicate_key_at_full_medium_goes_large hnodup hlen hsmall h0⟩

end CombinedCardinalityEstimator

end ClickHouseGpu.Common
