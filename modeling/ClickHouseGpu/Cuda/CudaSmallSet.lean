import ClickHouseGpu.Lib.Interleaving
import Mathlib.Data.Fintype.Fin

/-
  ClickHouseGpu.Cuda.CudaSmallSet — `CudaSmallSet<Key, capacity>::tryInsert` called by many GPU
  threads at once on one set (dbms/src/Common/Cuda/CudaSmallSet.h).

  A call is a thread of `Interleaving`. Its atomic steps are the zero test (with the write of
  `has_zero_elem` for the zero key), the read `x = buf[i]` with the two tests that follow it,
  and the `atomicCAS(&buf[i], x, key)` with the test of the value it returns; any call may
  take the next step. A read of one slot is taken as single-copy atomic, as a GPU load of an
  aligned word is. Keys are any type with equality and a zero key (`CudaZeroTraits::check` is
  `x == 0`); `buf` has `capacity` slots, every one zero in a fresh set.

  Proved:
  - `reachable_holds`: in every configuration any interleaving of calls reaches from a fresh
    set, the full slots come first, hold pairwise distinct keys of the calls, and each call's
    place in its loop tells what it has seen (`Wf`, `CallInv`, by the rely-guarantee rule: a
    step only fills an empty slot or sets `has_zero_elem`, `Grows`).
  - `size_of_quiescent`: once every call has returned true, `size()` counts the distinct keys.
  - `concurrent_tryInsert_is_set_insert`: the same for `CudaSmallSet<Key, 16>`, with what a
    call returning true or false means, and that a call for the zero key leaves `buf` alone.
-/

namespace ClickHouseGpu.Cuda

open Interleaving

variable {Key : Type} [DecidableEq Key] [Zero Key] {capacity : UInt8}

/-- `CudaSmallSet<Key, capacity>`. -/
structure CudaSmallSet (Key : Type) (capacity : UInt8) where
  has_zero_elem : Bool
  buf : Fin capacity.toNat → Key

namespace CudaSmallSet

/-- `CudaSmallSet()`, and `initNonzeroData()` over zeroed memory. -/
def empty : CudaSmallSet Key capacity := ⟨false, fun _ => 0⟩

/-- Where a call of `tryInsert` is: before its zero test, at the head of its loop with `i`
    slots passed, about to `atomicCAS` slot `i` that it read as `x`, or returned. The loop
    counter is a `UInt8` below `capacity`, so a `Nat` here. -/
inductive Pc (Key : Type) (capacity : UInt8) where
  | entry
  | head (i : Nat)
  | cas (i : Fin capacity.toNat) (x : Key)
  | ret (result : Bool)
  deriving DecidableEq

/-- A call of `tryInsert(key)`. -/
structure Call (Key : Type) (capacity : UInt8) where
  key : Key
  pc : Pc Key capacity
  deriving DecidableEq

/-- One atomic step of a call of `tryInsert`. -/
def tryInsertStep (s : CudaSmallSet Key capacity) (c : Call Key capacity) :
    CudaSmallSet Key capacity × Call Key capacity :=
  match c.pc with
  | .entry =>
    if c.key = 0 then ({ s with has_zero_elem := true }, ⟨c.key, .ret true⟩)
    else (s, ⟨c.key, .head 0⟩)
  | .head i =>
    if h : i < capacity.toNat then
      let x := s.buf ⟨i, h⟩
      if x = c.key then (s, ⟨c.key, .ret true⟩)
      else if x = 0 then (s, ⟨c.key, .cas ⟨i, h⟩ x⟩)
      else (s, ⟨c.key, .head (i + 1)⟩)
    else (s, ⟨c.key, .ret false⟩)
  | .cas i x =>
    -- `atomicCAS` writes `key` only over the value read, and returns the slot's old value
    let old := s.buf i
    let s' := if old = x then { s with buf := Function.update s.buf i c.key } else s
    if old = 0 ∨ old = c.key then (s', ⟨c.key, .ret true⟩) else (s', ⟨c.key, .head (i.val + 1)⟩)
  | .ret _ => (s, c)

/-- The `while` of `size()` from `res`: it stops at the first zero slot. -/
def sizeLoop (s : CudaSmallSet Key capacity) (res : Nat) : Nat :=
  if h : res < capacity.toNat then
    if s.buf ⟨res, h⟩ = 0 then res else sizeLoop s (res + 1)
  else res
termination_by capacity.toNat - res

/-- `size()`: the leading full slots, one more for the zero key; `res` is a `UInt8`. -/
def size (s : CudaSmallSet Key capacity) : UInt8 :=
  let res := (sizeLoop s 0).toUInt8
  if s.has_zero_elem then res + 1 else res

/-- Every call of `keys` about to start on a fresh set. -/
def init (keys : List Key) : Config (CudaSmallSet Key capacity) (Call Key capacity) :=
  ⟨empty, keys.map fun k => ⟨k, .entry⟩⟩

/-! ## The invariant -/

/-- The set as the calls of `keys` leave it: the full slots come first and hold distinct keys
    of the calls; `has_zero_elem` is set only by a call for the zero key. -/
structure Wf (keys : List Key) (s : CudaSmallSet Key capacity) : Prop where
  packed : ∀ i j, i < j → s.buf j ≠ 0 → s.buf i ≠ 0
  distinct : ∀ i j, i ≠ j → s.buf i ≠ 0 → s.buf i ≠ s.buf j
  mem_keys : ∀ i, s.buf i ≠ 0 → s.buf i ∈ keys
  zero_mem : s.has_zero_elem = true → (0 : Key) ∈ keys

/-- Slots below `i` are full, with keys other than `key`. -/
def Passed (s : CudaSmallSet Key capacity) (key : Key) (i : Nat) : Prop :=
  ∀ j : Fin capacity.toNat, j.val < i → s.buf j ≠ 0 ∧ s.buf j ≠ key

/-- What a call knows of the set, by where it is. -/
def CallInv (keys : List Key) (s : CudaSmallSet Key capacity) (c : Call Key capacity) : Prop :=
  c.key ∈ keys ∧
    match c.pc with
    | .entry => True
    | .head i => c.key ≠ 0 ∧ i ≤ capacity.toNat ∧ Passed s c.key i
    | .cas i x => c.key ≠ 0 ∧ x = 0 ∧ Passed s c.key i.val
    | .ret true => (c.key = 0 → s.has_zero_elem = true) ∧ (c.key ≠ 0 → ∃ j, s.buf j = c.key)
    | .ret false => c.key ≠ 0 ∧ Passed s c.key capacity.toNat

/-- What a step may do to the set: fill an empty slot, set `has_zero_elem`. -/
def Grows (s s' : CudaSmallSet Key capacity) : Prop :=
  (∀ j, s.buf j ≠ 0 → s'.buf j = s.buf j) ∧ (s.has_zero_elem = true → s'.has_zero_elem = true)

omit [DecidableEq Key] in
theorem Grows.refl (s : CudaSmallSet Key capacity) : Grows s s := ⟨fun _ _ => rfl, id⟩

omit [DecidableEq Key] in
theorem Passed.grows {s s' : CudaSmallSet Key capacity} {key : Key} {i : Nat} (hG : Grows s s')
    (h : Passed s key i) : Passed s' key i := by
  intro j hj
  rw [hG.1 j (h j hj).1]
  exact h j hj

omit [DecidableEq Key] in
/-- A call's knowledge survives the other calls' steps. -/
theorem callInv_grows {keys : List Key} {s s' : CudaSmallSet Key capacity} (c : Call Key capacity)
    (hG : Grows s s') (h : CallInv keys s c) : CallInv keys s' c := by
  obtain ⟨hkey, h⟩ := h
  refine ⟨hkey, ?_⟩
  obtain ⟨key, pc⟩ := c
  cases pc with
  | entry => trivial
  | head i => exact ⟨h.1, h.2.1, h.2.2.grows hG⟩
  | cas i x => exact ⟨h.1, h.2.1, h.2.2.grows hG⟩
  | ret r =>
    cases r with
    | true =>
      refine ⟨fun hk => hG.2 (h.1 hk), fun hk => ?_⟩
      obtain ⟨j, hj⟩ := h.2 hk
      exact ⟨j, (hG.1 j (hj ▸ hk)).trans hj⟩
    | false => exact ⟨h.1, h.2.grows hG⟩

omit [DecidableEq Key] in
/-- Passing one more slot, full with another key. -/
theorem Passed.succ {s : CudaSmallSet Key capacity} {key : Key} {i : Fin capacity.toNat}
    (h : Passed s key i.val) (h0 : s.buf i ≠ 0) (hk : s.buf i ≠ key) : Passed s key (i.val + 1) := by
  intro j hj
  rcases Nat.lt_succ_iff_lt_or_eq.mp hj with hj | hj
  · exact h j hj
  · rw [Fin.ext hj]
    exact ⟨h0, hk⟩

/-! ### One step -/

section Step

variable {keys : List Key} {s : CudaSmallSet Key capacity}

/-- The zero test. -/
theorem entry_inv (hs : Wf keys s) (key : Key) (hkey : key ∈ keys) :
    Wf keys (tryInsertStep s ⟨key, .entry⟩).1 ∧ CallInv keys (tryInsertStep s ⟨key, .entry⟩).1
      (tryInsertStep s ⟨key, .entry⟩).2 ∧ Grows s (tryInsertStep s ⟨key, .entry⟩).1 := by
  by_cases hk : key = 0
  · simp only [tryInsertStep, if_pos hk]
    refine ⟨⟨hs.packed, hs.distinct, hs.mem_keys, fun _ => hk ▸ hkey⟩, ⟨hkey, fun _ => rfl, fun h => absurd hk h⟩,
      fun _ _ => rfl, fun _ => rfl⟩
  · simp only [tryInsertStep, if_neg hk]
    exact ⟨hs, ⟨hkey, hk, Nat.zero_le _, fun _ hj => absurd hj (Nat.not_lt_zero _)⟩, Grows.refl s⟩

/-- The read of slot `i` and its two tests. -/
theorem head_inv (hs : Wf keys s) (key : Key) (i : Nat) (h : CallInv keys s ⟨key, .head i⟩) :
    Wf keys (tryInsertStep s ⟨key, .head i⟩).1 ∧ CallInv keys (tryInsertStep s ⟨key, .head i⟩).1
      (tryInsertStep s ⟨key, .head i⟩).2 ∧ Grows s (tryInsertStep s ⟨key, .head i⟩).1 := by
  obtain ⟨hkey, hk0, hi, hpassed⟩ := h
  dsimp only [tryInsertStep]
  split
  · rename_i hlt
    split
    · -- the key is there
      rename_i hx
      exact ⟨hs, ⟨hkey, fun hk => absurd hk hk0, fun _ => ⟨_, hx⟩⟩, Grows.refl s⟩
    · split
      · -- an empty slot: try to take it
        rename_i hx0
        exact ⟨hs, ⟨hkey, hk0, hx0, hpassed⟩, Grows.refl s⟩
      · rename_i hx hx0
        exact ⟨hs, ⟨hkey, hk0, hlt, hpassed.succ (i := ⟨i, hlt⟩) hx0 hx⟩, Grows.refl s⟩
  · -- every slot passed
    rename_i hge
    have hi' : i = capacity.toNat := by omega
    exact ⟨hs, ⟨hkey, hk0, hi' ▸ hpassed⟩, Grows.refl s⟩

/-- The slots past an empty one are empty. -/
theorem Wf.eq_zero_of_lt {s : CudaSmallSet Key capacity} (hs : Wf keys s) {i j : Fin capacity.toNat}
    (hi : s.buf i = 0) (hij : i < j) : s.buf j = 0 := by
  by_contra hj
  exact hs.packed i j hij hj hi

/-- The `atomicCAS` that takes the empty slot `i`. -/
theorem write_wf (hs : Wf keys s) {key : Key} {i : Fin capacity.toNat} (hkey : key ∈ keys) (hk0 : key ≠ 0)
    (hi : s.buf i = 0) (hpassed : Passed s key i.val) : Wf keys { s with buf := Function.update s.buf i key } := by
  -- below `i` the slots are full with other keys, above `i` empty
  have hbelow : ∀ j, j < i → s.buf j ≠ 0 ∧ s.buf j ≠ key := fun j hj => hpassed j hj
  have habove : ∀ j, i < j → s.buf j = 0 := fun j hj => hs.eq_zero_of_lt hi hj
  have hother : ∀ j, j ≠ i → s.buf j ≠ 0 → s.buf j ≠ key := by
    intro j hji hj0
    rcases lt_or_gt_of_ne hji with hj | hj
    · exact (hbelow j hj).2
    · exact absurd (habove j hj) hj0
  refine ⟨fun a b hab hb => ?_, fun a b hab ha => ?_, fun a ha => ?_, hs.zero_mem⟩
  · dsimp only at hb ⊢
    by_cases hai : a = i
    · rw [hai, Function.update_self]
      exact hk0
    · rw [Function.update_of_ne hai]
      by_cases hbi : b = i
      · exact (hbelow a (hbi ▸ hab)).1
      · rw [Function.update_of_ne hbi] at hb
        exact hs.packed a b hab hb
  · dsimp only at ha ⊢
    by_cases hai : a = i
    · subst hai
      have hba : b ≠ a := Ne.symm hab
      rw [Function.update_self, Function.update_of_ne hba]
      intro hb
      by_cases hb0 : s.buf b = 0
      · exact hk0 (hb.trans hb0)
      · exact hother b hba hb0 hb.symm
    · rw [Function.update_of_ne hai] at ha ⊢
      by_cases hbi : b = i
      · rw [hbi, Function.update_self]
        exact hother a hai ha
      · rw [Function.update_of_ne hbi]
        exact hs.distinct a b hab ha
  · dsimp only at ha ⊢
    by_cases hai : a = i
    · rw [hai, Function.update_self]
      exact hkey
    · rw [Function.update_of_ne hai] at ha ⊢
      exact hs.mem_keys a ha

/-- The `atomicCAS` on slot `i` and the test of what it returns. -/
theorem cas_inv (hs : Wf keys s) (key : Key) (i : Fin capacity.toNat) (x : Key)
    (h : CallInv keys s ⟨key, .cas i x⟩) :
    Wf keys (tryInsertStep s ⟨key, .cas i x⟩).1 ∧ CallInv keys (tryInsertStep s ⟨key, .cas i x⟩).1
      (tryInsertStep s ⟨key, .cas i x⟩).2 ∧ Grows s (tryInsertStep s ⟨key, .cas i x⟩).1 := by
  obtain ⟨hkey, hk0, rfl, hpassed⟩ := h
  by_cases hi : s.buf i = 0
  · -- the slot is still empty: the call writes its key and returns true
    have hgrows : Grows s { s with buf := Function.update s.buf i key } := by
      refine ⟨fun j hj => ?_, id⟩
      have hji : j ≠ i := fun hji => hj (hji ▸ hi)
      exact Function.update_of_ne hji _ _
    simp only [tryInsertStep, hi, true_or, ↓reduceIte]
    exact ⟨write_wf hs hkey hk0 hi hpassed, ⟨hkey, fun hk => absurd hk hk0, fun _ => ⟨i, Function.update_self ..⟩⟩,
      hgrows⟩
  · -- another call took the slot first: nothing is written
    simp only [tryInsertStep, hi, false_or, ↓reduceIte]
    split
    · rename_i hik
      exact ⟨hs, ⟨hkey, fun hk => absurd hk hk0, fun _ => ⟨i, hik⟩⟩, Grows.refl s⟩
    · rename_i hik
      exact ⟨hs, ⟨hkey, hk0, i.isLt, hpassed.succ hi hik⟩, Grows.refl s⟩

/-- One step of any call keeps the invariant and only grows the set. -/
theorem tryInsertStep_inv (c : Call Key capacity) (hs : Wf keys s) (h : CallInv keys s c) :
    Wf keys (tryInsertStep s c).1 ∧ CallInv keys (tryInsertStep s c).1 (tryInsertStep s c).2 ∧
      Grows s (tryInsertStep s c).1 := by
  obtain ⟨key, pc⟩ := c
  cases pc with
  | entry => exact entry_inv hs key h.1
  | head i => exact head_inv hs key i h
  | cas i x => exact cas_inv hs key i x h
  | ret r => exact ⟨hs, h, Grows.refl s⟩

end Step

/-! ## Every interleaving -/

omit [DecidableEq Key] in
theorem holds_init (keys : List Key) :
    Holds (Wf keys) (CallInv keys) (init keys : Config (CudaSmallSet Key capacity) (Call Key capacity)) := by
  refine ⟨⟨fun _ _ _ h => absurd rfl h, fun _ _ _ h => absurd rfl h, fun _ h => absurd rfl h,
    fun h => Bool.noConfusion h⟩, fun c hc => ?_⟩
  obtain ⟨k, hk, rfl⟩ := List.mem_map.mp hc
  exact ⟨hk, trivial⟩

theorem reachable_holds {keys : List Key} {c : Config (CudaSmallSet Key capacity) (Call Key capacity)}
    (h : Reachable tryInsertStep (init keys) c) : Holds (Wf keys) (CallInv keys) c :=
  h.rely_guarantee (S := Wf keys) (L := CallInv keys) (G := Grows) (fun _ _ t hG ht => callInv_grows t hG ht)
    (fun _ t hs ht => tryInsertStep_inv t hs ht) (holds_init keys)

/-- A step moves a call on and keeps its key. -/
@[simp] theorem tryInsertStep_key (s : CudaSmallSet Key capacity) (c : Call Key capacity) :
    (tryInsertStep s c).2.key = c.key := by
  obtain ⟨key, pc⟩ := c
  cases pc <;> simp only [tryInsertStep] <;> split_ifs <;> rfl

/-- The calls are those of `keys`. -/
theorem reachable_keys {keys : List Key} {c : Config (CudaSmallSet Key capacity) (Call Key capacity)}
    (h : Reachable tryInsertStep (init keys) c) : c.threads.map Call.key = keys := by
  rw [h.map_threads Call.key tryInsertStep_key, init, List.map_map]
  exact List.map_id keys

/-! ## `size()` -/

section Size

variable {keys : List Key} {s : CudaSmallSet Key capacity}

/-- The loop of `size()` stops at the first empty slot, past full ones. -/
theorem sizeLoop_spec (s : CudaSmallSet Key capacity) (res : Nat) (hres : res ≤ capacity.toNat)
    (hfull : ∀ j : Fin capacity.toNat, j.val < res → s.buf j ≠ 0) :
    sizeLoop s res ≤ capacity.toNat ∧ (∀ j : Fin capacity.toNat, j.val < sizeLoop s res → s.buf j ≠ 0) ∧
      ∀ j : Fin capacity.toNat, j.val = sizeLoop s res → s.buf j = 0 := by
  fun_induction sizeLoop s res with
  | case1 res h h0 =>
    -- an empty slot: the loop stops here
    exact ⟨hres, hfull, fun j hj => (Fin.ext hj : j = ⟨res, h⟩) ▸ h0⟩
  | case2 res h h0 ih =>
    apply ih h
    intro j hj
    rcases Nat.lt_succ_iff_lt_or_eq.mp hj with hj | hj
    · exact hfull j hj
    · rw [(Fin.ext hj : j = ⟨res, h⟩)]
      exact h0
  | case3 res h =>
    exact ⟨hres, hfull, fun j hj => absurd j.isLt (by omega)⟩

/-- With the full slots first, `size()`'s loop counts them. -/
theorem Wf.sizeLoop_eq (hs : Wf keys s) : sizeLoop s 0 = (Finset.univ.filter fun j => s.buf j ≠ 0).card := by
  obtain ⟨hle, hfull, hempty⟩ := sizeLoop_spec s 0 (Nat.zero_le _) (fun _ hj => absurd hj (Nat.not_lt_zero _))
  have hslots : (Finset.univ.filter fun j => s.buf j ≠ 0) = Finset.univ.filter fun j : Fin capacity.toNat =>
      j.val < sizeLoop s 0 := by
    ext j
    simp only [Finset.mem_filter, Finset.mem_univ, true_and]
    constructor
    · intro hj
      by_contra hge
      -- the slot at the loop's stop is empty, and so is every slot after it
      have hp : sizeLoop s 0 < capacity.toNat := by omega
      have h0 : s.buf ⟨sizeLoop s 0, hp⟩ = 0 := hempty _ rfl
      rcases (Nat.le_of_not_lt hge).lt_or_eq with hlt | heq
      · exact hj (hs.eq_zero_of_lt h0 hlt)
      · exact hj (hempty j heq.symm)
    · exact hfull j
  rw [hslots, Fin.card_filter_val_lt, Nat.min_eq_right hle]

theorem size_toNat (s : CudaSmallSet Key capacity) :
    (size s).toNat = (sizeLoop s 0 + if s.has_zero_elem then 1 else 0) % 256 := by
  have hcap : capacity.toNat < 256 := UInt8.toNat_lt capacity
  have hle : sizeLoop s 0 ≤ capacity.toNat :=
    (sizeLoop_spec s 0 (Nat.zero_le _) (fun _ hj => absurd hj (Nat.not_lt_zero _))).1
  unfold size
  -- `res` is below 256, so only the last `++res` can wrap
  split
  · simp only [UInt8.toNat_add, Nat.toUInt8_eq, UInt8.toNat_ofNat', UInt8.toNat_one]
    omega
  · simp only [Nat.toUInt8_eq, UInt8.toNat_ofNat']
    omega

omit [DecidableEq Key] in
/-- A returned call's knowledge, read from the invariant. -/
theorem callInv_ret_true {keys : List Key} {s : CudaSmallSet Key capacity} {t : Call Key capacity}
    (h : CallInv keys s t) (hret : t.pc = .ret true) :
    (t.key = 0 → s.has_zero_elem = true) ∧ (t.key ≠ 0 → ∃ j, s.buf j = t.key) := by
  obtain ⟨key, pc⟩ := t
  obtain rfl : pc = .ret true := hret
  exact h.2

/-- Once every call has returned true, the full slots and `has_zero_elem` count the distinct
    keys of the calls. -/
theorem card_keys_of_quiescent {keys : List Key} {c : Config (CudaSmallSet Key capacity) (Call Key capacity)}
    (h : Reachable tryInsertStep (init keys) c) (hdone : ∀ t ∈ c.threads, t.pc = .ret true) :
    keys.toFinset.card = sizeLoop c.shared 0 + if c.shared.has_zero_elem then 1 else 0 := by
  obtain ⟨hs, hcalls⟩ := reachable_holds h
  -- every key of `keys` is some call's, and every call has returned with its key in the set
  have hcall : ∀ k ∈ keys, ∃ t ∈ c.threads, t.key = k := by
    intro k hk
    rw [← reachable_keys h] at hk
    obtain ⟨t, ht, rfl⟩ := List.mem_map.mp hk
    exact ⟨t, ht, rfl⟩
  have hret : ∀ t ∈ c.threads, (t.key = 0 → c.shared.has_zero_elem = true) ∧
      (t.key ≠ 0 → ∃ j, c.shared.buf j = t.key) :=
    fun t ht => callInv_ret_true (hcalls t ht) (hdone t ht)
  -- the full slots hold exactly the non-zero keys, each once
  have himage : (Finset.univ.filter fun j => c.shared.buf j ≠ 0).image c.shared.buf =
      keys.toFinset.filter (· ≠ 0) := by
    ext k
    simp only [Finset.mem_image, Finset.mem_filter, Finset.mem_univ, true_and, List.mem_toFinset]
    constructor
    · rintro ⟨j, hj, rfl⟩
      exact ⟨hs.mem_keys j hj, hj⟩
    · rintro ⟨hk, hk0⟩
      obtain ⟨t, ht, rfl⟩ := hcall k hk
      obtain ⟨j, hj⟩ := (hret t ht).2 hk0
      exact ⟨j, hj ▸ hk0, hj⟩
  have hinj : Set.InjOn c.shared.buf (Finset.univ.filter fun j => c.shared.buf j ≠ 0) := by
    intro i hi j _ hij
    by_contra hne
    simp only [Finset.coe_filter, Finset.mem_univ, true_and, Set.mem_ofPred_eq] at hi
    exact hs.distinct i j hne hi hij
  -- `has_zero_elem` is set exactly when the zero key is one of `keys`
  have hzero : c.shared.has_zero_elem = true ↔ (0 : Key) ∈ keys := by
    refine ⟨hs.zero_mem, fun h0 => ?_⟩
    obtain ⟨t, ht, htk⟩ := hcall 0 h0
    exact (hret t ht).1 htk
  have hsplit : keys.toFinset.card = (keys.toFinset.filter (· ≠ 0)).card + if (0 : Key) ∈ keys then 1 else 0 := by
    rw [← Finset.card_filter_add_card_filter_not (fun k => k ≠ 0)]
    congr 1
    simp only [not_not, Finset.filter_eq', List.mem_toFinset]
    split <;> rfl
  rw [hsplit, ← himage, Finset.card_image_of_injOn hinj, ← hs.sizeLoop_eq]
  by_cases h0 : (0 : Key) ∈ keys
  · rw [if_pos h0, if_pos (hzero.mpr h0)]
  · rw [if_neg h0, if_neg (mt hzero.mp h0)]

theorem size_of_quiescent {keys : List Key} {c : Config (CudaSmallSet Key capacity) (Call Key capacity)}
    (h : Reachable tryInsertStep (init keys) c) (hdone : ∀ t ∈ c.threads, t.pc = .ret true) :
    (size c.shared).toNat = keys.toFinset.card % 256 := by
  rw [size_toNat, card_keys_of_quiescent h hdone]

end Size

/-! ## The claim for `CudaSmallSet<Key, 16>` -/

/-- A call for the zero key leaves `buf` as it is: it is at its zero test or has returned. -/
theorem tryInsertStep_zero_buf {keys : List Key} {s : CudaSmallSet Key capacity} {t : Call Key capacity}
    (h : CallInv keys s t) (hk : t.key = 0) : (tryInsertStep s t).1.buf = s.buf := by
  obtain ⟨key, pc⟩ := t
  dsimp only at hk
  subst hk
  cases pc with
  | entry => simp only [tryInsertStep, if_true]
  | head i => exact absurd rfl h.2.1
  | cas i x => exact absurd rfl h.2.1
  | ret r => rfl

theorem stepAt_shared {c : Config (CudaSmallSet Key capacity) (Call Key capacity)} {j : Nat} {t : Call Key capacity}
    (ht : c.threads[j]? = some t) : (stepAt tryInsertStep c j).shared = (tryInsertStep c.shared t).1 := by
  unfold stepAt
  rw [ht]

/-- Concurrent `tryInsert` calls on one `CudaSmallSet<Key, 16>` act as set insertions, in every
    interleaving of their reads and `atomicCAS`es. -/
theorem concurrent_tryInsert_is_set_insert {Key : Type} [DecidableEq Key] [Zero Key] (keys : List Key)
    (c : Config (CudaSmallSet Key 16) (Call Key 16)) (h : Reachable tryInsertStep (init keys) c) :
    -- the full slots come first, with pairwise distinct keys
    (∀ i j, i < j → c.shared.buf j ≠ 0 → c.shared.buf i ≠ 0) ∧
    (∀ i j, i ≠ j → c.shared.buf i ≠ 0 → c.shared.buf i ≠ c.shared.buf j) ∧
    -- a call for a non-zero key has returned true exactly when its key is in `buf`
    (∀ t ∈ c.threads, ∀ r, t.pc = .ret r → t.key ≠ 0 → (r = true ↔ ∃ j, c.shared.buf j = t.key)) ∧
    -- it returns false only with every slot full of other keys
    (∀ t ∈ c.threads, t.pc = .ret false → ∀ j, c.shared.buf j ≠ 0 ∧ c.shared.buf j ≠ t.key) ∧
    -- a call for the zero key does not touch `buf`, and returns with `has_zero_elem` set
    (∀ j t, c.threads[j]? = some t → t.key = 0 → (stepAt tryInsertStep c j).shared.buf = c.shared.buf) ∧
    (∀ t ∈ c.threads, t.key = 0 → t.pc = .ret true → c.shared.has_zero_elem = true) ∧
    -- once every call has returned true, `size()` counts the distinct keys
    ((∀ t ∈ c.threads, t.pc = .ret true) → (size c.shared).toNat = keys.toFinset.card) := by
  obtain ⟨hs, hcalls⟩ := reachable_holds h
  -- a call that returned false saw every slot full of other keys
  have hfalse : ∀ t ∈ c.threads, t.pc = .ret false → ∀ j, c.shared.buf j ≠ 0 ∧ c.shared.buf j ≠ t.key := by
    intro t ht hret j
    obtain ⟨key, pc⟩ := t
    obtain rfl : pc = .ret false := hret
    exact (hcalls _ ht).2.2 j j.isLt
  refine ⟨hs.packed, hs.distinct, fun t ht r hret hk0 => ?_, hfalse, fun j t hj hk => ?_,
    fun t ht hk hret => (callInv_ret_true (hcalls t ht) hret).1 hk, fun hdone => ?_⟩
  · cases r with
    | true => exact ⟨fun _ => (callInv_ret_true (hcalls t ht) hret).2 hk0, fun _ => rfl⟩
    | false =>
      refine ⟨fun hft => Bool.noConfusion hft, fun ⟨j, hj⟩ => ?_⟩
      exact absurd hj (hfalse t ht hret j).2
  · rw [stepAt_shared hj]
    exact tryInsertStep_zero_buf (hcalls t (List.mem_of_getElem? hj)) hk
  · -- at most 16 full slots and the zero key: no `UInt8` wrap
    have hle : sizeLoop c.shared 0 ≤ 16 :=
      (sizeLoop_spec c.shared 0 (Nat.zero_le _) (fun _ hj => absurd hj (Nat.not_lt_zero _))).1
    rw [size_toNat, card_keys_of_quiescent h hdone]
    split <;> omega

/-- Two calls for the key 5 race for the first slot: both read it empty, one `atomicCAS`
    takes it and the other sees its own key come back; a third call inserts the zero key. -/
theorem racing_inserts_of_one_key :
    (size (run tryInsertStep (init [5, 5, 0] : Config (CudaSmallSet Nat 16) (Call Nat 16))
      [0, 1, 0, 1, 0, 1, 2]).shared).toNat = 2 :=
  ((concurrent_tryInsert_is_set_insert [5, 5, 0] _ (run_reachable _ _)).2.2.2.2.2.2 (by decide)).trans (by decide)

end CudaSmallSet

end ClickHouseGpu.Cuda
