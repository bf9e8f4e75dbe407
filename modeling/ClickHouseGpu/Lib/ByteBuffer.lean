import Mathlib.Algebra.BigOperators.Group.Finset.Basic

/-
  ClickHouseGpu.Lib.ByteBuffer — byte-addressed memory and strings laid out in it.

  Memory is a function from addresses to bytes. `load mem p len` reads `len` bytes from
  `p`, `store mem p bs` writes `bs` from `p`; a read of a range disjoint from a write sees the
  old bytes. A word of at most eight bytes is read little-endian (`leValue`, the first byte
  lowest) and written back as its bytes (`leBytes`). Strings packed one after another at
  padded lengths `f 0, f 1, …` start at the exclusive prefix sums `exclusiveSum f b`.

  Proved:
  - `load_store_of_disjoint`, `load_store_prefix`, `store_append`: reads after writes.
  - `leValue_div_mod`: byte `j` of a little-endian word is the `j`-th byte, so words of equal
    length are equal only when their bytes are; `leBytes_leValue`: writing a word back gives
    its bytes followed by zeros; `leValue_leBytes`: reading the bytes of a word gives it back.
  - `exclusiveSum_eq_sum`, `exclusiveSum_add_le`: the packed regions `[S b, S b + f b)`
    follow each other without overlap.
-/

namespace ByteBuffer

/-! ## Loads and stores -/

/-- The `len` bytes of `mem` from address `p`. -/
def load (mem : Nat → UInt8) (p len : Nat) : List UInt8 := (List.range len).map fun k => mem (p + k)

/-- `mem` with the bytes `bs` written from address `p`. -/
def store (mem : Nat → UInt8) (p : Nat) (bs : List UInt8) : Nat → UInt8 :=
  fun a => if p ≤ a ∧ a < p + bs.length then bs.getD (a - p) 0 else mem a

variable {mem mem' : Nat → UInt8}

@[simp] theorem length_load (mem : Nat → UInt8) (p len : Nat) : (load mem p len).length = len := by
  simp [load]

@[simp] theorem getElem_load (mem : Nat → UInt8) (p len k : Nat) (hk : k < (load mem p len).length) :
    (load mem p len)[k] = mem (p + k) := by
  simp [load]

@[simp] theorem load_zero (mem : Nat → UInt8) (p : Nat) : load mem p 0 = [] := rfl

theorem load_congr {p len : Nat} (h : ∀ k, k < len → mem' (p + k) = mem (p + k)) :
    load mem' p len = load mem p len := by
  apply List.ext_getElem (by simp)
  intro k hk _
  simp only [getElem_load]
  exact h k (by simpa using hk)

/-- Two reads are equal exactly when they agree byte for byte. -/
theorem load_eq_load_iff {p q len : Nat} :
    load mem p len = load mem' q len ↔ ∀ k, k < len → mem (p + k) = mem' (q + k) := by
  constructor
  · intro h k hk
    have e := congrArg (fun l => l[k]?) h
    simpa [load, hk] using e
  · intro h
    apply List.ext_getElem (by simp)
    intro k hk _
    simp only [getElem_load]
    exact h k (by simpa using hk)

/-- A read splits at any point. -/
theorem load_add (mem : Nat → UInt8) (p a b : Nat) : load mem p (a + b) = load mem p a ++ load mem (p + a) b := by
  simp [load, List.range_add, Nat.add_assoc]

theorem store_of_lt {p a : Nat} (bs : List UInt8) (h : a < p) : store mem p bs a = mem a := by
  simp only [store]
  rw [if_neg (by omega)]

theorem store_of_ge {p a : Nat} (bs : List UInt8) (h : p + bs.length ≤ a) : store mem p bs a = mem a := by
  simp only [store]
  rw [if_neg (by omega)]

theorem store_of_mem {p a : Nat} (bs : List UInt8) (h1 : p ≤ a) (h2 : a < p + bs.length) :
    store mem p bs a = bs[a - p] := by
  simp only [store]
  rw [if_pos ⟨h1, h2⟩, List.getD_eq_getElem?_getD, List.getElem?_eq_getElem (by omega), Option.getD_some]

/-- A write leaves every byte outside its range. -/
theorem store_of_disjoint {p a : Nat} (bs : List UInt8) (h : a < p ∨ p + bs.length ≤ a) :
    store mem p bs a = mem a := by
  rcases h with h | h
  · exact store_of_lt bs h
  · exact store_of_ge bs h

theorem load_store_of_disjoint {p q l : Nat} (bs : List UInt8) (h : q + l ≤ p ∨ p + bs.length ≤ q) :
    load (store mem p bs) q l = load mem q l :=
  load_congr fun _ _ => store_of_disjoint bs (by omega)

/-- Reading back a prefix of what was written. -/
theorem load_store_prefix {p l : Nat} (bs : List UInt8) (hl : l ≤ bs.length) :
    load (store mem p bs) p l = bs.take l := by
  apply List.ext_getElem (by simp; omega)
  intro k hk _
  simp only [length_load] at hk
  rw [getElem_load, store_of_mem bs (by omega) (by omega), List.getElem_take]
  simp

/-- Two writes one after the other are one write of both. -/
theorem store_append (mem : Nat → UInt8) (p : Nat) (as bs : List UInt8) :
    store (store mem p as) (p + as.length) bs = store mem p (as ++ bs) := by
  funext a
  by_cases h1 : a < p
  · rw [store_of_lt bs (by omega), store_of_lt as h1, store_of_lt _ h1]
  by_cases h2 : a < p + as.length
  · rw [store_of_lt bs h2, store_of_mem as (by omega) h2,
      store_of_mem _ (by omega) (by simp; omega), List.getElem_append_left]
  by_cases h3 : a < p + as.length + bs.length
  · rw [store_of_mem bs (by omega) h3, store_of_mem _ (by omega) (by simp; omega),
      List.getElem_append_right (by omega)]
    congr 1
    omega
  · rw [store_of_ge bs (by omega), store_of_ge as (by omega), store_of_ge _ (by simp; omega)]

theorem store_nil (mem : Nat → UInt8) (p : Nat) : store mem p [] = mem := by
  funext a
  exact store_of_disjoint [] (by simp; omega)

/-! ## Little-endian words -/

/-- The value of up to eight bytes read as one little-endian word. -/
def leValue : List UInt8 → Nat
  | [] => 0
  | b :: bs => b.toNat + 256 * leValue bs

/-- The `w` little-endian bytes of `v`. -/
def leBytes : Nat → Nat → List UInt8
  | 0, _ => []
  | w + 1, v => UInt8.ofNat (v % 256) :: leBytes w (v / 256)

@[simp] theorem length_leBytes (w v : Nat) : (leBytes w v).length = w := by
  induction w generalizing v with
  | zero => rfl
  | succ w ih => simp [leBytes, ih]

/-- Byte `j` of a little-endian word. -/
theorem leValue_div_mod (bs : List UInt8) {j : Nat} (hj : j < bs.length) :
    leValue bs / 256 ^ j % 256 = bs[j].toNat := by
  induction bs generalizing j with
  | nil => simp at hj
  | cons b bs ih =>
    have hb : b.toNat < 256 := b.toNat_lt
    cases j with
    | zero => simp [leValue]
    | succ j =>
      have hdiv : (b.toNat + 256 * leValue bs) / 256 = leValue bs := by omega
      rw [leValue, Nat.pow_succ', ← Nat.div_div_eq_div_mul, hdiv]
      exact ih (by simpa using hj)

/-- Words of the same length are equal only when their bytes are. -/
theorem leValue_injective {as bs : List UInt8} (hlen : as.length = bs.length) (h : leValue as = leValue bs) :
    as = bs := by
  apply List.ext_getElem hlen
  intro j ha hb
  have e := leValue_div_mod as ha
  rw [h, leValue_div_mod bs hb] at e
  exact UInt8.toNat_inj.mp e.symm

theorem leValue_lt (bs : List UInt8) : leValue bs < 256 ^ bs.length := by
  induction bs with
  | nil => simp [leValue]
  | cons b bs ih =>
    have hb : b.toNat < 256 := b.toNat_lt
    simp only [leValue, List.length_cons, Nat.pow_succ']
    omega

/-- Writing a word back gives its bytes and zeros up to the width. -/
theorem leBytes_leValue {w : Nat} (bs : List UInt8) (hw : bs.length ≤ w) :
    leBytes w (leValue bs) = bs ++ List.replicate (w - bs.length) 0 := by
  induction bs generalizing w with
  | nil =>
    simp only [leValue, List.length_nil, Nat.sub_zero, List.nil_append]
    induction w with
    | zero => rfl
    | succ w ih => simp [leBytes, ih (Nat.zero_le _), List.replicate_succ]
  | cons b bs ih =>
    obtain ⟨w, rfl⟩ : ∃ w', w = w' + 1 := ⟨w - 1, by simp at hw; omega⟩
    have hb : b.toNat < 256 := b.toNat_lt
    have hmod : (b.toNat + 256 * leValue bs) % 256 = b.toNat := by omega
    have hdiv : (b.toNat + 256 * leValue bs) / 256 = leValue bs := by omega
    simp only [leValue, leBytes, hmod, hdiv, UInt8.ofNat_toNat, List.length_cons,
      Nat.add_sub_add_right, List.cons_append]
    rw [ih (by simp at hw; omega)]

/-- Reading back the bytes of a word gives the word modulo the width. -/
theorem leValue_leBytes (w v : Nat) : leValue (leBytes w v) = v % 256 ^ w := by
  induction w generalizing v with
  | zero => simp [leBytes, leValue, Nat.mod_one]
  | succ w ih =>
    have hbyte : (UInt8.ofNat (v % 256)).toNat = v % 256 := by simp
    rw [leBytes, leValue, hbyte, ih, Nat.pow_succ, Nat.mul_comm (256 ^ w) 256, Nat.mod_mul]

/-! ## Packing by exclusive prefix sums -/

/-- The sum of `f` below `b`: where the `b`-th of a sequence of regions of lengths `f 0, f 1, …`
    starts when they are packed from `0`. -/
def exclusiveSum (f : Nat → Nat) : Nat → Nat
  | 0 => 0
  | b + 1 => exclusiveSum f b + f b

theorem exclusiveSum_eq_sum (f : Nat → Nat) (b : Nat) : exclusiveSum f b = ∑ j ∈ Finset.range b, f j := by
  induction b with
  | zero => rfl
  | succ b ih => rw [exclusiveSum, ih, Finset.sum_range_succ]

theorem exclusiveSum_mono (f : Nat → Nat) {b c : Nat} (h : b ≤ c) : exclusiveSum f b ≤ exclusiveSum f c := by
  induction c with
  | zero => simp at h; subst h; rfl
  | succ c ih =>
    rcases Nat.lt_or_eq_of_le h with h | rfl
    · have := ih (by omega)
      simp only [exclusiveSum]
      omega
    · rfl

/-- The region of `b` ends before the one of any later `c` begins. -/
theorem exclusiveSum_add_le (f : Nat → Nat) {b c : Nat} (h : b < c) : exclusiveSum f b + f b ≤ exclusiveSum f c :=
  exclusiveSum_mono f (b := b + 1) h

theorem exclusiveSum_congr {f g : Nat → Nat} {b : Nat} (h : ∀ j, j < b → f j = g j) :
    exclusiveSum f b = exclusiveSum g b := by
  rw [exclusiveSum_eq_sum, exclusiveSum_eq_sum]
  exact Finset.sum_congr rfl fun j hj => h j (Finset.mem_range.mp hj)

theorem dvd_exclusiveSum {f : Nat → Nat} {d b : Nat} (h : ∀ j, j < b → d ∣ f j) : d ∣ exclusiveSum f b := by
  induction b with
  | zero => exact Nat.dvd_zero d
  | succ b ih => exact Nat.dvd_add (ih fun j hj => h j (by omega)) (h b (by omega))

theorem exclusiveSum_add (f g : Nat → Nat) (b : Nat) :
    exclusiveSum (fun j => f j + g j) b = exclusiveSum f b + exclusiveSum g b := by
  rw [exclusiveSum_eq_sum, exclusiveSum_eq_sum, exclusiveSum_eq_sum, Finset.sum_add_distrib]

end ByteBuffer
