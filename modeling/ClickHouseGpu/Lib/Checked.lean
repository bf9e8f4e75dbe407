import Mathlib.Data.Int.Basic

/-
  Checked reads in the error monad: a read of a table of `size` entries at an integer
  index gives the entry, or the index as an error when it lies outside the table, so that
  "every read stays in bounds" becomes "the computation returns `.ok`".

  Proved:
  - `bind_eq_ok`, `bind_eq_error`: how a bind returns, read back into its two parts.
  - `foldlM_inv`: an invariant of each round of a loop holds at its end.
  - `Total.bind`, `Total.of_bind`: a bind cannot fail iff its parts cannot.
  - `read_of_lt`, `read_of_not_lt`, `read_natCast`: a read in and out of bounds.
-/

namespace Checked

variable {ε α β : Type}

@[simp] theorem ok_bind (a : α) (f : α → Except ε β) : (Except.ok a >>= f) = f a := rfl

@[simp] theorem error_bind (e : ε) (f : α → Except ε β) : (Except.error e >>= f : Except ε β) = .error e := rfl

@[simp] theorem pure_eq_ok (a : α) : (pure a : Except ε α) = .ok a := rfl

theorem bind_eq_ok {x : Except ε α} {f : α → Except ε β} {r : β} :
    (x >>= f) = .ok r ↔ ∃ a, x = .ok a ∧ f a = .ok r := by
  cases x with
  | error e => simp
  | ok a => simp

theorem bind_eq_error {x : Except ε α} {f : α → Except ε β} {e : ε} :
    (x >>= f) = .error e ↔ x = .error e ∨ ∃ a, x = .ok a ∧ f a = .error e := by
  cases x with
  | error e' => simp
  | ok a => simp

/-- An invariant kept by every step of a loop in `Except` holds when the loop returns. -/
theorem foldlM_inv {f : β → α → Except ε β} (P : β → Prop) {l : List α} {b b' : β}
    (hf : ∀ b a b', a ∈ l → P b → f b a = .ok b' → P b') (hb : P b) (h : l.foldlM f b = .ok b') : P b' := by
  induction l generalizing b with
  | nil =>
    cases h
    exact hb
  | cons a l ih =>
    obtain ⟨c, hc, hrest⟩ := bind_eq_ok.mp h
    exact ih (fun b a b' ha => hf b a b' (List.mem_cons_of_mem _ ha)) (hf b a c List.mem_cons_self hb hc) hrest

/-- A computation that cannot fail. -/
def Total (x : Except ε α) : Prop := ∃ a, x = .ok a

theorem Total.bind {x : Except ε α} {f : α → Except ε β} (hx : Total x) (hf : ∀ a, x = .ok a → Total (f a)) :
    Total (x >>= f) := by
  obtain ⟨a, ha⟩ := hx
  rw [ha]
  exact hf a ha

theorem Total.of_bind {x : Except ε α} {f : α → Except ε β} (h : Total (x >>= f)) : Total x := by
  obtain ⟨b, hb⟩ := h
  obtain ⟨a, ha, -⟩ := bind_eq_ok.mp hb
  exact ⟨a, ha⟩

@[simp] theorem total_ok (a : α) : Total (Except.ok a : Except ε α) := ⟨a, rfl⟩

@[simp] theorem not_total_error (e : ε) : ¬ Total (Except.error e : Except ε α) := by
  rintro ⟨a, h⟩
  cases h

theorem total_map {x : Except ε α} (f : α → β) : Total (x.map f) ↔ Total x := by
  cases x with
  | error e => simp [Except.map]
  | ok a => simp [Except.map]

/-- The read of entry `i` of a table of `size` entries `f`; `err i` when `i` is outside. -/
def read (err : Int → ε) (size : Nat) (f : Nat → α) (i : Int) : Except ε α :=
  if 0 ≤ i ∧ i < size then .ok (f i.toNat) else .error (err i)

theorem read_of_lt {err : Int → ε} {size : Nat} {f : Nat → α} {i : Int} (h0 : 0 ≤ i) (h : i < size) :
    read err size f i = .ok (f i.toNat) := by
  simp [read, h0, h]

theorem read_of_not_lt {err : Int → ε} {size : Nat} {f : Nat → α} {i : Int} (h : ¬ (0 ≤ i ∧ i < size)) :
    read err size f i = .error (err i) := by
  simp only [read, if_neg h]

@[simp] theorem read_natCast (err : Int → ε) (size : Nat) (f : Nat → α) (n : Nat) :
    read err size f n = if n < size then .ok (f n) else .error (err n) := by
  by_cases h : n < size
  · simp [read, h]
  · simp [read, h]

end Checked
