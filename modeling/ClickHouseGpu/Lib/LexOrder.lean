import Mathlib

/-
  LexOrder — the lexicographic order of byte strings, as `memcmp` and `std::string::compare`
  order them: bytes as unsigned numbers, a proper prefix before its extensions.

  `UInt8` gets its linear order from its number, and `List UInt8` gets Mathlib's lexicographic
  `LinearOrder` of lists.

  Proved, over any linear order:
  - `le_append`: a string is at most each of its extensions.
  - `append_lt_append`: two strings with a common prefix are ordered by the first symbols after
    it.
-/

instance instLinearOrderUInt8 : LinearOrder UInt8 where
  le_refl x := UInt8.le_refl x
  le_trans _ _ _ h₁ h₂ := UInt8.le_trans h₁ h₂
  le_antisymm _ _ h₁ h₂ := UInt8.le_antisymm h₁ h₂
  le_total x y := UInt8.le_total x y
  toDecidableLE := inferInstance
  lt_iff_le_not_ge x y := Std.LawfulOrderLT.lt_iff x y
  min_def _ _ := rfl
  max_def _ _ := rfl

namespace LexOrder

variable {α : Type} [LinearOrder α]

theorem lt_iff_lex (l l' : List α) : l < l' ↔ List.Lex (· < ·) l l' := Iff.rfl

/-- A string is at most each of its extensions. -/
theorem le_append (P t : List α) : P ≤ P ++ t := by
  cases t with
  | nil => rw [List.append_nil]
  | cons a t =>
    apply le_of_lt
    have h := List.Lex.append_left (· < ·) (List.Lex.nil (a := a) (l := t)) P
    rwa [List.append_nil] at h

/-- After a common prefix, the first symbols that differ decide. -/
theorem append_lt_append (P : List α) {b c : α} (h : b < c) (t u : List α) :
    P ++ b :: t < P ++ c :: u :=
  List.Lex.append_left (· < ·) (List.Lex.rel h) P

end LexOrder
