import Mathlib.Data.List.TakeWhile

/-
  EscapeCode — strings written through an escape code and read back a run at a time.

  An escape code writes each symbol `b` of a string `t` as `enc b`: the symbol itself, when the
  reader does not stop at it, or a sequence that starts with a symbol the reader stops at (an
  escape). The code of `t` is `t.flatMap enc`. A reader copies a run of symbols it does not stop
  at; where the run ends depends on where its buffer ends, so a run is any such prefix of what is
  left. What follows the code (`suffix`) is empty or starts with a symbol the reader stops at.

  A writer that looks ahead writes pieces: each piece is a symbol the reader does not stop at, or
  an escape that may stand for several symbols of the string. A `Code` is the case where every
  symbol is a piece of its own.

  Proved:
  - `run_pieces`: a run copied off the front of written pieces followed by `suffix` is whole
    pieces, each a single symbol, and what is left is the rest of the pieces followed by `suffix`.
  - `cons_pieces`: written pieces followed by `suffix` start with the first piece, or are `suffix`
    when there are none.
  - `run_code`, `cons_code`: the same for the code of a string `t`, where the run is a prefix of
    `t` itself.
-/

namespace EscapeCode

variable {α : Type}

/-- Every symbol is written as itself, when the reader does not stop at it, or as a sequence
    that starts with a symbol the reader stops at. -/
def Code (enc : α → List α) (stop : α → Bool) : Prop :=
  ∀ b, (enc b = [b] ∧ stop b = false) ∨ ∃ c cs, enc b = c :: cs ∧ stop c = true

/-- A list that is empty or starts with a symbol the reader stops at. -/
def StopsAt (stop : α → Bool) (l : List α) : Prop := ∀ c cs, l = c :: cs → stop c = true

variable {enc : α → List α} {stop : α → Bool}

theorem stopsAt_nil : StopsAt stop [] := fun _ _ h => nomatch h

theorem stopsAt_cons {c : α} {cs : List α} (h : stop c = true) : StopsAt stop (c :: cs) := by
  rintro d ds ⟨⟩
  exact h

/-- A piece of a written string: one symbol the reader does not stop at, or a sequence that
    starts with a symbol the reader stops at (an escape). -/
def Piece (stop : α → Bool) (w : List α) : Prop :=
  (∃ a, w = [a] ∧ stop a = false) ∨ ∃ c cs, w = c :: cs ∧ stop c = true

theorem Piece.ne_nil {w : List α} (h : Piece stop w) : w ≠ [] := by
  rcases h with ⟨a, rfl, -⟩ | ⟨c, cs, rfl, -⟩ <;> simp

theorem Code.piece (hc : Code enc stop) (b : α) : Piece stop (enc b) := by
  rcases hc b with ⟨h, hs⟩ | h
  · exact .inl ⟨b, h, hs⟩
  · exact .inr h

theorem Code.ne_nil (hc : Code enc stop) (b : α) : enc b ≠ [] := (hc.piece b).ne_nil

section Pieces

variable {β : Type} {code : β → List α}

/-- A run of symbols the reader does not stop at, copied off the front of pieces written one
    after another and followed by `suffix`, is whole pieces, each a single symbol; what is left
    is the rest of the pieces followed by `suffix`. -/
theorem run_pieces {suffix : List α} (hs : StopsAt stop suffix) :
    ∀ {ps : List β} {run rest : List α}, (∀ p ∈ ps, Piece stop (code p)) →
      run ++ rest = ps.flatMap code ++ suffix → (∀ b ∈ run, stop b = false) →
      ∃ ps₁ ps₂, ps = ps₁ ++ ps₂ ∧ run = ps₁.flatMap code ∧ (∀ p ∈ ps₁, ∃ a, code p = [a] ∧ stop a = false) ∧
        rest = ps₂.flatMap code ++ suffix
  | ps, [], rest, _, h, _ => ⟨[], ps, rfl, rfl, by simp, by simpa using h⟩
  | [], r :: run, rest, _, h, hrun => by
    -- the run would start inside the suffix, whose first symbol stops the reader
    have hr := hs r (run ++ rest) (by simpa using h.symm)
    rw [hrun r List.mem_cons_self] at hr
    cases hr
  | p :: ps, r :: run, rest, hp, h, hrun => by
    rw [List.flatMap_cons, List.append_assoc] at h
    rcases hp p List.mem_cons_self with ⟨a, ha, -⟩ | ⟨c, cs, hc, hcs⟩
    · -- a piece of one symbol is copied, and the run goes on in the pieces after it
      rw [ha, List.cons_append, List.cons_append, List.nil_append] at h
      obtain ⟨rfl, htail⟩ := List.cons.inj h
      obtain ⟨ps₁, ps₂, rfl, hrun₁, hall, hrest⟩ := run_pieces hs (fun q hq => hp q (List.mem_cons_of_mem _ hq))
        htail (fun x hx => hrun x (List.mem_cons_of_mem _ hx))
      refine ⟨p :: ps₁, ps₂, rfl, by rw [hrun₁, List.flatMap_cons, ha, List.singleton_append], ?_, hrest⟩
      intro q hq
      rcases List.mem_cons.mp hq with rfl | hq
      · exact ⟨r, ha, hrun r List.mem_cons_self⟩
      · exact hall q hq
    · -- an escape starts with a symbol no run holds
      rw [hc, List.cons_append, List.cons_append] at h
      obtain ⟨rfl, -⟩ := List.cons.inj h
      rw [hrun r List.mem_cons_self] at hcs
      cases hcs

/-- Written pieces followed by `suffix` start with the first piece. -/
theorem cons_pieces {ps : List β} {suffix rest : List α} {c : α} (hp : ∀ p ∈ ps, Piece stop (code p))
    (h : c :: rest = ps.flatMap code ++ suffix) :
    (ps = [] ∧ c :: rest = suffix) ∨
      ∃ p ps' cs, ps = p :: ps' ∧ code p = c :: cs ∧ rest = cs ++ (ps'.flatMap code ++ suffix) := by
  cases ps with
  | nil => exact .inl ⟨rfl, by simpa using h⟩
  | cons p ps' =>
    obtain ⟨d, cs, hd⟩ := List.exists_cons_of_ne_nil (hp p List.mem_cons_self).ne_nil
    rw [List.flatMap_cons, hd, List.cons_append, List.cons_append, List.append_assoc] at h
    obtain ⟨rfl, rfl⟩ := List.cons.inj h
    exact .inr ⟨p, ps', cs, rfl, hd, rfl⟩

end Pieces

/-- Symbols the code writes as single symbols the reader does not stop at are written as
    themselves. -/
theorem flatMap_of_plain (hc : Code enc stop) {t : List α} (h : ∀ b ∈ t, ∃ a, enc b = [a] ∧ stop a = false) :
    t.flatMap enc = t := by
  induction t with
  | nil => rfl
  | cons b t ih =>
    obtain ⟨a, ha, hs⟩ := h b List.mem_cons_self
    have hb : enc b = [b] := by
      rcases hc b with ⟨hb, -⟩ | ⟨c, cs, hb, hcs⟩
      · exact hb
      · -- an escape of one symbol would be a symbol the reader both stops and does not stop at
        rw [ha, List.cons.injEq] at hb
        rw [← hb.1, hs] at hcs
        cases hcs
    rw [List.flatMap_cons, hb, ih (fun x hx => h x (List.mem_cons_of_mem _ hx)), List.singleton_append]

/-- A run of symbols the reader does not stop at, copied off the front of the code of `t`
    followed by `suffix`, is a prefix of `t`; what is left is the code of the rest. -/
theorem run_code (hc : Code enc stop) {suffix : List α} (hs : StopsAt stop suffix) {t run rest : List α}
    (h : run ++ rest = t.flatMap enc ++ suffix) (hrun : ∀ b ∈ run, stop b = false) :
    ∃ t₁ t₂, t = t₁ ++ t₂ ∧ run = t₁ ∧ rest = t₂.flatMap enc ++ suffix := by
  obtain ⟨t₁, t₂, ht, hrun₁, hall, hrest⟩ := run_pieces hs (fun b _ => hc.piece b) h hrun
  exact ⟨t₁, t₂, ht, hrun₁.trans (flatMap_of_plain hc hall), hrest⟩

/-- The code of `t` followed by `suffix` starts with the code of the first symbol of `t`. -/
theorem cons_code (hc : Code enc stop) {t suffix rest : List α} {c : α} (h : c :: rest = t.flatMap enc ++ suffix) :
    (t = [] ∧ c :: rest = suffix) ∨
      ∃ b t' cs, t = b :: t' ∧ enc b = c :: cs ∧ rest = cs ++ (t'.flatMap enc ++ suffix) :=
  cons_pieces (fun b _ => hc.piece b) h

end EscapeCode
