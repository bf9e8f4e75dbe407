import Mathlib

/-
  Interleaving — threads that share one state and run by atomic steps in any order.

  A configuration is the shared state and the list of the threads' local states. One step of
  thread `j` reads and writes the shared state and moves the thread on, all at once
  (`stepAt`); any thread may step next (`Step`), so the reachable configurations
  (`Reachable`) are those of every interleaving. A thread with nothing left to do steps to
  itself. A schedule (`run`) is one interleaving, and every reachable configuration is the
  end of one (`reachable_iff_run`).

  `Reachable.rely_guarantee` is the rely-guarantee rule: a shared invariant `S` and a
  thread-local one `L` hold in every reachable configuration when each step keeps both for
  the stepping thread and makes a change `G` of the shared state that every other thread's
  `L` is stable under.
-/

namespace Interleaving

variable {σ τ : Type}

/-- The shared state and each thread's local state. -/
structure Config (σ τ : Type) where
  shared : σ
  threads : List τ

section Step

variable (step : σ → τ → σ × τ)

/-- Thread `j` takes its next atomic step; there is no thread `j` past the end. -/
def stepAt (c : Config σ τ) (j : Nat) : Config σ τ :=
  match c.threads[j]? with
  | some t => ⟨(step c.shared t).1, c.threads.set j (step c.shared t).2⟩
  | none => c

/-- Some thread takes a step. -/
def Step (c c' : Config σ τ) : Prop := ∃ j, c' = stepAt step c j

/-- The configurations some interleaving reaches from `c`. -/
def Reachable (c : Config σ τ) : Config σ τ → Prop := Relation.ReflTransGen (Step step) c

/-- The interleaving that steps the threads in the order `sched` names them. -/
def run (c : Config σ τ) : List Nat → Config σ τ
  | [] => c
  | j :: sched => run (stepAt step c j) sched

variable {step}

theorem run_reachable (c : Config σ τ) (sched : List Nat) : Reachable step c (run step c sched) := by
  induction sched generalizing c with
  | nil => exact .refl
  | cons j sched ih => exact Relation.ReflTransGen.head ⟨j, rfl⟩ (ih _)

theorem run_append (c : Config σ τ) (sched sched' : List Nat) :
    run step c (sched ++ sched') = run step (run step c sched) sched' := by
  induction sched generalizing c with
  | nil => rfl
  | cons j sched ih => exact ih _

theorem reachable_iff_run {c c' : Config σ τ} : Reachable step c c' ↔ ∃ sched, run step c sched = c' := by
  constructor
  · intro h
    induction h with
    | refl => exact ⟨[], rfl⟩
    | tail _ hstep ih =>
      obtain ⟨sched, rfl⟩ := ih
      obtain ⟨j, rfl⟩ := hstep
      exact ⟨sched ++ [j], by rw [run_append]; rfl⟩
  · rintro ⟨sched, rfl⟩
    exact run_reachable c sched

/-- A step leaves the number of threads as it is. -/
theorem length_stepAt (c : Config σ τ) (j : Nat) : (stepAt step c j).threads.length = c.threads.length := by
  unfold stepAt
  split
  · exact List.length_set
  · rfl

/-- What a step keeps of every thread, every interleaving keeps. -/
theorem Reachable.map_threads {α : Type} (f : τ → α) (hf : ∀ s t, f (step s t).2 = f t)
    {c c' : Config σ τ} (h : Reachable step c c') : c'.threads.map f = c.threads.map f := by
  induction h with
  | refl => rfl
  | @tail b _ _ hstep ih =>
    obtain ⟨j, rfl⟩ := hstep
    rw [← ih]
    unfold stepAt
    split
    · rename_i t ht
      obtain ⟨hj, rfl⟩ := List.getElem?_eq_some_iff.mp ht
      have hj' : j < (b.threads.map f).length := by rw [List.length_map]; exact hj
      rw [List.map_set, hf, ← List.getElem_map f (h := hj'), List.set_getElem_self]
    · rfl

/-- An invariant of whole configurations that every step keeps holds in every reachable one. -/
theorem Reachable.invariant (I : Config σ τ → Prop) (hstep : ∀ c j, I c → I (stepAt step c j))
    {c c' : Config σ τ} (h0 : I c) (h : Reachable step c c') : I c' := by
  induction h with
  | refl => exact h0
  | tail _ hstep' ih =>
    obtain ⟨j, rfl⟩ := hstep'
    exact hstep _ j ih

/-- The step of thread `j`, where there is one. -/
theorem stepAt_of_getElem? {c : Config σ τ} {j : Nat} {t : τ} (ht : c.threads[j]? = some t) :
    stepAt step c j = ⟨(step c.shared t).1, c.threads.set j (step c.shared t).2⟩ := by
  unfold stepAt
  rw [ht]

theorem stepAt_of_getElem?_eq_none {c : Config σ τ} {j : Nat} (ht : c.threads[j]? = none) :
    stepAt step c j = c := by
  unfold stepAt
  rw [ht]

end Step

/-! ## Sums over the threads -/

section Threads

/-- Replacing thread `j` changes a sum over the threads by that thread's part. -/
theorem sum_map_set (f : τ → Nat) {l : List τ} {j : Nat} {t : τ} (ht : l[j]? = some t) (t' : τ) :
    ((l.set j t').map f).sum + f t = (l.map f).sum + f t' := by
  induction l generalizing j with
  | nil => simp at ht
  | cons a l ih =>
    cases j with
    | zero =>
      simp only [List.getElem?_cons_zero, Option.some.injEq] at ht
      subst ht
      simp only [List.set_cons_zero, List.map_cons, List.sum_cons]
      omega
    | succ j =>
      simp only [List.getElem?_cons_succ] at ht
      have := ih ht
      simp only [List.set_cons_succ, List.map_cons, List.sum_cons]
      omega

/-- Replacing thread `j` changes what the threads hold together by that thread's part. -/
theorem flatMap_set_perm {α : Type} (f : τ → List α) {l : List τ} {j : Nat} {t : τ} (ht : l[j]? = some t)
    (t' : τ) : List.Perm ((l.set j t').flatMap f ++ f t) (l.flatMap f ++ f t') := by
  classical
  induction l generalizing j with
  | nil => simp at ht
  | cons a l ih =>
    cases j with
    | zero =>
      simp only [List.getElem?_cons_zero, Option.some.injEq] at ht
      subst ht
      rw [List.perm_iff_count]
      intro x
      simp only [List.set_cons_zero, List.flatMap_cons, List.count_append]
      omega
    | succ j =>
      simp only [List.getElem?_cons_succ] at ht
      simp only [List.set_cons_succ, List.flatMap_cons, List.append_assoc]
      exact (ih ht).append_left _

end Threads

section RelyGuarantee

variable {step : σ → τ → σ × τ} (S : σ → Prop) (L : σ → τ → Prop) (G : σ → σ → Prop)

/-- The invariant of a configuration: `S` of the shared state, `L` of every thread. -/
def Holds (c : Config σ τ) : Prop := S c.shared ∧ ∀ t ∈ c.threads, L c.shared t

variable {S L G}

/-- One step keeps the invariant: the stepping thread by `hstep`, the others by `hstable`. -/
theorem holds_stepAt (hstable : ∀ s s' t, G s s' → L s t → L s' t)
    (hstep : ∀ s t, S s → L s t → S (step s t).1 ∧ L (step s t).1 (step s t).2 ∧ G s (step s t).1)
    {c : Config σ τ} (h : Holds S L c) (j : Nat) : Holds S L (stepAt step c j) := by
  unfold stepAt
  split
  · rename_i t ht
    have hmem : t ∈ c.threads := List.mem_of_getElem? ht
    obtain ⟨hS, hL, hG⟩ := hstep c.shared t h.1 (h.2 t hmem)
    refine ⟨hS, fun u hu => ?_⟩
    rcases List.mem_or_eq_of_mem_set hu with hu | rfl
    · -- another thread: its view only grew
      exact hstable _ _ u hG (h.2 u hu)
    · exact hL
  · exact h

theorem Reachable.rely_guarantee (hstable : ∀ s s' t, G s s' → L s t → L s' t)
    (hstep : ∀ s t, S s → L s t → S (step s t).1 ∧ L (step s t).1 (step s t).2 ∧ G s (step s t).1)
    {c c' : Config σ τ} (h0 : Holds S L c) (h : Reachable step c c') : Holds S L c' := by
  induction h with
  | refl => exact h0
  | tail _ hstep' ih =>
    obtain ⟨j, rfl⟩ := hstep'
    exact holds_stepAt hstable hstep ih j

end RelyGuarantee

end Interleaving
