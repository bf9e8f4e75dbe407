import Mathlib
import ClickHouseGpu.Lib.ByteBuffer
import ClickHouseGpu.Lib.EvenSplit
import ClickHouseGpu.Lib.Interleaving

/-
  ClickHouseGpu.Columns.ParallelMemcpy — `parallelMemcpy(x, y, n, threads_num)`
  (dbms/src/Columns/Cuda/parallelMemcpy.h), the copy `CudaHostStringsBuffer::addData` makes of
  a block's chars and offsets into pinned memory.

  The `n` bytes are cut into `threads_num` parts, part `id` the bytes
  `[id * n / threads_num, (id + 1) * n / threads_num)` (`EvenSplit`). The first
  `threads_num - 1` parts go to threads the function starts, the last to the calling thread,
  which then joins the others. Each part is one `memcpy(x + my_start, y + my_start, my_size)`,
  a thread of `Interleaving` that copies one byte a step, so that every order in which the bytes
  of the parts are copied is an interleaving. `x` and `y` are `__restrict`: the ranges do not
  overlap. `threads_num = 0` is left out: `std::thread t[threads_num - 1]` is then an array of
  `SIZE_MAX` threads.

  Proved:
  - `Copying.stepAt`, `Copying.reachable`: in every interleaving each thread has copied a
    prefix of its part, those bytes hold the source's, and every other byte is as it was.
  - `exists_joined`: from every configuration some interleaving runs each thread to the end of
    its part, so the joins return.
  - `parallelMemcpy_eq_memcpy`: the joins can return, and once they have, memory is what one
    `memcpy(x, y, n)` leaves, whatever the interleaving.
-/

namespace ClickHouseGpu.Columns.ParallelMemcpy

open ByteBuffer EvenSplit Interleaving

/-- `parallelMemcpyThreadParams_`, with how far the thread's `memcpy` has got. -/
structure ThreadParams where
  my_start : Nat
  my_size : Nat
  copied : Nat
  deriving DecidableEq, Repr

/-- The parts `parallelMemcpy` hands out, in the order of the threads: those of the threads it
    starts, then the calling thread's. -/
def threadParams (n threads_num : Nat) : List ThreadParams :=
  (List.range (threads_num - 1)).map (fun id =>
      ⟨(id * n) / threads_num, ((id + 1) * n) / threads_num - (id * n) / threads_num, 0⟩) ++
    [⟨((threads_num - 1) * n) / threads_num,
      (threads_num * n) / threads_num - ((threads_num - 1) * n) / threads_num, 0⟩]

/-- One byte of `memcpy(x + my_start, y + my_start, my_size)`. -/
def memcpyStep (x y : Nat) (mem : Nat → UInt8) (p : ThreadParams) : (Nat → UInt8) × ThreadParams :=
  if p.copied < p.my_size then
    (store mem (x + p.my_start + p.copied) [mem (y + p.my_start + p.copied)], { p with copied := p.copied + 1 })
  else (mem, p)

theorem memcpyStep_of_lt {x y : Nat} {mem : Nat → UInt8} {p : ThreadParams} (h : p.copied < p.my_size) :
    memcpyStep x y mem p =
      (store mem (x + p.my_start + p.copied) [mem (y + p.my_start + p.copied)], { p with copied := p.copied + 1 }) :=
  if_pos h

theorem memcpyStep_of_ge {x y : Nat} {mem : Nat → UInt8} {p : ThreadParams} (h : ¬p.copied < p.my_size) :
    memcpyStep x y mem p = (mem, p) :=
  if_neg h

/-- The threads started and the calling thread, before any byte is copied. -/
def start (mem : Nat → UInt8) (n threads_num : Nat) : Config (Nat → UInt8) ThreadParams :=
  ⟨mem, threadParams n threads_num⟩

/-- Every thread has copied its part: the joins return. -/
def Joined (c : Config (Nat → UInt8) ThreadParams) : Prop := ∀ p ∈ c.threads, p.copied = p.my_size

/-- Thread `i` gets part `i`; the calling thread's is the last. -/
theorem getElem?_threadParams (n : Nat) {threads_num : Nat} (hT : 0 < threads_num) (i : Nat) :
    (threadParams n threads_num)[i]? = if i < threads_num then
      some ⟨splitStart n threads_num i, splitStart n threads_num (i + 1) - splitStart n threads_num i, 0⟩
    else none := by
  have hparts : threadParams n threads_num = (List.range threads_num).map fun id =>
      (⟨splitStart n threads_num id, splitStart n threads_num (id + 1) - splitStart n threads_num id, 0⟩ :
        ThreadParams) := by
    conv_rhs => rw [← Nat.sub_add_cancel hT, List.range_succ, List.map_append]
    simp only [threadParams, splitStart, List.map_cons, List.map_nil, Nat.sub_add_cancel hT]
  rw [hparts, List.getElem?_map]
  split
  · next hi => rw [List.getElem?_range hi]; rfl
  · next hi => rw [List.getElem?_eq_none (by simpa using hi)]; rfl

/-- Updating thread `j` leaves the other threads where they were. -/
theorem getElem?_set_of_getElem? {l : List ThreadParams} {j : Nat} {p : ThreadParams} (hp : l[j]? = some p)
    (q : ThreadParams) (i : Nat) : (l.set j q)[i]? = if i = j then some q else l[i]? := by
  have hj : j < l.length := (List.getElem?_eq_some_iff.mp hp).1
  by_cases hij : i = j
  · rw [if_pos hij, hij, List.getElem?_set_self hj]
  · rw [if_neg hij, List.getElem?_set_ne (Ne.symm hij)]

/-! ## The invariant of every interleaving -/

section Copy

variable {x y n T : Nat} {mem : Nat → UInt8}

/-- What every interleaving keeps, indexed by thread: thread `i` copies part `i`, and has copied
    a prefix of it; the bytes copied hold the source's, and every other byte is as it was. -/
structure Copying (x y n T : Nat) (mem : Nat → UInt8) (c : Config (Nat → UInt8) ThreadParams) : Prop where
  length : c.threads.length = T
  part : ∀ (i : Nat) (p : ThreadParams), c.threads[i]? = some p →
    p.my_start = splitStart n T i ∧ p.my_start + p.my_size = splitStart n T (i + 1)
  le : ∀ (i : Nat) (p : ThreadParams), c.threads[i]? = some p → p.copied ≤ p.my_size
  copied : ∀ (i : Nat) (p : ThreadParams), c.threads[i]? = some p → ∀ k : Nat, k < p.copied → c.shared (x + p.my_start + k) = mem (y + p.my_start + k)
  other : ∀ a : Nat, (∀ (i : Nat) (p : ThreadParams), c.threads[i]? = some p → ∀ k, k < p.copied → a ≠ x + p.my_start + k) → c.shared a = mem a

theorem copying_start (hT : 0 < T) : Copying x y n T mem (start mem n T) := by
  have hthread : ∀ i p, (start mem n T).threads[i]? = some p →
      i < T ∧ p = ⟨splitStart n T i, splitStart n T (i + 1) - splitStart n T i, 0⟩ := by
    intro i p hp
    simp only [start, getElem?_threadParams n hT] at hp
    split at hp
    · exact ⟨‹_›, (Option.some.inj hp).symm⟩
    · cases hp
  refine ⟨by simp [start, threadParams]; omega, fun i p hp => ?_, fun i p hp => ?_, fun i p hp k hk => ?_,
    fun a _ => rfl⟩
  · obtain ⟨hi, rfl⟩ := hthread i p hp
    have := splitStart_mono n T (Nat.le_add_right i 1)
    exact ⟨rfl, by simp only; omega⟩
  · obtain ⟨-, rfl⟩ := hthread i p hp
    exact Nat.zero_le _
  · obtain ⟨-, rfl⟩ := hthread i p hp
    cases hk

/-- Two threads write the same byte only if they are one thread at one place of its part. -/
theorem Copying.same_byte {c : Config (Nat → UInt8) ThreadParams} (hc : Copying x y n T mem c) {i j : Nat}
    {p q : ThreadParams} (hp : c.threads[i]? = some p) (hq : c.threads[j]? = some q) {k l : Nat}
    (hk : k < p.my_size) (hl : l < q.my_size) (h : p.my_start + k = q.my_start + l) : i = j :=
  have hpi := hc.part i p hp
  have hqj := hc.part j q hq
  part_unique (n := n) (T := T) (k := p.my_start + k) ⟨by omega, by omega⟩ ⟨by omega, by omega⟩

/-- Every part lies in `[0, n)`. -/
theorem Copying.part_le {c : Config (Nat → UInt8) ThreadParams} (hc : Copying x y n T mem c) (hT : 0 < T)
    {i : Nat} {p : ThreadParams} (hp : c.threads[i]? = some p) : p.my_start + p.my_size ≤ n := by
  have hi : i < T := hc.length ▸ (List.getElem?_eq_some_iff.mp hp).1
  rw [(hc.part i p hp).2]
  exact splitStart_le n hT hi

/-- No thread writes the source: it lies apart from the destination. -/
theorem Copying.source {c : Config (Nat → UInt8) ThreadParams} (hc : Copying x y n T mem c) (hT : 0 < T)
    (hxy : x + n ≤ y ∨ y + n ≤ x) {a : Nat} (ha : y ≤ a) (ha' : a < y + n) : c.shared a = mem a := by
  refine hc.other a fun i p hp k hk => ?_
  have hle := hc.part_le hT hp
  have := hc.le i p hp
  omega

/-- A thread not at the end of its part copies its next byte, which only it writes. -/
theorem Copying.copy_byte {c : Config (Nat → UInt8) ThreadParams} (hc : Copying x y n T mem c) (hT : 0 < T)
    (hxy : x + n ≤ y ∨ y + n ≤ x) {j : Nat} {p : ThreadParams} (hj : c.threads[j]? = some p)
    (hlt : p.copied < p.my_size) :
    Copying x y n T mem ⟨store c.shared (x + p.my_start + p.copied) [c.shared (y + p.my_start + p.copied)],
      c.threads.set j { p with copied := p.copied + 1 }⟩ := by
  have hle := hc.part_le hT hj
  have hval : c.shared (y + p.my_start + p.copied) = mem (y + p.my_start + p.copied) :=
    hc.source hT hxy (by omega) (by omega)
  have hset := getElem?_set_of_getElem? hj { p with copied := p.copied + 1 }
  refine ⟨by simpa using hc.length, fun i q hq => ?_, fun i q hq => ?_, fun i q hq k hk => ?_, fun a ha => ?_⟩
  · rw [hset] at hq
    split at hq
    · next hij => cases hq; subst hij; exact hc.part i p hj
    · exact hc.part i q hq
  · rw [hset] at hq
    split at hq
    · cases hq; exact hlt
    · exact hc.le i q hq
  · rw [hset] at hq
    split at hq
    · cases hq
      dsimp only at hk ⊢
      rcases Nat.lt_succ_iff_lt_or_eq.mp hk with hk | rfl
      · rw [store_of_disjoint _ (Or.inl (by omega))]
        exact hc.copied j p hj k hk
      · rw [store_of_mem _ (by omega) (by simp)]
        simpa using hval
    · next hij =>
      have hqle := hc.le i q hq
      have hne : x + q.my_start + k ≠ x + p.my_start + p.copied := fun heq =>
        hij (hc.same_byte (k := k) (l := p.copied) hq hj (by omega) hlt (by omega))
      dsimp only
      rw [store_of_disjoint _ (by simp; omega)]
      exact hc.copied i q hq k hk
  · have hne : a ≠ x + p.my_start + p.copied := ha j { p with copied := p.copied + 1 } (by rw [hset, if_pos rfl]) p.copied (Nat.lt_succ_self _)
    dsimp only
    rw [store_of_disjoint _ (by simp; omega)]
    refine hc.other a fun i q hq k hk => ?_
    by_cases hij : i = j
    · subst hij
      rw [hj] at hq
      cases hq
      exact ha i { p with copied := p.copied + 1 } (by rw [hset, if_pos rfl]) k (Nat.lt_succ_of_lt hk)
    · exact ha i q (by rw [hset, if_neg hij]; exact hq) k hk

/-- One step of any thread keeps `Copying`. -/
theorem Copying.stepAt {c : Config (Nat → UInt8) ThreadParams} (hc : Copying x y n T mem c) (hT : 0 < T)
    (hxy : x + n ≤ y ∨ y + n ≤ x) (j : Nat) : Copying x y n T mem (Interleaving.stepAt (memcpyStep x y) c j) := by
  cases hj : c.threads[j]? with
  | none => rwa [stepAt_of_getElem?_eq_none hj]
  | some p =>
    rw [stepAt_of_getElem? hj]
    by_cases hlt : p.copied < p.my_size
    · rw [memcpyStep_of_lt hlt]
      exact hc.copy_byte hT hxy hj hlt
    · -- a thread at the end of its part steps to itself
      obtain ⟨hjlen, rfl⟩ := List.getElem?_eq_some_iff.mp hj
      rw [memcpyStep_of_ge hlt, List.set_getElem_self]
      exact hc

/-- `Copying` holds in every interleaving from the start. -/
theorem Copying.reachable (hT : 0 < T) (hxy : x + n ≤ y ∨ y + n ≤ x) {c : Config (Nat → UInt8) ThreadParams}
    (h : Reachable (memcpyStep x y) (start mem n T) c) : Copying x y n T mem c :=
  Reachable.invariant (Copying x y n T mem) (fun _ j hc => hc.stepAt hT hxy j) (copying_start hT) h

/-- Once every thread has copied its part, memory is what one `memcpy(x, y, n)` leaves. -/
theorem Copying.joined {c : Config (Nat → UInt8) ThreadParams} (hc : Copying x y n T mem c) (hT : 0 < T)
    (hj : Joined c) : c.shared = store mem x (load mem y n) := by
  funext a
  by_cases ha : x ≤ a ∧ a < x + n
  · -- the byte lies in the part of one thread, which has copied it
    obtain ⟨i, hi, hlo, hhi⟩ := exists_part (n := n) (k := a - x) hT (by omega)
    have hilen : i < c.threads.length := hc.length ▸ hi
    obtain ⟨p, hp⟩ : ∃ p, c.threads[i]? = some p := ⟨c.threads[i], List.getElem?_eq_getElem hilen⟩
    have hpart := hc.part i p hp
    have hdone := hj p (List.mem_of_getElem? hp)
    have hcopy := hc.copied i p hp (a - x - p.my_start) (by omega)
    rw [show x + p.my_start + (a - x - p.my_start) = a by omega,
      show y + p.my_start + (a - x - p.my_start) = y + (a - x) by omega] at hcopy
    rw [hcopy, store_of_mem _ (by omega) (by simp; omega)]
    simp
  · -- no thread writes outside `[x, x + n)`
    rw [store_of_disjoint _ (by simp; omega)]
    refine hc.other a fun i p hp k hk => ?_
    have hle := hc.part_le hT hp
    have := hc.le i p hp
    omega

end Copy

/-! ## The joins return -/

/-- From every configuration whose threads are within their parts, some interleaving runs every
    thread to the end of its part: a thread not at its end can always step. -/
theorem exists_joined (x y : Nat) : ∀ (c : Config (Nat → UInt8) ThreadParams),
    (∀ p ∈ c.threads, p.copied ≤ p.my_size) → ∃ sched, Joined (run (memcpyStep x y) c sched) := by
  -- induction on the bytes left to copy
  suffices h : ∀ m (c : Config (Nat → UInt8) ThreadParams), (c.threads.map fun p => p.my_size - p.copied).sum = m →
      (∀ p ∈ c.threads, p.copied ≤ p.my_size) → ∃ sched, Joined (run (memcpyStep x y) c sched) from
    fun c => h _ c rfl
  intro m
  induction m using Nat.strong_induction_on with
  | _ m ih =>
    intro c hm hle
    by_cases hjoined : Joined c
    · exact ⟨[], hjoined⟩
    · obtain ⟨p, hp, hne⟩ : ∃ p ∈ c.threads, p.copied ≠ p.my_size := by
        simpa [Joined] using hjoined
      have hlt : p.copied < p.my_size := Nat.lt_of_le_of_ne (hle p hp) hne
      obtain ⟨j, hj⟩ := List.mem_iff_getElem?.mp hp
      have hthreads : (Interleaving.stepAt (memcpyStep x y) c j).threads =
          c.threads.set j { p with copied := p.copied + 1 } := by
        rw [stepAt_of_getElem? hj, memcpyStep_of_lt hlt]
      have hsum : ((c.threads.set j { p with copied := p.copied + 1 }).map fun p => p.my_size - p.copied).sum +
          (p.my_size - p.copied) = (c.threads.map fun p => p.my_size - p.copied).sum + (p.my_size - (p.copied + 1)) :=
        sum_map_set _ hj _
      have hdec : ((Interleaving.stepAt (memcpyStep x y) c j).threads.map fun p => p.my_size - p.copied).sum < m := by
        rw [hthreads]
        omega
      have hle' : ∀ q ∈ (Interleaving.stepAt (memcpyStep x y) c j).threads, q.copied ≤ q.my_size := by
        intro q hq
        rw [hthreads] at hq
        rcases List.mem_or_eq_of_mem_set hq with hq | rfl
        · exact hle q hq
        · exact hlt
      obtain ⟨sched, hsched⟩ := ih _ hdec _ rfl hle'
      exact ⟨j :: sched, hsched⟩

/-- `parallelMemcpy` is `memcpy`: the joins can return, and whatever the interleaving of the
    threads' bytes, once they have, memory is what one `memcpy(x, y, n)` leaves, when there is a
    thread and the two ranges do not overlap. -/
theorem parallelMemcpy_eq_memcpy (mem : Nat → UInt8) {x y n threads_num : Nat} (hT : 0 < threads_num)
    (hxy : x + n ≤ y ∨ y + n ≤ x) :
    (∃ sched, Joined (run (memcpyStep x y) (start mem n threads_num) sched)) ∧
      ∀ c, Reachable (memcpyStep x y) (start mem n threads_num) c → Joined c →
        c.shared = store mem x (load mem y n) := by
  refine ⟨exists_joined x y _ fun p hp => ?_, fun c h hj => (Copying.reachable hT hxy h).joined hT hj⟩
  obtain ⟨i, hi⟩ := List.mem_iff_getElem?.mp hp
  have hstart : Copying x y n threads_num mem (start mem n threads_num) := copying_start hT
  exact hstart.le i p hi

/-- Five bytes from 0 to 100 in three parts. -/
theorem parallelMemcpy_eq_memcpy_three_threads : 0 < 3 ∧ (100 + 5 ≤ 0 ∨ 0 + 5 ≤ 100) ∧
    (∃ sched, Joined (run (memcpyStep 100 0) (start (fun a => a.toUInt8) 5 3) sched)) ∧
      ∀ c, Reachable (memcpyStep 100 0) (start (fun a => a.toUInt8) 5 3) c → Joined c →
        c.shared = store (fun a => a.toUInt8) 100 (load (fun a => a.toUInt8) 0 5) :=
  ⟨by decide, Or.inr (by decide), parallelMemcpy_eq_memcpy (fun a => a.toUInt8) (by decide) (Or.inr (by decide))⟩

end ClickHouseGpu.Columns.ParallelMemcpy
