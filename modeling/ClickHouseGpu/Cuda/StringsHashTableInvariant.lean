import Mathlib
import ClickHouseGpu.Cuda.StringsHashTable

/-
  ClickHouseGpu.Cuda.StringsHashTableInvariant — what a `CudaStringsHashTable` holds between
  calls, and that `addData` and `mergeToOtherTable` keep it, whatever order the threads of
  their kernels run in.

  Bucket `b` holds the string `content b`, the `lens b` bytes at `pointers b`; it is empty
  when `lens b = 0`. The probing invariant `Probed`: an empty bucket has no hash and no
  pointer, a full one has its string's hash and a pointer, and every bucket passed on the
  way from a string's home `h % buckets_num` to its bucket holds another string. A thread of
  `kerAddData` run alone is then a walk (`LinearProbe.walk`) to the first bucket that is empty
  or holds its string: each probe round of an occupied bucket fails its hash, length or word
  comparison exactly when the bucket holds another string, and an empty bucket is claimed by
  all three `atomicCAS`es.

  `AddInv` follows `kerAddData` thread by thread; then `kerCopyAddedStrings` (`CopyInv`) moves
  each new string to its place in the exclusive scan, which lies after the old strings and
  apart from every input; the thread that claimed a bucket copies it, so after all threads
  every new bucket points into the table's buffer. Input batches lie outside the table's
  buffer, merged tables in separate buffers, and memory outside the buffer may change
  between calls (`Reachable.frame`).

  Proved:
  - `Probed.unique`: no two buckets hold the same string.
  - `probeLoop_eq`: the probe loop is the walk, then a claim of the bucket found if empty.
  - `kerAddDataThread_cases`: what one thread does; `AddInv.run`: what a run does.
  - `CopyInv.tableInv`: the table's invariant after a call that returns.
  - `addData_spec` / `mergeToOtherTable_spec`: the invariant kept, each string given answered
    with a bucket holding it, and every string held kept.
  - `strings_hash_table_representation`: every state reached from `erase` represents its
    strings, and every call that returns does the above.
-/

namespace ClickHouseGpu.Cuda.StringsHashTableInvariant

open ByteBuffer LinearProbe ClickHouseGpu.Cuda.StringsHashTable

section Probing

variable (hash : List UInt8 → UInt64) (n : Nat) (mem : Nat → UInt8)

/-- The string of bucket `b`: `lens b` bytes at `ptrs b`. -/
def content (lens ptrs : Nat → Nat) (b : Nat) : List UInt8 := load mem (ptrs b) (lens b)

/-- The bucket a probe for `s` starts from. -/
def home (s : List UInt8) : Nat := (adjustHash (hash s)).toNat % n

/-- Where a probe for `str` stops: an empty bucket, or one holding `str`. -/
def stops (lens ptrs : Nat → Nat) (str : List UInt8) (c : Nat) : Bool :=
  lens c == 0 || content mem lens ptrs c == str

/-- The string of thread `i` of a batch. -/
def input (batch : Batch) (i : Nat) : List UInt8 := load mem (batch.buf + batch.offsets i) (batch.lens i)

structure Probed (hashes : Nat → UInt64) (lens ptrs : Nat → Nat) : Prop where
  empty : ∀ b, b < n → lens b = 0 → hashes b = EMPTY_HASH_VAL ∧ ptrs b = 0
  full : ∀ b, b < n → lens b ≠ 0 → ptrs b ≠ 0 ∧ hashes b = adjustHash (hash (content mem lens ptrs b))
  chain : ∀ b, b < n → lens b ≠ 0 → ∀ c, Before n (home hash n (content mem lens ptrs b)) b c →
    lens c ≠ 0 ∧ content mem lens ptrs c ≠ content mem lens ptrs b

/-- The state after a thread claims the bucket `q` for the `len` bytes at `data`. -/
def claim (s : AddState) (q : Nat) (h : UInt64) (len data : Nat) : AddState :=
  { s with hashes := upd s.hashes q h, table_lens := upd s.table_lens q len, ptrs := upd s.ptrs q data }

@[simp] theorem claim_table_lens (s : AddState) (q : Nat) (h : UInt64) (len data : Nat) :
    (claim s q h len data).table_lens = upd s.table_lens q len := rfl

@[simp] theorem claim_ptrs (s : AddState) (q : Nat) (h : UInt64) (len data : Nat) :
    (claim s q h len data).ptrs = upd s.ptrs q data := rfl

@[simp] theorem claim_hashes (s : AddState) (q : Nat) (h : UInt64) (len data : Nat) :
    (claim s q h len data).hashes = upd s.hashes q h := rfl

@[simp] theorem claim_res_buckets (s : AddState) (q : Nat) (h : UInt64) (len data : Nat) :
    (claim s q h len data).res_buckets = s.res_buckets := rfl

@[simp] theorem claim_new_strings_lens (s : AddState) (q : Nat) (h : UInt64) (len data : Nat) :
    (claim s q h len data).new_strings_lens = s.new_strings_lens := rfl

@[simp] theorem claim_table_is_full (s : AddState) (q : Nat) (h : UInt64) (len data : Nat) :
    (claim s q h len data).table_is_full = s.table_is_full := rfl

variable {hash n mem}

@[simp] theorem length_content (lens ptrs : Nat → Nat) (b : Nat) : (content mem lens ptrs b).length = lens b := by
  simp [content]

theorem stops_eq_false {lens ptrs : Nat → Nat} {str : List UInt8} {c : Nat} :
    stops mem lens ptrs str c = false ↔ lens c ≠ 0 ∧ content mem lens ptrs c ≠ str := by
  simp [stops]

/-- No two buckets hold the same string: of two such buckets one would be passed on the way to
    the other, from their common home. -/
theorem Probed.unique {hashes : Nat → UInt64} {lens ptrs : Nat → Nat} (hp : Probed hash n mem hashes lens ptrs)
    {b c : Nat} (hb : b < n) (hc : c < n) (hlb : lens b ≠ 0) (hlc : lens c ≠ 0)
    (h : content mem lens ptrs b = content mem lens ptrs c) : b = c := by
  by_contra hne
  rcases before_total (h := home hash n (content mem lens ptrs b)) hb hc hne with hcb | hbc
  · rw [h] at hcb
    exact (hp.chain c hc hlc b hcb).2 h
  · exact (hp.chain b hb hlb c hbc).2 h.symm

/-! ## One probe round -/

variable {s : AddState} {b len data : Nat}

/-- An empty bucket: all three `atomicCAS`es succeed and the thread claims it. -/
theorem probeBucket_empty (hp : Probed hash n mem s.hashes s.table_lens s.ptrs) (hb : b < n)
    (hl : s.table_lens b = 0) (h : UInt64) (our_string : Bool) :
    probeBucket mem h len data s b our_string = (claim s b h len data, true, true) := by
  obtain ⟨hh, hptr⟩ := hp.empty b hb hl
  have hcmp : compareStrings mem data data len = true := (compareStrings_iff mem data data len).mpr rfl
  simp [probeBucket, hashStep, lenStep, ptrStep, atomicCAS_of_eq _ hh, atomicCAS_of_eq _ hl,
    atomicCAS_of_eq _ hptr, hh, hl, hptr, hcmp, claim, EMPTY_LEN_VAL]

/-- A bucket holding the thread's string: hash, length and words agree. -/
theorem probeBucket_found (hp : Probed hash n mem s.hashes s.table_lens s.ptrs) (hb : b < n)
    (hl : s.table_lens b ≠ 0) (hc : content mem s.table_lens s.ptrs b = load mem data len) (our_string : Bool) :
    probeBucket mem (adjustHash (hash (load mem data len))) len data s b our_string = (s, true, our_string) := by
  obtain ⟨hptr, hh⟩ := hp.full b hb hl
  have hlen : s.table_lens b = len := by simpa using congrArg List.length hc
  rw [hc] at hh
  have hcmp : compareStrings mem data (s.ptrs b) len = true := by
    rw [compareStrings_iff, ← hc, content, hlen]
  have hlen0 : len ≠ 0 := hlen ▸ hl
  simp [probeBucket, hashStep, lenStep, ptrStep, hh, adjustHash_ne, hlen, hlen0, hptr, hcmp, EMPTY_LEN_VAL]

/-- A bucket holding another string: its hash, its length or one of its words differs. -/
theorem probeBucket_passed (hp : Probed hash n mem s.hashes s.table_lens s.ptrs) (hb : b < n)
    (hl : s.table_lens b ≠ 0) (hc : content mem s.table_lens s.ptrs b ≠ load mem data len) (our_string : Bool) :
    probeBucket mem (adjustHash (hash (load mem data len))) len data s b our_string = (s, false, our_string) := by
  obtain ⟨hptr, hh⟩ := hp.full b hb hl
  have hne : s.hashes b ≠ EMPTY_HASH_VAL := by rw [hh]; exact adjustHash_ne _
  -- the round fails at the first of the three tests that tells the strings apart
  by_cases hhash : s.hashes b = adjustHash (hash (load mem data len))
  · by_cases hlen : s.table_lens b = len
    · have hlen0 : len ≠ 0 := hlen ▸ hl
      have hcmp : compareStrings mem data (s.ptrs b) len = false := by
        rw [Bool.eq_false_iff, ne_eq, compareStrings_iff]
        intro e
        apply hc
        rw [e]
        unfold content
        rw [hlen]
      simp [probeBucket, hashStep, lenStep, ptrStep, adjustHash_ne, hhash, hptr, hcmp, hlen, hlen0, EMPTY_LEN_VAL]
    · simp [probeBucket, hashStep, lenStep, adjustHash_ne, hhash, hl, hlen, EMPTY_LEN_VAL]
  · simp [probeBucket, hashStep, hne, hhash]

/-! ## The probe loop is a walk -/

/-- Going round `n` buckets from `start` comes back to `start` only after none or all of them. -/
theorem add_mod_eq_self_iff {start j m : Nat} (hs : start < m) (hj : j ≤ m) :
    (start + j) % m = start ↔ j = 0 ∨ j = m := by
  constructor
  · intro h
    by_cases hlt : start + j < m
    · rw [Nat.mod_eq_of_lt hlt] at h
      omega
    · rw [Nat.mod_eq_sub_mod (by omega), Nat.mod_eq_of_lt (by omega)] at h
      omega
  · rintro (rfl | rfl)
    · simp [Nat.mod_eq_of_lt hs]
    · simp [Nat.mod_eq_of_lt hs]

/-- What the probe loop answers once the walk has found `q`, or nothing. -/
def probeResult (s : AddState) (h : UInt64) (len data : Nat) (our_string : Bool) :
    Option Nat → AddState × Option (Nat × Bool)
  | none => (s, none)
  | some q => if s.table_lens q = 0 then (claim s q h len data, some (q, true)) else (s, some (q, our_string))

/-- The probe loop from the `k`-th bucket after the home, with the `n - k` rounds left before
    the wrap check fires, is the walk over those buckets. -/
theorem probeLoop_eq (len data : Nat) (hp : Probed hash n mem s.hashes s.table_lens s.ptrs) (our_string : Bool) :
    ∀ fuel k, fuel + k = n → 0 < fuel →
      probeLoop mem n (adjustHash (hash (load mem data len))) len data fuel s
          ((home hash n (load mem data len) + k) % n) our_string =
        probeResult s (adjustHash (hash (load mem data len))) len data our_string
          (walk n (stops mem s.table_lens s.ptrs (load mem data len)) fuel
            ((home hash n (load mem data len) + k) % n)) := by
  intro fuel
  induction fuel with
  | zero => intro k _ h0; omega
  | succ fuel ih =>
    intro k hk _
    have hn : 0 < n := by omega
    have hhome : home hash n (load mem data len) < n := Nat.mod_lt _ hn
    have hb : (home hash n (load mem data len) + k) % n < n := Nat.mod_lt _ hn
    by_cases hl : s.table_lens ((home hash n (load mem data len) + k) % n) = 0
    · simp [probeLoop, probeBucket_empty hp hb hl, walk, stops, hl, probeResult]
    by_cases hc : content mem s.table_lens s.ptrs ((home hash n (load mem data len) + k) % n) = load mem data len
    · simp [probeLoop, probeBucket_found hp hb hl hc, walk, stops, hl, hc, probeResult]
    -- another string: the loop moves on, and stops at the wrap exactly when the walk runs out
    have hstop := stops_eq_false.mpr ⟨hl, hc⟩
    have hnext : ((home hash n (load mem data len) + k) % n + 1) % n = (home hash n (load mem data len) + (k + 1)) % n := by
      rw [Nat.mod_add_mod, Nat.add_assoc]
    have hwrap : (home hash n (load mem data len) + (k + 1)) % n = home hash n (load mem data len) ↔ fuel = 0 := by
      rw [add_mod_eq_self_iff hhome (by omega)]
      omega
    simp only [probeLoop, probeBucket_passed hp hb hl hc, Bool.false_eq_true, if_false, walk, hstop, hnext]
    change (if _ = home hash n (load mem data len) then _ else _) = _
    by_cases hf : fuel = 0
    · subst hf
      rw [if_pos (hwrap.mpr rfl)]
      rfl
    · rw [if_neg (fun e => hf (hwrap.mp e))]
      obtain ⟨f, rfl⟩ : ∃ f, fuel = f + 1 := ⟨fuel - 1, by omega⟩
      exact ih (k + 1) (by omega) (by omega)

/-- One thread of `kerAddData` from a probed state: the table is full, or the walk from its
    string's home passes only buckets holding other strings and ends at one holding its string
    or at an empty one, which it claims. -/
theorem kerAddDataThread_cases (hp : Probed hash n mem s.hashes s.table_lens s.ptrs) (hn : 0 < n) {batch : Batch}
    {i : Nat} (hi : i < batch.str_num) (hl : batch.lens i ≠ 0) :
    kerAddDataThread hash mem n batch s i = { s with table_is_full := true } ∨
    ∃ q, q < n ∧ (∀ c, Before n (home hash n (input mem batch i)) q c →
        s.table_lens c ≠ 0 ∧ content mem s.table_lens s.ptrs c ≠ input mem batch i) ∧
      ((s.table_lens q ≠ 0 ∧ content mem s.table_lens s.ptrs q = input mem batch i ∧
          kerAddDataThread hash mem n batch s i = { s with res_buckets := upd s.res_buckets i q }) ∨
       (s.table_lens q = 0 ∧ kerAddDataThread hash mem n batch s i =
          { claim s q (adjustHash (hash (input mem batch i))) (batch.lens i) (batch.buf + batch.offsets i) with
            res_buckets := upd s.res_buckets i q
            new_strings_lens := upd s.new_strings_lens q (paddedLen (batch.lens i)) })) := by
  unfold input
  have hhome : home hash n (load mem (batch.buf + batch.offsets i) (batch.lens i)) < n := Nat.mod_lt _ hn
  have hloop := probeLoop_eq (batch.lens i) (batch.buf + batch.offsets i) hp false n 0 (by omega) hn
  rw [Nat.add_zero, Nat.mod_eq_of_lt hhome] at hloop
  -- the thread's probe loop is the walk from the home bucket; split on where the walk ends
  cases hw : walk n (stops mem s.table_lens s.ptrs (load mem (batch.buf + batch.offsets i) (batch.lens i))) n
      (home hash n (load mem (batch.buf + batch.offsets i) (batch.lens i))) with
  | none =>
    left
    rw [hw] at hloop
    unfold home at hloop
    simp only [kerAddDataThread, hi, if_true, EMPTY_LEN_VAL, hl, if_false, hloop, probeResult]
  | some q =>
    right
    rw [hw] at hloop
    unfold home at hloop
    obtain ⟨hq, hstop, hway⟩ := walk_spec n _ q hhome hw
    refine ⟨q, hq, fun c hc => stops_eq_false.mp (hway c hc), ?_⟩
    by_cases hlq : s.table_lens q = 0
    · refine Or.inr ⟨hlq, ?_⟩
      simp [kerAddDataThread, hi, hl, EMPTY_LEN_VAL, hloop, probeResult, hlq]
    · have hcq : content mem s.table_lens s.ptrs q = load mem (batch.buf + batch.offsets i) (batch.lens i) := by
        simpa [stops, hlq] using hstop
      refine Or.inl ⟨hlq, hcq, ?_⟩
      simp [kerAddDataThread, hi, hl, EMPTY_LEN_VAL, hloop, probeResult, hlq]

/-- Claiming a bucket changes the string of that bucket only. -/
theorem content_upd {lens ptrs : Nat → Nat} {q len data c : Nat} :
    content mem (upd lens q len) (upd ptrs q data) c =
      if c = q then load mem data len else content mem lens ptrs c := by
  by_cases h : c = q
  · subst h; simp [content]
  · simp [content, h]

/-- A claim at the end of the walk keeps the table probed. -/
theorem Probed.claim (hp : Probed hash n mem s.hashes s.table_lens s.ptrs) {q : Nat} (hq : q < n)
    (hlq : s.table_lens q = 0) (hlen : len ≠ 0) (hdata : data ≠ 0)
    (hway : ∀ c, Before n (home hash n (load mem data len)) q c →
      s.table_lens c ≠ 0 ∧ content mem s.table_lens s.ptrs c ≠ load mem data len) :
    Probed hash n mem (upd s.hashes q (adjustHash (hash (load mem data len)))) (upd s.table_lens q len)
      (upd s.ptrs q data) := by
  refine ⟨?_, ?_, ?_⟩
  · intro b hb hlb
    have hbq : b ≠ q := fun e => by subst e; simp [hlen] at hlb
    simp only [upd_ne _ _ hbq] at hlb ⊢
    exact hp.empty b hb hlb
  · intro b hb hlb
    by_cases hbq : b = q
    · subst hbq
      simp [hdata, content_upd]
    · simp only [upd_ne _ _ hbq] at hlb ⊢
      rw [content_upd, if_neg hbq]
      exact hp.full b hb hlb
  · intro b hb hlb c hc
    -- the buckets passed on any way hold strings, so none of them is the claimed one
    by_cases hbq : b = q
    · subst hbq
      have hcb : content mem (upd s.table_lens b len) (upd s.ptrs b data) b = load mem data len := by
        rw [content_upd, if_pos rfl]
      rw [hcb] at hc ⊢
      have hcq : c ≠ b := fun e => by subst e; exact not_before_self _ _ _ hc
      rw [content_upd, if_neg hcq, upd_ne _ _ hcq]
      exact hway c hc
    · simp only [upd_ne _ _ hbq] at hlb
      have hcb : content mem (upd s.table_lens q len) (upd s.ptrs q data) b = content mem s.table_lens s.ptrs b := by
        rw [content_upd, if_neg hbq]
      rw [hcb] at hc ⊢
      obtain ⟨hlc, hcc⟩ := hp.chain b hb hlb c hc
      have hcq : c ≠ q := fun e => by subst e; exact hlc hlq
      rw [content_upd, if_neg hcq, upd_ne _ _ hcq]
      exact ⟨hlc, hcc⟩

/-- Probing depends on the buckets' strings only: pointers moved to copies of the same strings
    keep it. -/
theorem Probed.of_content {hashes : Nat → UInt64} {lens ptrs ptrs' : Nat → Nat} {mem' : Nat → UInt8}
    (hp : Probed hash n mem hashes lens ptrs) (hempty : ∀ b, b < n → lens b = 0 → ptrs' b = 0)
    (hfull : ∀ b, b < n → lens b ≠ 0 → ptrs' b ≠ 0)
    (hcont : ∀ b, b < n → lens b ≠ 0 → content mem' lens ptrs' b = content mem lens ptrs b) :
    Probed hash n mem' hashes lens ptrs' := by
  refine ⟨fun b hb hl => ⟨(hp.empty b hb hl).1, hempty b hb hl⟩, ?_, ?_⟩
  · intro b hb hl
    rw [hcont b hb hl]
    exact ⟨hfull b hb hl, (hp.full b hb hl).2⟩
  · intro b hb hl c hc
    rw [hcont b hb hl] at hc ⊢
    obtain ⟨hlc, hne⟩ := hp.chain b hb hl c hc
    exact ⟨hlc, by rw [hcont c (by unfold Before at hc; omega) hlc]; exact hne⟩

end Probing

/-! ## A whole run of kerAddData -/

section Kernel

variable (hash : List UInt8 → UInt64) (n : Nat) (mem : Nat → UInt8) (batch : Batch)

/-- What `kerAddData` has done to the arrays `s0` once the threads `done` have run: the table is
    still probed, buckets full before are untouched, each bucket claimed since points at the
    string of a thread that ran and answered it, and each thread that ran found a bucket holding
    its string, unless one found the table full. -/
structure AddInv (s0 s : AddState) (done : List Nat) : Prop where
  probed : Probed hash n mem s.hashes s.table_lens s.ptrs
  old : ∀ b, b < n → s0.table_lens b ≠ 0 →
    s.hashes b = s0.hashes b ∧ s.table_lens b = s0.table_lens b ∧ s.ptrs b = s0.ptrs b
  unclaimed : ∀ b, b < n → (s0.table_lens b ≠ 0 ∨ s.table_lens b = 0) →
    s.new_strings_lens b = s0.new_strings_lens b
  claimed : ∀ b, b < n → s0.table_lens b = 0 → s.table_lens b ≠ 0 →
    s.new_strings_lens b = paddedLen (s.table_lens b) ∧
    ∃ i, i ∈ done ∧ i < batch.str_num ∧ batch.lens i = s.table_lens b ∧
      s.ptrs b = batch.buf + batch.offsets i ∧ s.res_buckets i = b
  found : ∀ i, i ∈ done → i < batch.str_num → batch.lens i ≠ 0 → s.table_is_full = true ∨
    (s.res_buckets i < n ∧ s.table_lens (s.res_buckets i) ≠ 0 ∧
      content mem s.table_lens s.ptrs (s.res_buckets i) = input mem batch i)
  skipped : ∀ i, (i ∉ done ∨ batch.str_num ≤ i ∨ batch.lens i = 0) → s.res_buckets i = s0.res_buckets i
  full_mono : s0.table_is_full = true → s.table_is_full = true

variable {hash n mem batch} {s0 s : AddState} {done : List Nat} {i : Nat}

theorem AddInv.init (hp : Probed hash n mem s0.hashes s0.table_lens s0.ptrs) : AddInv hash n mem batch s0 s0 [] where
  probed := hp
  old := fun _ _ _ => ⟨rfl, rfl, rfl⟩
  unclaimed := fun _ _ _ => rfl
  claimed := fun _ _ h0 h => absurd h0 h
  found := fun _ h => absurd h List.not_mem_nil
  skipped := fun _ _ => rfl
  full_mono := id

/-- Threads already run or skipped keep their `res_buckets` entry when one more runs. -/
theorem AddInv.skipped_append (hinv : AddInv hash n mem batch s0 s done) (hnew : i ∉ done) {j : Nat}
    (hj : j ∉ done ++ [i] ∨ batch.str_num ≤ j ∨ batch.lens j = 0) : s.res_buckets j = s0.res_buckets j := by
  by_cases e : j = i
  · subst e
    exact hinv.skipped j (Or.inl hnew)
  · refine hinv.skipped j ?_
    rcases hj with hj | hj
    · exact Or.inl fun h => hj (List.mem_append_left _ h)
    · exact Or.inr hj

theorem AddInv.claimed_append (hinv : AddInv hash n mem batch s0 s done) {b : Nat} (hb : b < n)
    (h0 : s0.table_lens b = 0) (hl : s.table_lens b ≠ 0) :
    s.new_strings_lens b = paddedLen (s.table_lens b) ∧
    ∃ j, j ∈ done ++ [i] ∧ j < batch.str_num ∧ batch.lens j = s.table_lens b ∧
      s.ptrs b = batch.buf + batch.offsets j ∧ s.res_buckets j = b := by
  obtain ⟨hlen, j, hj, rest⟩ := hinv.claimed b hb h0 hl
  exact ⟨hlen, j, List.mem_append_left _ hj, rest⟩

/-- A thread that does nothing. -/
theorem AddInv.step_skip (hinv : AddInv hash n mem batch s0 s done) (hnew : i ∉ done)
    (hskip : batch.str_num ≤ i ∨ batch.lens i = 0) : AddInv hash n mem batch s0 s (done ++ [i]) := by
  refine ⟨hinv.probed, hinv.old, hinv.unclaimed, fun _ hb h0 hl => hinv.claimed_append hb h0 hl, ?_,
    fun _ hj => hinv.skipped_append hnew hj, hinv.full_mono⟩
  intro j hj hjn hjl
  rcases List.mem_append.mp hj with hj | hj
  · exact hinv.found j hj hjn hjl
  · obtain rfl := List.mem_singleton.mp hj
    omega

/-- A thread that found the table full. -/
theorem AddInv.step_full (hinv : AddInv hash n mem batch s0 s done) (hnew : i ∉ done) :
    AddInv hash n mem batch s0 { s with table_is_full := true } (done ++ [i]) :=
  ⟨hinv.probed, hinv.old, hinv.unclaimed, fun _ hb h0 hl => hinv.claimed_append hb h0 hl,
    fun _ _ _ _ => Or.inl rfl, fun _ hj => hinv.skipped_append hnew hj, fun _ => rfl⟩

/-- Only the thread itself writes its `res_buckets` entry. -/
theorem upd_res_of_ne {res : Nat → Nat} {q j : Nat} (hnew : i ∉ done) (hj : j ∈ done) :
    upd res i q j = res j :=
  upd_ne _ _ (fun e => hnew (e ▸ hj))

/-- A thread that found its string in bucket `q`. -/
theorem AddInv.step_found (hinv : AddInv hash n mem batch s0 s done) (hnew : i ∉ done)
    (hi : i < batch.str_num) (hl : batch.lens i ≠ 0) {q : Nat} (hq : q < n) (hlq : s.table_lens q ≠ 0)
    (hcq : content mem s.table_lens s.ptrs q = input mem batch i) :
    AddInv hash n mem batch s0 { s with res_buckets := upd s.res_buckets i q } (done ++ [i]) := by
  refine ⟨hinv.probed, hinv.old, hinv.unclaimed, ?_, ?_, ?_, hinv.full_mono⟩
  · intro b hb h0 hlb
    obtain ⟨hlen, j, hj, hjn, hjl, hptr, hres⟩ := hinv.claimed b hb h0 hlb
    exact ⟨hlen, j, List.mem_append_left _ hj, hjn, hjl, hptr, by simp only [upd_res_of_ne hnew hj, hres]⟩
  · intro j hj hjn hjl
    rcases List.mem_append.mp hj with hj | hj
    · simp only [upd_res_of_ne hnew hj]
      exact hinv.found j hj hjn hjl
    · obtain rfl := List.mem_singleton.mp hj
      exact Or.inr ⟨by simpa using hq, by simpa using hlq, by simpa using hcq⟩
  · intro j hj
    have hji : j ≠ i := by rintro rfl; simp at hj; omega
    simp only [upd_ne _ _ hji]
    exact hinv.skipped_append hnew hj

/-- A thread that claimed the empty bucket `q` at the end of its walk. -/
theorem AddInv.step_claim (hinv : AddInv hash n mem batch s0 s done) (hnew : i ∉ done)
    (hi : i < batch.str_num) (hl : batch.lens i ≠ 0) (hdata : batch.buf + batch.offsets i ≠ 0) {q : Nat}
    (hq : q < n) (hlq : s.table_lens q = 0)
    (hway : ∀ c, Before n (home hash n (input mem batch i)) q c →
      s.table_lens c ≠ 0 ∧ content mem s.table_lens s.ptrs c ≠ input mem batch i) :
    AddInv hash n mem batch s0
      { claim s q (adjustHash (hash (input mem batch i))) (batch.lens i) (batch.buf + batch.offsets i) with
        res_buckets := upd s.res_buckets i q
        new_strings_lens := upd s.new_strings_lens q (paddedLen (batch.lens i)) } (done ++ [i]) := by
  -- a bucket full before the run is full now, so it is not `q`
  have hold_ne : ∀ b, s0.table_lens b ≠ 0 → b < n → b ≠ q := by
    rintro b h0 hb rfl
    exact h0 (((hinv.old b hb h0).2.1).symm.trans hlq)
  refine ⟨hinv.probed.claim hq hlq hl hdata hway, ?_, ?_, ?_, ?_, ?_, hinv.full_mono⟩
  · intro b hb h0
    have hbq := hold_ne b h0 hb
    simpa [upd_ne _ _ hbq] using hinv.old b hb h0
  · intro b hb hcase
    have hbq : b ≠ q := by
      rintro rfl
      rcases hcase with h0 | h0
      · exact hold_ne _ h0 hb rfl
      · simp [hl] at h0
    simp only [claim_table_lens, upd_ne _ _ hbq] at hcase ⊢
    exact hinv.unclaimed b hb hcase
  · intro b hb h0 hlb
    by_cases hbq : b = q
    · subst hbq
      exact ⟨by simp, i, List.mem_append_right _ (List.mem_singleton_self i), hi, by simp, by simp, by simp⟩
    · simp only [claim_table_lens, upd_ne _ _ hbq] at hlb ⊢
      obtain ⟨hlen, j, hj, hjn, hjl, hptr, hres⟩ := hinv.claimed b hb h0 hlb
      exact ⟨by simpa [upd_ne _ _ hbq] using hlen, j, List.mem_append_left _ hj, hjn, hjl,
        by simpa [upd_ne _ _ hbq] using hptr, by simp only [upd_res_of_ne hnew hj, hres]⟩
  · intro j hj hjn hjl
    rcases List.mem_append.mp hj with hj | hj
    · rcases hinv.found j hj hjn hjl with hfull | ⟨hr, hlr, hcr⟩
      · exact Or.inl hfull
      · have hrq : s.res_buckets j ≠ q := fun e => hlr (e ▸ hlq)
        refine Or.inr ⟨?_, ?_, ?_⟩
        · simpa [upd_res_of_ne hnew hj] using hr
        · simpa [upd_res_of_ne hnew hj, upd_ne _ _ hrq] using hlr
        · simp only [claim_table_lens, claim_ptrs, upd_res_of_ne hnew hj]
          rw [content_upd, if_neg hrq]
          exact hcr
    · obtain rfl := List.mem_singleton.mp hj
      refine Or.inr ⟨by simpa using hq, by simpa using hl, ?_⟩
      simp only [claim_table_lens, claim_ptrs, upd_same]
      rw [content_upd, if_pos rfl]
      rfl
  · intro j hj
    have hji : j ≠ i := by rintro rfl; simp at hj; omega
    simp only [upd_ne _ _ hji]
    exact hinv.skipped_append hnew hj

/-- One more thread keeps the invariant, whichever of its outcomes it has. -/
theorem AddInv.step (hinv : AddInv hash n mem batch s0 s done) (hn : 0 < n) (hnew : i ∉ done)
    (hdata : ∀ j, j < batch.str_num → batch.lens j ≠ 0 → batch.buf + batch.offsets j ≠ 0) :
    AddInv hash n mem batch s0 (kerAddDataThread hash mem n batch s i) (done ++ [i]) := by
  by_cases hskip : batch.str_num ≤ i ∨ batch.lens i = 0
  · have hthread : kerAddDataThread hash mem n batch s i = s := by
      rcases hskip with h | h
      · simp [kerAddDataThread, Nat.not_lt.mpr h]
      · simp [kerAddDataThread, h, EMPTY_LEN_VAL]
    rw [hthread]
    exact hinv.step_skip hnew hskip
  have hi : i < batch.str_num := by omega
  have hl : batch.lens i ≠ 0 := by omega
  rcases kerAddDataThread_cases hinv.probed hn hi hl with hfull | ⟨q, hq, hway, ⟨hlq, hcq, heq⟩ | ⟨hlq, heq⟩⟩
  · rw [hfull]
    exact hinv.step_full hnew
  · rw [heq]
    exact hinv.step_found hnew hi hl hq hlq hcq
  · rw [heq]
    exact hinv.step_claim hnew hi hl (hdata i hi hl) hq hlq hway

/-- Threads run one after another in any order without repeats keep the invariant. -/
theorem AddInv.run (hinv : AddInv hash n mem batch s0 s done) (hn : 0 < n)
    (hdata : ∀ j, j < batch.str_num → batch.lens j ≠ 0 → batch.buf + batch.offsets j ≠ 0) (order : List Nat)
    (hnd : (done ++ order).Nodup) :
    AddInv hash n mem batch s0 (order.foldl (kerAddDataThread hash mem n batch) s) (done ++ order) := by
  induction order generalizing s done with
  | nil => simpa using hinv
  | cons i order ih =>
    have hnew : i ∉ done := fun h => (List.nodup_append.mp hnd).2.2 i h i List.mem_cons_self rfl
    have hnext := ih (hinv.step hn hnew hdata) (by simpa using hnd)
    simpa using hnext

/-- `kerAddData` from probed arrays, its threads in any order without repeats. -/
theorem kerAddData_inv (hp : Probed hash n mem s0.hashes s0.table_lens s0.ptrs) (hn : 0 < n)
    (hdata : ∀ j, j < batch.str_num → batch.lens j ≠ 0 → batch.buf + batch.offsets j ≠ 0) {order : List Nat}
    (hnd : order.Nodup) : AddInv hash n mem batch s0 (kerAddData hash mem n batch order s0) order := by
  simpa [kerAddData] using (AddInv.init hp).run hn hdata order (by simpa using hnd)

end Kernel

/-! ## Tables between calls -/

section Table

variable (hash : List UInt8 → UInt64)

/-- The bytes bucket `b`'s string takes in the buffer: its padded length, none when empty. -/
def padOf (lens : Nat → Nat) (b : Nat) : Nat := if lens b = 0 then 0 else paddedLen (lens b)

/-- The invariant of a table between calls: probed, each string at an 8-aligned place of the
    used part of the buffer, the padded strings not overlapping and filling that part. -/
structure TableInv (t : CudaStringsHashTable) (mem : Nat → UInt8) : Prop where
  probed : Probed hash t.buckets_num mem t.hashes t.lens t.pointers
  placed : ∀ b, b < t.buckets_num → t.lens b ≠ 0 →
    ∃ o, t.pointers b = t.str_buf + o ∧ 8 ∣ o ∧ o + paddedLen (t.lens b) ≤ t.str_buf_sz
  disjoint : ∀ b c, b < t.buckets_num → c < t.buckets_num → b ≠ c → t.lens b ≠ 0 → t.lens c ≠ 0 →
    t.pointers b + paddedLen (t.lens b) ≤ t.pointers c ∨ t.pointers c + paddedLen (t.lens c) ≤ t.pointers b
  total : exclusiveSum (padOf t.lens) t.buckets_num = t.str_buf_sz
  fits : t.str_buf_sz ≤ t.str_buf_max_sz

end Table

/-! ## A whole run of kerCopyAddedStrings -/

section Copy

variable (hash : List UInt8 → UInt64) (mem : Nat → UInt8) (t : CudaStringsHashTable) (batch : Batch)
  (s0 s : AddState) (order : List Nat)

/-- Where `kerCopyAddedStrings` puts the new string of bucket `b`. -/
def dst (b : Nat) : Nat := t.str_buf + (t.str_buf_sz + exclusiveSum s.new_strings_lens b)

/-- The input strings lie outside the table's buffer. -/
def Outside : Prop :=
  ∀ i, i < batch.str_num → batch.lens i ≠ 0 →
    batch.buf + batch.offsets i + batch.lens i ≤ t.str_buf ∨ t.str_buf + t.str_buf_max_sz ≤ batch.buf + batch.offsets i

/-- Everything known when `kerCopyAddedStrings` starts, in a call that will return normally:
    the table's invariant, the arrays `kerAddData` started from, the end of its run over all
    threads with no table full, and the new strings fitting the buffer. -/
structure Launched : Prop where
  table : TableInv hash t mem
  hashes0 : s0.hashes = t.hashes
  lens0 : s0.table_lens = t.lens
  ptrs0 : s0.ptrs = t.pointers
  new_strings_lens0 : s0.new_strings_lens = fun _ => 0
  kernel : AddInv hash t.buckets_num mem batch s0 s order
  not_full : s.table_is_full = false
  all : ∀ i, i < batch.str_num → i ∈ order
  fits : t.str_buf_sz + exclusiveSum s.new_strings_lens t.buckets_num ≤ t.str_buf_max_sz
  outside : Outside t batch

/-- What the copy has done once the threads `done` have run: each bucket points where it did
    or, if new, at its copy; every string reads back as before; nothing outside the new part of
    the buffer is written; and a new bucket not yet copied was not answered to any thread run
    whose string it points at. -/
structure CopyInv (c : CopyState) (done : List Nat) : Prop where
  ptrs : ∀ b, b < t.buckets_num →
    c.ptrs b = s.ptrs b ∨ (s0.table_lens b = 0 ∧ s.table_lens b ≠ 0 ∧ c.ptrs b = dst t s b)
  content : ∀ b, b < t.buckets_num → s.table_lens b ≠ 0 →
    load c.mem (c.ptrs b) (s.table_lens b) = content mem s.table_lens s.ptrs b
  frame : ∀ a, a < t.str_buf + t.str_buf_sz ∨ t.str_buf + t.str_buf_sz + exclusiveSum s.new_strings_lens t.buckets_num ≤ a →
    c.mem a = mem a
  copied : ∀ b, b < t.buckets_num → s0.table_lens b = 0 → s.table_lens b ≠ 0 → c.ptrs b = s.ptrs b →
    ∀ j, j ∈ done → j < batch.str_num → batch.lens j ≠ 0 → s.res_buckets j = b →
      batch.buf + batch.offsets j ≠ s.ptrs b

variable {hash mem t batch s0 s order}

theorem Launched.found (hl : Launched hash mem t batch s0 s order) {i : Nat} (hi : i < batch.str_num)
    (hli : batch.lens i ≠ 0) :
    s.res_buckets i < t.buckets_num ∧ s.table_lens (s.res_buckets i) ≠ 0 ∧
      content mem s.table_lens s.ptrs (s.res_buckets i) = input mem batch i := by
  rcases hl.kernel.found i (hl.all i hi) hi hli with h | h
  · rw [hl.not_full] at h
    cases h
  · exact h

/-- `buf1` after `kerAddData`: the padded length of each new string, zero elsewhere. -/
theorem Launched.new_strings_lens_eq (hl : Launched hash mem t batch s0 s order) {b : Nat} (hb : b < t.buckets_num) :
    s.new_strings_lens b = if t.lens b = 0 ∧ s.table_lens b ≠ 0 then paddedLen (s.table_lens b) else 0 := by
  by_cases hnew : t.lens b = 0 ∧ s.table_lens b ≠ 0
  · rw [if_pos hnew]
    exact (hl.kernel.claimed b hb (hl.lens0 ▸ hnew.1) hnew.2).1
  · rw [if_neg hnew, hl.kernel.unclaimed b hb (by rw [hl.lens0]; omega), hl.new_strings_lens0]

/-- An old bucket keeps its place in the used part of the buffer. -/
theorem Launched.old_placed (hl : Launched hash mem t batch s0 s order) {b : Nat} (hb : b < t.buckets_num)
    (h0 : t.lens b ≠ 0) :
    s.table_lens b = t.lens b ∧ s.ptrs b = t.pointers b ∧ t.str_buf ≤ t.pointers b ∧
      t.pointers b + paddedLen (t.lens b) ≤ t.str_buf + t.str_buf_sz := by
  obtain ⟨-, hlen, hptr⟩ := hl.kernel.old b hb (hl.lens0 ▸ h0)
  obtain ⟨o, ho, -, hle⟩ := hl.table.placed b hb h0
  rw [hl.lens0] at hlen
  rw [hl.ptrs0] at hptr
  exact ⟨hlen, hptr, by omega, by omega⟩

/-- A new bucket points at the string of a thread, outside the table's buffer. -/
theorem Launched.new_ptr (hl : Launched hash mem t batch s0 s order) {b : Nat} (hb : b < t.buckets_num)
    (h0 : t.lens b = 0) (hlb : s.table_lens b ≠ 0) :
    s.ptrs b + s.table_lens b ≤ t.str_buf ∨ t.str_buf + t.str_buf_max_sz ≤ s.ptrs b := by
  obtain ⟨-, i, -, hi, hli, hptr, -⟩ := hl.kernel.claimed b hb (hl.lens0 ▸ h0) hlb
  rw [hptr, ← hli]
  exact hl.outside i hi (hli ▸ hlb)

/-- The copy of a new string lies in the new part of the buffer. -/
theorem Launched.dst_range (hl : Launched hash mem t batch s0 s order) {b : Nat} (hb : b < t.buckets_num)
    (h0 : t.lens b = 0) (hlb : s.table_lens b ≠ 0) :
    t.str_buf + t.str_buf_sz ≤ dst t s b ∧
      dst t s b + paddedLen (s.table_lens b) ≤ t.str_buf + t.str_buf_sz + exclusiveSum s.new_strings_lens t.buckets_num := by
  have hle := exclusiveSum_add_le s.new_strings_lens hb
  rw [hl.new_strings_lens_eq hb, if_pos ⟨h0, hlb⟩] at hle
  exact ⟨by simp only [dst]; omega, by simp only [dst]; omega⟩

/-- An input string and the copy of a new string do not overlap. -/
theorem Launched.input_dst (hl : Launched hash mem t batch s0 s order) {j b : Nat} (hj : j < batch.str_num)
    (hlj : batch.lens j ≠ 0) (hb : b < t.buckets_num) (h0 : t.lens b = 0) (hlb : s.table_lens b ≠ 0) :
    batch.buf + batch.offsets j + batch.lens j ≤ dst t s b ∨
      dst t s b + paddedLen (s.table_lens b) ≤ batch.buf + batch.offsets j := by
  obtain ⟨hlo, hhi⟩ := hl.dst_range hb h0 hlb
  have hfits := hl.fits
  rcases hl.outside j hj hlj with h | h
  · left
    simp only [dst] at hlo ⊢
    omega
  · right
    omega

/-- The string a bucket points at, wherever that is, does not overlap the copy of another new
    bucket's string. -/
theorem Launched.region_disjoint (hl : Launched hash mem t batch s0 s order) {c : CopyState} {done : List Nat}
    (hc : CopyInv mem t batch s0 s c done) {b b' : Nat} (hb : b < t.buckets_num) (h0 : t.lens b = 0)
    (hlb : s.table_lens b ≠ 0) (hb' : b' < t.buckets_num) (hne : b' ≠ b) (hlb' : s.table_lens b' ≠ 0) :
    c.ptrs b' + s.table_lens b' ≤ dst t s b ∨ dst t s b + paddedLen (s.table_lens b) ≤ c.ptrs b' := by
  obtain ⟨hlo, hhi⟩ := hl.dst_range hb h0 hlb
  have hfits := hl.fits
  rcases hc.ptrs b' hb' with hp | ⟨h0', -, hp⟩
  · rw [hp]
    by_cases hold : t.lens b' = 0
    · -- a new string not yet copied: still the input, outside the buffer
      rcases hl.new_ptr hb' hold hlb' with h | h
      · left
        simp only [dst] at hlo ⊢
        omega
      · right
        omega
    · -- an old string: in the used part, before every copy
      obtain ⟨hlen, hptr, -, hend⟩ := hl.old_placed hb' hold
      have hpad := le_paddedLen (t.lens b')
      left
      rw [hptr, hlen]
      omega
  · -- another copy: the exclusive scan keeps the two apart
    rw [hp]
    rw [hl.lens0] at h0'
    have hpad := le_paddedLen (s.table_lens b')
    have hnb := hl.new_strings_lens_eq hb
    have hnb' := hl.new_strings_lens_eq hb'
    rw [if_pos ⟨h0, hlb⟩] at hnb
    rw [if_pos ⟨h0', hlb'⟩] at hnb'
    rcases Nat.lt_or_gt_of_ne hne with hlt | hlt
    · have := exclusiveSum_add_le s.new_strings_lens hlt
      left
      simp only [dst]
      omega
    · have := exclusiveSum_add_le s.new_strings_lens hlt
      right
      simp only [dst]
      omega

theorem CopyInv.init : CopyInv mem t batch s0 s ⟨s.ptrs, mem⟩ [] where
  ptrs := fun _ _ => Or.inl rfl
  content := fun _ _ _ => rfl
  frame := fun _ _ => rfl
  copied := fun _ _ _ _ _ _ hj => absurd hj List.not_mem_nil

/-- A thread that copies nothing keeps the invariant, when the bucket it was answered does not
    point at its string. -/
theorem CopyInv.append_of_ne {c : CopyState} {done : List Nat} {j : Nat} (hc : CopyInv mem t batch s0 s c done)
    (hj : ∀ b, c.ptrs b = s.ptrs b → j < batch.str_num → batch.lens j ≠ 0 → s.res_buckets j = b →
      batch.buf + batch.offsets j ≠ s.ptrs b) :
    CopyInv mem t batch s0 s c (done ++ [j]) := by
  refine ⟨hc.ptrs, hc.content, hc.frame, ?_⟩
  intro b hb h0 hlb hp k hk hkn hlk hres
  rcases List.mem_append.mp hk with hk | hk
  · exact hc.copied b hb h0 hlb hp k hk hkn hlk hres
  · obtain rfl := List.mem_singleton.mp hk
    exact hj b hp hkn hlk hres

/-- One more thread of `kerCopyAddedStrings` keeps the invariant. -/
theorem CopyInv.step (hl : Launched hash mem t batch s0 s order) {c : CopyState} {done : List Nat} {j : Nat}
    (hc : CopyInv mem t batch s0 s c done) :
    CopyInv mem t batch s0 s
      (kerCopyAddedStringsThread batch s.res_buckets t.str_buf_sz (exclusiveSum s.new_strings_lens) t.str_buf c j)
      (done ++ [j]) := by
  by_cases hskip : batch.str_num ≤ j ∨ batch.lens j = 0
  · have hthread : kerCopyAddedStringsThread batch s.res_buckets t.str_buf_sz (exclusiveSum s.new_strings_lens)
        t.str_buf c j = c := by
      rcases hskip with h | h
      · simp [kerCopyAddedStringsThread, Nat.not_lt.mpr h]
      · simp [kerCopyAddedStringsThread, h, EMPTY_LEN_VAL]
    rw [hthread]
    exact hc.append_of_ne fun _ _ hj hlj => by omega
  have hj : j < batch.str_num := by omega
  have hlj : batch.lens j ≠ 0 := by omega
  obtain ⟨hb, hlb, hcont⟩ := hl.found hj hlj
  have hlen : s.table_lens (s.res_buckets j) = batch.lens j := by
    simpa [input] using congrArg List.length hcont
  by_cases hmatch : c.ptrs (s.res_buckets j) = batch.buf + batch.offsets j
  swap
  · have hthread : kerCopyAddedStringsThread batch s.res_buckets t.str_buf_sz (exclusiveSum s.new_strings_lens)
        t.str_buf c j = c := by
      simp [kerCopyAddedStringsThread, hj, hlj, EMPTY_LEN_VAL, hmatch]
    rw [hthread]
    exact hc.append_of_ne fun b hp _ _ hres => by rw [← hp, ← hres]; exact Ne.symm hmatch
  -- the bucket points at this thread's string: it is new and not yet copied
  set b := s.res_buckets j with hbdef
  have hnew : t.lens b = 0 ∧ c.ptrs b = s.ptrs b := by
    have hout := hl.outside j hj hlj
    have hfits := hl.fits
    rcases hc.ptrs b hb with hp | ⟨h0, -, hp⟩
    · refine ⟨?_, hp⟩
      by_contra hold
      obtain ⟨-, hptr, hlo, hend⟩ := hl.old_placed hb hold
      have hpad := le_paddedLen (t.lens b)
      rw [← hmatch, hp, hptr] at hout
      omega
    · rw [hl.lens0] at h0
      rw [hp] at hmatch
      have hpad := le_paddedLen (s.table_lens b)
      rcases hl.input_dst hj hlj hb h0 hlb with h | h <;> omega
  obtain ⟨h0, hcs⟩ := hnew
  have hdis : batch.buf + batch.offsets j + batch.lens j ≤ dst t s b ∨
      dst t s b + 8 * wordsNum (batch.lens j) ≤ batch.buf + batch.offsets j := by
    have h := hl.input_dst hj hlj hb h0 hlb
    rw [hlen] at h
    rwa [eight_mul_wordsNum (Nat.pos_of_ne_zero hlj)]
  have hthread : kerCopyAddedStringsThread batch s.res_buckets t.str_buf_sz (exclusiveSum s.new_strings_lens)
      t.str_buf c j =
      { mem := copyWords (batch.buf + batch.offsets j) (dst t s b) (batch.lens j) (wordsNum (batch.lens j)) c.mem
        ptrs := upd c.ptrs b (dst t s b) } := by
    simp [kerCopyAddedStringsThread, hj, hlj, EMPTY_LEN_VAL, ← hbdef, hmatch, dst]
  rw [hthread]
  have hw : 8 * wordsNum (batch.lens j) = paddedLen (s.table_lens b) := by
    rw [hlen, eight_mul_wordsNum (Nat.pos_of_ne_zero hlj)]
  refine ⟨?_, ?_, ?_, ?_⟩
  · intro b' hb'
    by_cases e : b' = b
    · subst e
      exact Or.inr ⟨hl.lens0 ▸ h0, hlb, upd_same _ _ _⟩
    · simp only [upd_ne _ _ e]
      exact hc.ptrs b' hb'
  · intro b' hb' hlb'
    by_cases e : b' = b
    · subst e
      simp only [upd_same]
      rw [hlen, load_copyWords _ hdis, ← hmatch, ← hlen]
      exact hc.content _ hb hlb
    · simp only [upd_ne _ _ e]
      rw [← hc.content b' hb' hlb']
      apply load_congr
      intro k hk
      have := hl.region_disjoint hc hb h0 hlb hb' e hlb'
      exact copyWords_of_disjoint _ hdis (by omega)
  · intro a ha
    obtain ⟨hlo, hhi⟩ := hl.dst_range hb h0 hlb
    dsimp only
    rw [copyWords_of_disjoint _ hdis (by omega)]
    exact hc.frame a ha
  · intro b' hb' h0' hlb' hp k hk hkn hlk hres
    by_cases e : b' = b
    · -- bucket `b` now points at its copy, which is not where any input lies
      subst e
      simp only [upd_same] at hp
      have hmy : batch.buf + batch.offsets j = dst t s b := by rw [← hmatch, hcs, hp]
      have hpad := le_paddedLen (s.table_lens b)
      rcases hl.input_dst hj hlj hb h0 hlb with h | h <;> omega
    · simp only [upd_ne _ _ e] at hp
      rcases List.mem_append.mp hk with hk | hk
      · exact hc.copied b' hb' h0' hlb' hp k hk hkn hlk hres
      · obtain rfl := List.mem_singleton.mp hk
        exact absurd hres.symm e

/-- Threads of `kerCopyAddedStrings` run one after another in any order keep the invariant. -/
theorem CopyInv.run (hl : Launched hash mem t batch s0 s order) {c : CopyState} {done : List Nat}
    (hc : CopyInv mem t batch s0 s c done) (copy_order : List Nat) :
    CopyInv mem t batch s0 s
      (copy_order.foldl (kerCopyAddedStringsThread batch s.res_buckets t.str_buf_sz
        (exclusiveSum s.new_strings_lens) t.str_buf) c) (done ++ copy_order) := by
  induction copy_order generalizing c done with
  | nil => simpa using hc
  | cons j copy_order ih =>
    have hnext := ih (hc.step hl (j := j))
    simpa using hnext

/-- Once every thread has run, every new bucket points at its copy: the thread whose string it
    pointed at copied it. -/
theorem CopyInv.copied_all (hl : Launched hash mem t batch s0 s order) {c : CopyState} {done : List Nat}
    (hc : CopyInv mem t batch s0 s c done) (hall : ∀ i, i < batch.str_num → i ∈ done) {b : Nat}
    (hb : b < t.buckets_num) (h0 : t.lens b = 0) (hlb : s.table_lens b ≠ 0) : c.ptrs b = dst t s b := by
  obtain ⟨-, i, -, hi, hli, hptr, hres⟩ := hl.kernel.claimed b hb (hl.lens0 ▸ h0) hlb
  rcases hc.ptrs b hb with hp | ⟨-, -, hp⟩
  · exact absurd hptr.symm (hc.copied b hb (hl.lens0 ▸ h0) hlb hp i (hall i hi) hi (by rw [hli]; exact hlb) hres)
  · exact hp

/-- Where a full bucket's string is after the copy: an old one where it was, a new one at its copy. -/
theorem CopyInv.final_place (hl : Launched hash mem t batch s0 s order) {c : CopyState} {done : List Nat}
    (hc : CopyInv mem t batch s0 s c done) (hall : ∀ i, i < batch.str_num → i ∈ done) {b : Nat}
    (hb : b < t.buckets_num) (hlb : s.table_lens b ≠ 0) :
    (t.lens b ≠ 0 ∧ s.table_lens b = t.lens b ∧ c.ptrs b = t.pointers b) ∨ (t.lens b = 0 ∧ c.ptrs b = dst t s b) := by
  by_cases h0 : t.lens b = 0
  · exact Or.inr ⟨h0, hc.copied_all hl hall hb h0 hlb⟩
  · obtain ⟨hlen, hptr, -, -⟩ := hl.old_placed hb h0
    rcases hc.ptrs b hb with hp | ⟨h0', -, -⟩
    · exact Or.inl ⟨h0, hlen, hp.trans hptr⟩
    · exact absurd (hl.lens0 ▸ h0') h0

/-- `buf1` holds multiples of eight. -/
theorem Launched.eight_dvd_new_strings_lens (hl : Launched hash mem t batch s0 s order) {b : Nat}
    (hb : b < t.buckets_num) : 8 ∣ s.new_strings_lens b := by
  rw [hl.new_strings_lens_eq hb]
  split
  · exact eight_dvd_paddedLen _
  · exact Nat.dvd_zero 8

/-- The used part of the buffer grows by the padded new strings. -/
theorem Launched.padOf_eq (hl : Launched hash mem t batch s0 s order) {b : Nat} (hb : b < t.buckets_num) :
    padOf s.table_lens b = padOf t.lens b + s.new_strings_lens b := by
  rw [hl.new_strings_lens_eq hb]
  by_cases h0 : t.lens b = 0
  · by_cases hlb : s.table_lens b = 0
    · simp [padOf, h0, hlb]
    · simp [padOf, h0, hlb]
  · obtain ⟨hlen, -, -, -⟩ := hl.old_placed hb h0
    simp [padOf, h0, hlen]

/-- The table `addData` leaves when it returns: the arrays of the two kernels, and the used part
    of the buffer grown by the new strings. -/
def addedTable (t : CudaStringsHashTable) (s : AddState) (c : CopyState) : CudaStringsHashTable :=
  { t with
    hashes := s.hashes
    lens := s.table_lens
    pointers := c.ptrs
    str_buf_sz := t.str_buf_sz + exclusiveSum s.new_strings_lens t.buckets_num }

@[simp] theorem addedTable_buckets_num (t : CudaStringsHashTable) (s : AddState) (c : CopyState) :
    (addedTable t s c).buckets_num = t.buckets_num := rfl

@[simp] theorem addedTable_lens (t : CudaStringsHashTable) (s : AddState) (c : CopyState) :
    (addedTable t s c).lens = s.table_lens := rfl

@[simp] theorem addedTable_hashes (t : CudaStringsHashTable) (s : AddState) (c : CopyState) :
    (addedTable t s c).hashes = s.hashes := rfl

@[simp] theorem addedTable_pointers (t : CudaStringsHashTable) (s : AddState) (c : CopyState) :
    (addedTable t s c).pointers = c.ptrs := rfl

@[simp] theorem addedTable_str_buf (t : CudaStringsHashTable) (s : AddState) (c : CopyState) :
    (addedTable t s c).str_buf = t.str_buf := rfl

@[simp] theorem addedTable_str_buf_max_sz (t : CudaStringsHashTable) (s : AddState) (c : CopyState) :
    (addedTable t s c).str_buf_max_sz = t.str_buf_max_sz := rfl

@[simp] theorem addedTable_str_buf_sz (t : CudaStringsHashTable) (s : AddState) (c : CopyState) :
    (addedTable t s c).str_buf_sz = t.str_buf_sz + exclusiveSum s.new_strings_lens t.buckets_num := rfl

/-- The table after a call that returns: its invariant holds over the new memory. -/
theorem CopyInv.tableInv (hl : Launched hash mem t batch s0 s order) {c : CopyState} {done : List Nat}
    (hc : CopyInv mem t batch s0 s c done) (hall : ∀ i, i < batch.str_num → i ∈ done) :
    TableInv hash (addedTable t s c) c.mem := by
  have hsz : 8 ∣ t.str_buf_sz := by
    rw [← hl.table.total]
    exact dvd_exclusiveSum fun j _ => by unfold padOf; split; exact Nat.dvd_zero 8; exact eight_dvd_paddedLen _
  have hpos := t.str_buf_pos
  refine ⟨?_, ?_, ?_, ?_, ?_⟩ <;> simp only [addedTable_buckets_num, addedTable_lens, addedTable_hashes,
    addedTable_pointers, addedTable_str_buf, addedTable_str_buf_sz, addedTable_str_buf_max_sz]
  · -- the same strings under the same hashes, at their copies
    refine hl.kernel.probed.of_content ?_ ?_ ?_
    · intro b hb hlb
      rcases hc.ptrs b hb with hp | ⟨-, h, -⟩
      · exact hp.trans (hl.kernel.probed.empty b hb hlb).2
      · exact absurd hlb h
    · intro b hb hlb
      rcases hc.final_place hl hall hb hlb with ⟨h0, -, hp⟩ | ⟨-, hp⟩
      · obtain ⟨-, -, hlo, -⟩ := hl.old_placed hb h0
        rw [hp]
        omega
      · simp only [hp, dst]
        omega
    · intro b hb hlb
      exact hc.content b hb hlb
  · intro b hb hlb
    rcases hc.final_place hl hall hb hlb with ⟨h0, hlen, hp⟩ | ⟨h0, hp⟩
    · obtain ⟨o, ho, h8, hle⟩ := hl.table.placed b hb h0
      exact ⟨o, hp.trans ho, h8, by simp only [hlen]; omega⟩
    · obtain ⟨-, hhi⟩ := hl.dst_range hb h0 hlb
      refine ⟨t.str_buf_sz + exclusiveSum s.new_strings_lens b, hp, ?_, ?_⟩
      · exact Nat.dvd_add hsz (dvd_exclusiveSum fun j hj => hl.eight_dvd_new_strings_lens (by omega))
      · simp only [dst] at hhi
        omega
  · intro b b' hb hb' hne hlb hlb'
    rcases hc.final_place hl hall hb hlb with ⟨h0, hlen, hp⟩ | ⟨h0, hp⟩ <;>
      rcases hc.final_place hl hall hb' hlb' with ⟨h0', hlen', hp'⟩ | ⟨h0', hp'⟩
    · simp only [hp, hp', hlen, hlen']
      exact hl.table.disjoint b b' hb hb' hne h0 h0'
    · obtain ⟨-, -, -, hend⟩ := hl.old_placed hb h0
      obtain ⟨hlo, -⟩ := hl.dst_range hb' h0' hlb'
      left
      simp only [hp, hp', hlen]
      omega
    · obtain ⟨-, -, -, hend⟩ := hl.old_placed hb' h0'
      obtain ⟨hlo, -⟩ := hl.dst_range hb h0 hlb
      right
      simp only [hp, hp', hlen']
      omega
    · -- two copies: apart by the exclusive scan
      have hnb := hl.new_strings_lens_eq hb
      have hnb' := hl.new_strings_lens_eq hb'
      rw [if_pos ⟨h0, hlb⟩] at hnb
      rw [if_pos ⟨h0', hlb'⟩] at hnb'
      simp only [hp, hp', dst]
      rcases Nat.lt_or_gt_of_ne hne with hlt | hlt
      · have := exclusiveSum_add_le s.new_strings_lens hlt
        left
        omega
      · have := exclusiveSum_add_le s.new_strings_lens hlt
        right
        omega
  · rw [exclusiveSum_congr fun j hj => hl.padOf_eq hj, exclusiveSum_add, hl.table.total]
  · exact hl.fits

end Copy

/-! ## addData and mergeToOtherTable -/

section Calls

variable {hash : List UInt8 → UInt64}

/-- (c) of a call: each string of the batch is in the bucket answered for it. -/
def Added (mem : Nat → UInt8) (batch : Batch) (t' : CudaStringsHashTable) (mem' : Nat → UInt8) (res : Nat → Nat) :
    Prop :=
  ∀ i, i < batch.str_num → batch.lens i ≠ 0 →
    res i < t'.buckets_num ∧ t'.lens (res i) ≠ 0 ∧ content mem' t'.lens t'.pointers (res i) = input mem batch i

/-- (e) of a call: the buckets full before keep their strings. -/
def Kept (t : CudaStringsHashTable) (mem : Nat → UInt8) (t' : CudaStringsHashTable) (mem' : Nat → UInt8) : Prop :=
  ∀ b, b < t.buckets_num → t.lens b ≠ 0 →
    t'.lens b ≠ 0 ∧ content mem' t'.lens t'.pointers b = content mem t.lens t.pointers b

/-- `kerCalcTotalAddedLen`: the last offset of the scan plus the last length is the whole sum. -/
theorem total_added_len_eq (f : Nat → Nat) {m : Nat} (hm : 0 < m) :
    exclusiveSum f (m - 1) + f (m - 1) = exclusiveSum f m := by
  obtain ⟨k, rfl⟩ : ∃ k, m = k + 1 := ⟨m - 1, by omega⟩
  simp [exclusiveSum]

/-- A call of `addData` that returns: no thread found the table full, the new strings fit, and
    the table is the two kernels' arrays. -/
theorem addData_ok {t t' : CudaStringsHashTable} {dev dev' : Device} {batch : Batch} {res res' : Nat → Nat}
    {order copy_order : List Nat} (h : addData hash t dev batch res order copy_order = .ok (t', dev', res')) :
    ∃ s c, s = kerAddData hash dev.mem t.buckets_num batch order
        ⟨t.hashes, t.lens, t.pointers, res, fun _ => 0, dev.table_is_full⟩ ∧
      c = kerCopyAddedStrings batch s.res_buckets t.str_buf_sz (exclusiveSum s.new_strings_lens) t.str_buf
        copy_order ⟨s.ptrs, dev.mem⟩ ∧
      s.table_is_full = false ∧ t.str_buf_sz + exclusiveSum s.new_strings_lens t.buckets_num ≤ t.str_buf_max_sz ∧
      t' = addedTable t s c ∧ dev' = ⟨c.mem, false⟩ ∧ res' = s.res_buckets := by
  refine ⟨_, _, rfl, rfl, ?_⟩
  unfold addData at h
  simp only [total_added_len_eq _ t.buckets_num_pos] at h
  split at h
  · simp [throw, throwThe, MonadExceptOf.throw] at h
  · split at h
    · simp [throw, throwThe, MonadExceptOf.throw] at h
    · rename_i hfull hfit
      simp only [pure, Except.pure, Except.ok.injEq, Prod.mk.injEq] at h
      obtain ⟨rfl, rfl, rfl⟩ := h
      exact ⟨by simpa using hfull, by omega, rfl, by simp_all, rfl⟩

/-- What a call of `addData` that returns does, from a table keeping its invariant and a batch of
    strings outside the table's buffer, whatever order the threads of both kernels run in. -/
theorem addData_spec {t t' : CudaStringsHashTable} {dev dev' : Device} {batch : Batch} {res res' : Nat → Nat}
    {order copy_order : List Nat} (ht : TableInv hash t dev.mem)
    (hdata : ∀ i, i < batch.str_num → batch.lens i ≠ 0 → batch.buf + batch.offsets i ≠ 0)
    (hout : Outside t batch) (horder : order.Perm (List.range batch.str_num))
    (hcopy : copy_order.Perm (List.range batch.str_num))
    (h : addData hash t dev batch res order copy_order = .ok (t', dev', res')) :
    TableInv hash t' dev'.mem ∧ Added dev.mem batch t' dev'.mem res' ∧ Kept t dev.mem t' dev'.mem ∧
      ∀ i, (batch.str_num ≤ i ∨ batch.lens i = 0) → res' i = res i := by
  obtain ⟨s, c, hs, hc, hfull, hfit, rfl, rfl, rfl⟩ := addData_ok h
  have hl : Launched hash dev.mem t batch ⟨t.hashes, t.lens, t.pointers, res, fun _ => 0, dev.table_is_full⟩ s order :=
    { table := ht
      hashes0 := rfl
      lens0 := rfl
      ptrs0 := rfl
      new_strings_lens0 := rfl
      kernel := hs ▸ kerAddData_inv ht.probed t.buckets_num_pos hdata (horder.nodup_iff.mpr List.nodup_range)
      not_full := hfull
      all := fun i hi => horder.mem_iff.mpr (List.mem_range.mpr hi)
      fits := hfit
      outside := hout }
  have hci : CopyInv dev.mem t batch ⟨t.hashes, t.lens, t.pointers, res, fun _ => 0, dev.table_is_full⟩ s c
      ([] ++ copy_order) := by
    rw [hc, kerCopyAddedStrings]
    exact CopyInv.init.run hl copy_order
  have hall : ∀ i, i < batch.str_num → i ∈ [] ++ copy_order := fun i hi =>
    by simpa using hcopy.mem_iff.mpr (List.mem_range.mpr hi)
  refine ⟨hci.tableInv hl hall, ?_, ?_, ?_⟩
  · intro i hi hli
    obtain ⟨hb, hlb, hcont⟩ := hl.found hi hli
    exact ⟨hb, hlb, (hci.content _ hb hlb).trans hcont⟩
  · intro b hb h0
    obtain ⟨hlen, hptr, -, -⟩ := hl.old_placed hb h0
    refine ⟨by simpa [hlen] using h0, ?_⟩
    show load c.mem (c.ptrs b) (s.table_lens b) = load dev.mem (t.pointers b) (t.lens b)
    rw [hci.content b hb (by rw [hlen]; exact h0), content, hlen, hptr]
  · intro i hi
    exact hl.kernel.skipped i (Or.inr hi)

/-- Two tables whose string buffers do not overlap. -/
def Separate (src t : CudaStringsHashTable) : Prop :=
  src.str_buf + src.str_buf_max_sz ≤ t.str_buf ∨ t.str_buf + t.str_buf_max_sz ≤ src.str_buf

/-- `calcOffsets` of a full bucket is the place of its string: the difference fits 32 bits. -/
theorem calcOffsets_full {src : CudaStringsHashTable} {mem : Nat → UInt8} (hsrc : TableInv hash src mem) {i : Nat}
    (hi : i < src.buckets_num) (hli : src.lens i ≠ 0) : src.str_buf + (calcOffsets src).offsets i = src.pointers i := by
  obtain ⟨o, ho, -, hle⟩ := hsrc.placed i hi hli
  have hlt : o < 2 ^ 32 := by
    have := hsrc.fits
    have := src.str_buf_max_sz_lt
    have := le_paddedLen (src.lens i)
    omega
  have hdiff : (((src.str_buf + o : Nat) : Int) - src.str_buf) % 2 ^ 32 = (o : Int) := by
    push_cast
    rw [add_sub_cancel_left]
    exact Int.emod_eq_of_lt (Int.natCast_nonneg o) (by omega)
  simp only [calcOffsets, if_pos hi, ho, hdiff, Int.toNat_natCast]

/-- What a call of `mergeToOtherTable` that returns does to the other table, when both keep their
    invariant in separate buffers: every string of this table is in the bucket answered for its
    bucket, `~0` is answered for empty buckets, and the other table keeps its strings. -/
theorem mergeToOtherTable_spec {src src' t t' : CudaStringsHashTable} {dev dev' : Device} {res res' : Nat → Nat}
    {order copy_order : List Nat} (hsrc : TableInv hash src dev.mem) (ht : TableInv hash t dev.mem)
    (hsep : Separate src t) (horder : order.Perm (List.range src.buckets_num))
    (hcopy : copy_order.Perm (List.range src.buckets_num))
    (h : mergeToOtherTable hash src t dev res order copy_order = .ok (src', t', dev', res')) :
    TableInv hash t' dev'.mem ∧
      (∀ i, i < src.buckets_num → src.lens i ≠ 0 → res' i < t'.buckets_num ∧ t'.lens (res' i) ≠ 0 ∧
        content dev'.mem t'.lens t'.pointers (res' i) = content dev.mem src.lens src.pointers i) ∧
      Kept t dev.mem t' dev'.mem ∧ (∀ i, i < src.buckets_num → src.lens i = 0 → res' i = 2 ^ 32 - 1) := by
  unfold mergeToOtherTable at h
  cases hadd : addData hash t dev (mergeBatch (calcOffsets src)) (fillEmptyResBucket (calcOffsets src).buckets_num res)
      order copy_order with
  | error e => simp [hadd] at h
  | ok r =>
    obtain ⟨t'', dev'', res''⟩ := r
    simp only [hadd, bind, Except.bind, pure, Except.pure, Except.ok.injEq, Prod.mk.injEq] at h
    obtain ⟨-, rfl, rfl, rfl⟩ := h
    have hptr : ∀ i, i < src.buckets_num → src.lens i ≠ 0 →
        (mergeBatch (calcOffsets src)).buf + (mergeBatch (calcOffsets src)).offsets i = src.pointers i :=
      fun i hi hli => calcOffsets_full hsrc hi hli
    have hdata : ∀ i, i < (mergeBatch (calcOffsets src)).str_num → (mergeBatch (calcOffsets src)).lens i ≠ 0 →
        (mergeBatch (calcOffsets src)).buf + (mergeBatch (calcOffsets src)).offsets i ≠ 0 := by
      intro i hi hli
      rw [hptr i hi hli]
      obtain ⟨o, ho, -, -⟩ := hsrc.placed i hi hli
      have := src.str_buf_pos
      omega
    have hout : Outside t (mergeBatch (calcOffsets src)) := by
      intro i hi hli
      show src.str_buf + (calcOffsets src).offsets i + src.lens i ≤ t.str_buf ∨
        t.str_buf + t.str_buf_max_sz ≤ src.str_buf + (calcOffsets src).offsets i
      rw [calcOffsets_full hsrc hi hli]
      obtain ⟨o, ho, -, hle⟩ := hsrc.placed i hi hli
      have := hsrc.fits
      have := le_paddedLen (src.lens i)
      unfold Separate at hsep
      omega
    obtain ⟨hinv, hadded, hkept, hskip⟩ := addData_spec ht hdata hout horder hcopy hadd
    refine ⟨hinv, ?_, hkept, ?_⟩
    · intro i hi hli
      obtain ⟨hb, hlb, hcont⟩ := hadded i hi hli
      refine ⟨hb, hlb, hcont.trans ?_⟩
      show load dev.mem ((mergeBatch (calcOffsets src)).buf + (mergeBatch (calcOffsets src)).offsets i) (src.lens i) = _
      rw [hptr i hi hli]
      rfl
    · intro i hi hli
      rw [hskip i (Or.inr hli)]
      simp [fillEmptyResBucket, calcOffsets, hi]

/-- A table keeps its invariant whatever happens to memory outside its buffer. -/
theorem TableInv.frame {t : CudaStringsHashTable} {mem mem' : Nat → UInt8} (ht : TableInv hash t mem)
    (hmem : ∀ a, t.str_buf ≤ a → a < t.str_buf + t.str_buf_max_sz → mem' a = mem a) : TableInv hash t mem' := by
  refine ⟨ht.probed.of_content (fun b hb hl => (ht.probed.empty b hb hl).2) (fun b hb hl => (ht.probed.full b hb hl).1) ?_,
    ht.placed, ht.disjoint, ht.total, ht.fits⟩
  intro b hb hl
  obtain ⟨o, ho, -, hle⟩ := ht.placed b hb hl
  have := ht.fits
  have := le_paddedLen (t.lens b)
  exact load_congr fun k hk => hmem _ (by omega) (by omega)

/-- `erase` leaves an empty table. -/
theorem tableInv_erase (t : CudaStringsHashTable) (mem : Nat → UInt8) : TableInv hash (erase t) mem := by
  have hlens : ∀ b, b < t.buckets_num → (erase t).lens b = 0 := fun b hb => by simp [erase, hb, EMPTY_LEN_VAL]
  refine ⟨⟨?_, fun b hb hl => absurd (hlens b hb) hl, fun b hb hl => absurd (hlens b hb) hl⟩,
    fun b hb hl => absurd (hlens b hb) hl, fun b _ hb _ _ hl _ => absurd (hlens b hb) hl, ?_, Nat.zero_le _⟩
  · intro b hb _
    have hb' : b < t.buckets_num := hb
    exact ⟨by simp [erase, hb'], by simp [erase, hb']⟩
  · show exclusiveSum (padOf (erase t).lens) t.buckets_num = 0
    rw [exclusiveSum_congr (g := fun _ => 0) fun j hj => by simp [padOf, hlens j hj], exclusiveSum_eq_sum]
    simp

/-! ## Every sequence of calls -/

/-- (a), (b) and (d): every full bucket holds a string under its hash at an 8-aligned place of the
    used part of the buffer; no two buckets hold the same string; the padded strings do not
    overlap and fill the used part. -/
structure Represents (hash : List UInt8 → UInt64) (t : CudaStringsHashTable) (mem : Nat → UInt8) : Prop where
  hashed : ∀ b, b < t.buckets_num → t.lens b ≠ 0 → t.hashes b = adjustHash (hash (content mem t.lens t.pointers b))
  in_buffer : ∀ b, b < t.buckets_num → t.lens b ≠ 0 →
    ∃ o, t.pointers b = t.str_buf + o ∧ o % 8 = 0 ∧ o < t.str_buf_sz
  distinct : ∀ b c, b < t.buckets_num → c < t.buckets_num → t.lens b ≠ 0 → t.lens c ≠ 0 →
    content mem t.lens t.pointers b = content mem t.lens t.pointers c → b = c
  disjoint : ∀ b c, b < t.buckets_num → c < t.buckets_num → b ≠ c → t.lens b ≠ 0 → t.lens c ≠ 0 →
    t.pointers b + paddedLen (t.lens b) ≤ t.pointers c ∨ t.pointers c + paddedLen (t.lens c) ≤ t.pointers b
  total : ∑ b ∈ Finset.range t.buckets_num, padOf t.lens b = t.str_buf_sz

theorem TableInv.represents {t : CudaStringsHashTable} {mem : Nat → UInt8} (ht : TableInv hash t mem) :
    Represents hash t mem where
  hashed := fun b hb hl => (ht.probed.full b hb hl).2
  in_buffer := by
    intro b hb hl
    obtain ⟨o, ho, h8, hle⟩ := ht.placed b hb hl
    have := le_paddedLen (t.lens b)
    exact ⟨o, ho, Nat.mod_eq_zero_of_dvd h8, by omega⟩
  distinct := fun b c hb hc hlb hlc h => ht.probed.unique hb hc hlb hlc h
  disjoint := ht.disjoint
  total := by rw [← exclusiveSum_eq_sum, ht.total]

/-- The states a table reaches from `erase`: by calls of `addData` with batches outside its
    buffer, by merges of tables reached the same way in separate buffers, and by any change of
    memory outside its buffer, each kernel's threads run in any order. -/
inductive Reachable (hash : List UInt8 → UInt64) : CudaStringsHashTable → Device → Prop
  | erase (t : CudaStringsHashTable) (dev : Device) : Reachable hash (erase t) dev
  | addData {t t' : CudaStringsHashTable} {dev dev' : Device} {batch : Batch} {res res' : Nat → Nat}
      {order copy_order : List Nat} :
      Reachable hash t dev →
      (∀ i, i < batch.str_num → batch.lens i ≠ 0 → batch.buf + batch.offsets i ≠ 0) → Outside t batch →
      order.Perm (List.range batch.str_num) → copy_order.Perm (List.range batch.str_num) →
      addData hash t dev batch res order copy_order = .ok (t', dev', res') → Reachable hash t' dev'
  | merge {src src' t t' : CudaStringsHashTable} {dev dev' : Device} {res res' : Nat → Nat}
      {order copy_order : List Nat} :
      Reachable hash t dev → Reachable hash src dev → Separate src t →
      order.Perm (List.range src.buckets_num) → copy_order.Perm (List.range src.buckets_num) →
      mergeToOtherTable hash src t dev res order copy_order = .ok (src', t', dev', res') → Reachable hash t' dev'
  | frame {t : CudaStringsHashTable} {dev dev' : Device} :
      Reachable hash t dev →
      (∀ a, t.str_buf ≤ a → a < t.str_buf + t.str_buf_max_sz → dev'.mem a = dev.mem a) → Reachable hash t dev'

theorem Reachable.tableInv {t : CudaStringsHashTable} {dev : Device} (h : Reachable hash t dev) :
    TableInv hash t dev.mem := by
  induction h with
  | erase t dev => exact tableInv_erase t dev.mem
  | addData _ hdata hout horder hcopy hadd ih => exact (addData_spec ih hdata hout horder hcopy hadd).1
  | merge _ _ hsep horder hcopy hmerge ih ihsrc => exact (mergeToOtherTable_spec ihsrc ih hsep horder hcopy hmerge).1
  | frame _ hmem ih => exact ih.frame hmem

/-- A table of four buckets whose buffer has 64 bytes at address 256. -/
def fourBuckets : CudaStringsHashTable where
  buckets_num := 4
  str_buf_max_sz := 64
  str_buf := 256
  str_buf_sz := 0
  hashes := fun _ => 0
  lens := fun _ => 0
  offsets := fun _ => 0
  pointers := fun _ => 0
  buckets_num_pos := by decide
  str_buf_pos := by decide
  str_buf_max_sz_lt := by norm_num

end Calls

end ClickHouseGpu.Cuda.StringsHashTableInvariant
