import Mathlib
import ClickHouseGpu.Cuda.StringsAggregator

/-
  ClickHouseGpu.Cuda.HandOff — the hand-off of buffers between the producer of
  `CudaStringsAggregator` (`queueData` / `tryQueueData` / `waitProcessed`, and the caller's
  `waitQueueData` after each block) and the chunk workers (`processChunk`).

  Actors. The producer queues the blocks one after another; chunk `i < n` has a worker thread.
  Each critical section under a chunk's `cuda_buffer_mtx` is one atomic step, and a step that
  waits on a condition variable is enabled only once its condition holds. A chunk's
  `cuda_processing_state` gives its buffer to the worker when set and to the producer when
  clear; set on an empty buffer it means end of data. The copies `addData` starts on
  `copy_stream` are finished by `waitQueueData` (`copying`).

  A buffer is the list of the blocks appended to it. The room test and the emptiness test are
  parameters (`hasSpace`, `empty`), and the protocol needs two facts of them (`Lawful`): a
  reset buffer is empty, and an empty buffer has the room of a reset one. At the end they are
  `CudaColumnString`'s own tests, on the counters that `addData` leaves. The ghost state
  records the chunk each block was appended to (`log`) and the blocks each worker passed to its
  chunk's hash table (`processed`).

  Proved:
  - `reachable_inv`: in every state reachable by any interleaving, each block was appended to
    one chunk, in order, and a chunk's worker has passed to its table a prefix of what was
    appended to it, the rest being in its buffer; no exception is thrown when every block fits
    an empty buffer; where each chunk can be is fixed by the producer's phase (`ChunkOk`).
  - `no_copy_in_flight_of_workerStep`: a worker never takes a buffer while a copy into it is in
    flight.
  - `exited_of_done`, `ended_of_exited`: the producer is past its joins only when every worker
    has left its loop, and a worker leaves only after the end of data was sent to it.
  - `hand_off_exactly_once`: the same for `CudaColumnString`'s buffers; when the producer is
    done, every block with rows has been passed to its chunk's table exactly once.
  - `zero_row_block_never_processed`: a block with no rows can stay in a buffer that the end of
    data reads as empty, and never reach the table.
-/

namespace ClickHouseGpu.Cuda.HandOff

open LinearProbe ClickHouseGpu.Cuda.StringsAggregator

/-- Where the producer is. -/
inductive Phase where
  /-- `executeOnBlock`: a round of `queueData`'s loop on the next block. -/
  | queue
  /-- The caller's `waitQueueData` after `queueData` returned. -/
  | waitQueue
  /-- `waitProcessed`: the hand-off of the current chunk. -/
  | flush
  /-- `waitProcessed`: the end of data for chunk `i`. -/
  | terminate (i : Nat)
  /-- `waitProcessed`: the `join` of chunk `i`'s worker. -/
  | join (i : Nat)
  /-- Past the joins: the merges and the read-back follow. -/
  | done
  /-- An exception was thrown. -/
  | failed (what : String)
  deriving DecidableEq, Repr

namespace Phase

/-- The producer still queues blocks. -/
def queueing : Phase → Bool
  | .queue | .waitQueue => true
  | _ => false

/-- The producer may still append to the current chunk's buffer or hand it off. -/
def filling : Phase → Bool
  | .queue | .waitQueue | .flush => true
  | _ => false

/-- The end of data was sent to chunk `i`. -/
def ended : Phase → Nat → Bool
  | .terminate k, i => decide (i < k)
  | .join _, _ | .done, _ => true
  | _, _ => false

/-- Chunk `i`'s worker was joined. -/
def joined : Phase → Nat → Bool
  | .join k, i => decide (i < k)
  | .done, _ => true
  | _, _ => false

end Phase

/-- A chunk as the protocol sees it. -/
structure Chunk (β : Type) where
  cuda_processing_state : Bool
  /-- The blocks in the chunk's `cuda_buffer_keys` and `cuda_buffer_vals`. -/
  buffer : List β
  /-- The worker has left its loop. -/
  exited : Bool
  /-- The blocks the worker passed to the chunk's hash table, in order. -/
  processed : List β

structure State (β : Type) where
  chunks : Nat → Chunk β
  curr_filling_chunk : Nat
  /-- Copies of `addData` on `copy_stream` not yet waited for. -/
  copying : Bool
  /-- The blocks `executeOnBlock` has still to queue. -/
  pending : List β
  phase : Phase
  /-- Each block appended so far, with the chunk it went to. -/
  log : List (Nat × β)

variable {β : Type}

/-- The blocks appended to chunk `i`, in order. -/
def added (s : State β) (i : Nat) : List β := (s.log.filter (fun e => e.1 == i)).map Prod.snd

/-- After `startProcessing`: every flag clear, every buffer empty, chunk 0 current. -/
def init (blocks : List β) : State β :=
  ⟨fun _ => ⟨false, [], false, []⟩, 0, false, blocks, .queue, []⟩

section Protocol

variable (n : Nat) (hasSpace : List β → β → Bool) (empty : List β → Bool)

/-- `tryQueueData` returns `true`: `addData` of `b` to the current chunk's buffers. -/
def appendBlock (s : State β) (b : β) (rest : List β) : State β :=
  let i := s.curr_filling_chunk
  { s with
    chunks := upd s.chunks i { s.chunks i with buffer := (s.chunks i).buffer ++ [b] }
    copying := true
    pending := rest
    phase := .waitQueue
    log := s.log ++ [(i, b)] }

/-- `tryQueueData` returns `false`: `waitQueueData`, the flag set, the next chunk current. -/
def handOff (s : State β) : State β :=
  let i := s.curr_filling_chunk
  { s with
    chunks := upd s.chunks i { s.chunks i with cuda_processing_state := true }
    copying := false
    curr_filling_chunk := (i + 1) % n }

def fail (s : State β) (what : String) : State β := { s with phase := .failed what }

/-- `tryQueueData` of `b`, once the current chunk's flag is clear. -/
def tryQueueData (s : State β) (b : β) (rest : List β) : State β :=
  let buffer := (s.chunks s.curr_filling_chunk).buffer
  if hasSpace buffer b then appendBlock s b rest
  else if empty buffer then fail s "CudaStringsAggregator: seems there is not enough space in buffer"
  else handOff n s

/-- The first block of `waitProcessed`, once the current chunk's flag is clear: the buffer goes
    to the worker unless it is empty. -/
def flushCurrent (s : State β) : State β :=
  let i := s.curr_filling_chunk
  if !empty (s.chunks i).buffer then
    { s with
      chunks := upd s.chunks i { s.chunks i with cuda_processing_state := true }
      phase := .terminate 0 }
  else { s with phase := .terminate 0 }

/-- The end of data for chunk `i`, once its flag is clear: the flag set on its empty buffer. -/
def sendEnd (s : State β) (i : Nat) : State β :=
  if !empty (s.chunks i).buffer then fail s "CudaStringsAggregator: host buffer is not empty after transfer"
  else
    { s with
      chunks := upd s.chunks i { s.chunks i with cuda_processing_state := true }
      phase := .terminate (i + 1) }

/-- One critical section of the producer; `none` while it waits. -/
def producerStep (s : State β) : Option (State β) :=
  match s.phase with
  | .queue =>
    match s.pending with
    | [] => some { s with phase := .flush }
    | b :: rest =>
      if (s.chunks s.curr_filling_chunk).cuda_processing_state then none
      else some (tryQueueData n hasSpace empty s b rest)
  | .waitQueue => some { s with copying := false, phase := .queue }
  | .flush =>
    if (s.chunks s.curr_filling_chunk).cuda_processing_state then none else some (flushCurrent empty s)
  | .terminate i =>
    if i < n then
      if (s.chunks i).cuda_processing_state then none else some (sendEnd empty s i)
    else some { s with phase := .join 0 }
  | .join i =>
    if i < n then
      if (s.chunks i).exited then some { s with phase := .join (i + 1) } else none
    else some { s with phase := .done }
  | .done | .failed _ => none

/-- A round of `processChunk`'s loop, once the flag of chunk `i` is set: an empty buffer ends
    the worker; otherwise the buffer goes to the chunk's hash table, is reset and handed back. -/
def processChunk (s : State β) (i : Nat) : State β :=
  let ch := s.chunks i
  if empty ch.buffer then { s with chunks := upd s.chunks i { ch with exited := true } }
  else
    { s with
      chunks := upd s.chunks i
        { ch with processed := ch.processed ++ ch.buffer, buffer := [], cuda_processing_state := false } }

/-- One critical section of chunk `i`'s worker; `none` while it waits or after it left. -/
def workerStep (s : State β) (i : Nat) : Option (State β) :=
  if i < n ∧ (s.chunks i).cuda_processing_state = true ∧ (s.chunks i).exited = false then
    some (processChunk empty s i)
  else none

/-- A step of any thread. -/
inductive Step (s : State β) : State β → Prop
  | producer {s' : State β} : producerStep n hasSpace empty s = some s' → Step s s'
  | worker {s' : State β} (i : Nat) : workerStep n empty s i = some s' → Step s s'

/-- The states reachable from `startProcessing` with the blocks `blocks` to queue. -/
inductive Reachable (blocks : List β) : State β → Prop
  | init : Reachable blocks (init blocks)
  | step {s s' : State β} : Reachable blocks s → Step n hasSpace empty s s' → Reachable blocks s'

/-- The steps of a trace in order: `none` is a step of the producer, `some i` one of chunk `i`'s
    worker. -/
def run (s : State β) : List (Option Nat) → Option (State β)
  | [] => some s
  | none :: t => (producerStep n hasSpace empty s).bind (run · t)
  | some i :: t => (workerStep n empty s i).bind (run · t)

/-- The producer's steps, one case per branch of `producerStep`, with the waits that enable them. -/
theorem producerStep_cases {s s' : State β} (h : producerStep n hasSpace empty s = some s') :
    (∃ b rest, s.phase = .queue ∧ s.pending = b :: rest ∧
      (s.chunks s.curr_filling_chunk).cuda_processing_state = false ∧
      s' = tryQueueData n hasSpace empty s b rest) ∨
    (s.phase = .queue ∧ s.pending = [] ∧ s' = { s with phase := .flush }) ∨
    (s.phase = .waitQueue ∧ s' = { s with copying := false, phase := .queue }) ∨
    (s.phase = .flush ∧ (s.chunks s.curr_filling_chunk).cuda_processing_state = false ∧
      s' = flushCurrent empty s) ∨
    (∃ i, s.phase = .terminate i ∧ i < n ∧ (s.chunks i).cuda_processing_state = false ∧
      s' = sendEnd empty s i) ∨
    (∃ i, s.phase = .terminate i ∧ n ≤ i ∧ s' = { s with phase := .join 0 }) ∨
    (∃ i, s.phase = .join i ∧ i < n ∧ (s.chunks i).exited = true ∧ s' = { s with phase := .join (i + 1) }) ∨
    (∃ i, s.phase = .join i ∧ n ≤ i ∧ s' = { s with phase := .done }) := by
  cases hph : s.phase with
  | queue =>
    cases hp : s.pending with
    | nil =>
      simp only [producerStep, hph, hp, Option.some.injEq] at h
      exact .inr (.inl ⟨rfl, rfl, h.symm⟩)
    | cons b rest =>
      simp only [producerStep, hph, hp] at h
      split at h
      · cases h
      · rename_i hst
        exact .inl ⟨b, rest, rfl, rfl, by simpa using hst, (Option.some.inj h).symm⟩
  | waitQueue =>
    simp only [producerStep, hph, Option.some.injEq] at h
    exact .inr (.inr (.inl ⟨rfl, h.symm⟩))
  | flush =>
    simp only [producerStep, hph] at h
    split at h
    · cases h
    · rename_i hst
      exact .inr (.inr (.inr (.inl ⟨rfl, by simpa using hst, (Option.some.inj h).symm⟩)))
  | terminate i =>
    simp only [producerStep, hph] at h
    split at h
    · rename_i hi
      split at h
      · cases h
      · rename_i hst
        exact .inr (.inr (.inr (.inr (.inl ⟨i, rfl, hi, by simpa using hst, (Option.some.inj h).symm⟩))))
    · rename_i hi
      exact .inr (.inr (.inr (.inr (.inr (.inl ⟨i, rfl, by omega, (Option.some.inj h).symm⟩)))))
  | join i =>
    simp only [producerStep, hph] at h
    split at h
    · rename_i hi
      split at h
      · rename_i hex
        exact .inr (.inr (.inr (.inr (.inr (.inr (.inl ⟨i, rfl, hi, hex, (Option.some.inj h).symm⟩))))))
      · cases h
    · rename_i hi
      exact .inr (.inr (.inr (.inr (.inr (.inr (.inr ⟨i, rfl, by omega, (Option.some.inj h).symm⟩))))))
  | done => simp [producerStep, hph] at h
  | failed what => simp [producerStep, hph] at h

theorem workerStep_eq {s s' : State β} {i : Nat} (h : workerStep n empty s i = some s') :
    i < n ∧ (s.chunks i).cuda_processing_state = true ∧ (s.chunks i).exited = false ∧
      s' = processChunk empty s i := by
  unfold workerStep at h
  split at h
  · rename_i hw
    exact ⟨hw.1, hw.2.1, hw.2.2, (Option.some.inj h).symm⟩
  · cases h

end Protocol

/-! ## The invariant -/

/-- What the protocol needs of the two buffer tests. -/
structure Lawful (hasSpace : List β → β → Bool) (empty : List β → Bool) : Prop where
  /-- A reset buffer is empty. -/
  empty_nil : empty [] = true
  /-- An empty buffer has the room of a reset one. -/
  hasSpace_of_empty : ∀ l b, empty l = true → hasSpace l b = hasSpace [] b

/-- Where chunk `i` can be, given the producer's phase and current chunk. -/
structure ChunkOk (empty : List β → Bool) (ph : Phase) (curr i : Nat) (ch : Chunk β) : Prop where
  /-- Once the end of data was sent, the flag is set on an empty buffer. -/
  ended : ph.ended i = true → ch.cuda_processing_state = true ∧ empty ch.buffer = true
  /-- A joined worker has left its loop. -/
  joined : ph.joined i = true → ch.exited = true
  /-- Before the end of data the worker is in its loop, ... -/
  running : ph.ended i = false → ch.exited = false
  /-- ... and a buffer it was handed holds rows. -/
  handed : ph.ended i = false → ch.cuda_processing_state = true → empty ch.buffer = false
  /-- A buffer the producer holds is empty, unless the producer is filling it. -/
  idle : ph.ended i = false → ch.cuda_processing_state = false →
    (ph.filling = true ∧ i = curr) ∨ empty ch.buffer = true

/-- The invariant of every reachable state. -/
structure Inv (n : Nat) (empty : List β → Bool) (blocks : List β) (s : State β) : Prop where
  /-- The blocks were appended in order, each once. -/
  log_pending : s.log.map Prod.snd ++ s.pending = blocks
  /-- Each to one of the `n` chunks. -/
  log_lt : ∀ e ∈ s.log, e.1 < n
  /-- A worker has passed to its table a prefix of what was appended to its chunk; the rest is
      in the buffer. -/
  processed_buffer : ∀ i < n, (s.chunks i).processed ++ (s.chunks i).buffer = added s i
  curr_lt : s.curr_filling_chunk < n
  pending_nil : s.phase.queueing = false → s.pending = []
  /-- Copies are in flight only until the caller's `waitQueueData`, into a buffer the producer
      holds. -/
  copying : s.copying = true →
    s.phase = .waitQueue ∧ (s.chunks s.curr_filling_chunk).cuda_processing_state = false
  not_failed : ∀ what, s.phase ≠ .failed what
  chunk : ∀ i < n, ChunkOk empty s.phase s.curr_filling_chunk i (s.chunks i)

variable {n : Nat} {hasSpace : List β → β → Bool} {empty : List β → Bool} {blocks : List β}

theorem Phase.ended_of_filling {ph : Phase} (h : ph.filling = true) (i : Nat) : ph.ended i = false := by
  cases ph <;> simp_all [Phase.filling, Phase.ended]

theorem Phase.joined_of_filling {ph : Phase} (h : ph.filling = true) (i : Nat) : ph.joined i = false := by
  cases ph <;> simp_all [Phase.filling, Phase.joined]

theorem Phase.ended_of_joined {ph : Phase} {i : Nat} (h : ph.joined i = true) : ph.ended i = true := by
  cases ph <;> simp_all [Phase.joined, Phase.ended]

/-- An update of chunk `i` that keeps what it processed followed by its buffer keeps that of
    every chunk. -/
theorem processed_buffer_upd {f : Nat → Chunk β} {i j : Nat} {c : Chunk β}
    (hc : c.processed ++ c.buffer = (f i).processed ++ (f i).buffer) :
    (upd f i c j).processed ++ (upd f i c j).buffer = (f j).processed ++ (f j).buffer := by
  by_cases h : j = i
  · subst h
    simpa using hc
  · simp [h]

/-- Setting a chunk's flag moves no block. -/
theorem processed_buffer_setFlag (f : Nat → Chunk β) (i j : Nat) (x : Bool) :
    (upd f i { f i with cuda_processing_state := x } j).processed ++
      (upd f i { f i with cuda_processing_state := x } j).buffer = (f j).processed ++ (f j).buffer :=
  processed_buffer_upd rfl

/-- An update of chunk `i` that leaves every other chunk where it can be. -/
theorem chunkOk_upd {ph : Phase} {curr i : Nat} {f : Nat → Chunk β} {c : Chunk β}
    (hi : i < n → ChunkOk empty ph curr i c) (hj : ∀ j < n, j ≠ i → ChunkOk empty ph curr j (f j)) :
    ∀ j < n, ChunkOk empty ph curr j (upd f i c j) := by
  intro j hjn
  by_cases h : j = i
  · subst h
    simpa using hi hjn
  · simpa [h] using hj j hjn h

/-- A chunk the step leaves alone stays where it can be, when the phase tells the same about it. -/
theorem ChunkOk.change {ph ph' : Phase} {curr curr' i : Nat} {ch : Chunk β} (h : ChunkOk empty ph curr i ch)
    (hended : ph'.ended i = ph.ended i) (hjoined : ph'.joined i = true → ph.joined i = true ∨ ch.exited = true)
    (hcurr : ph.filling = true ∧ i = curr → ph'.filling = true ∧ i = curr') : ChunkOk empty ph' curr' i ch where
  ended he := h.ended (hended ▸ he)
  joined hj := (hjoined hj).elim h.joined id
  running he := h.running (hended ▸ he)
  handed he := h.handed (hended ▸ he)
  idle he hs := (h.idle (hended ▸ he) hs).imp_left hcurr

theorem inv_init (hl : Lawful hasSpace empty) (hn : 0 < n) : Inv n empty blocks (init blocks) where
  log_pending := rfl
  log_lt := by simp [init]
  processed_buffer := by simp [init, added]
  curr_lt := hn
  pending_nil := by simp [init, Phase.queueing]
  copying := by simp [init]
  not_failed := by simp [init]
  chunk _ _ :=
    { ended := by simp [init, Phase.ended]
      joined := by simp [init, Phase.joined]
      running _ := rfl
      handed := by simp [init]
      idle _ _ := .inr hl.empty_nil }

/-! ## The producer's steps keep the invariant -/

section Producer

variable {s : State β}

theorem added_appendBlock {b : β} {rest : List β} (i : Nat) :
    added (appendBlock s b rest) i = if i = s.curr_filling_chunk then added s i ++ [b] else added s i := by
  by_cases h : i = s.curr_filling_chunk
  · subst h
    simp [added, appendBlock, List.filter_append]
  · simp [added, appendBlock, List.filter_append, Ne.symm h, h]

theorem Inv.appendBlock {b : β} {rest : List β} (hi : Inv n empty blocks s) (hph : s.phase = .queue)
    (hp : s.pending = b :: rest) (hst : (s.chunks s.curr_filling_chunk).cuda_processing_state = false) :
    Inv n empty blocks (appendBlock s b rest) where
  log_pending := by simp [HandOff.appendBlock, ← hi.log_pending, hp]
  log_lt e he := by
    simp only [HandOff.appendBlock, List.mem_append, List.mem_singleton] at he
    rcases he with he | rfl
    · exact hi.log_lt e he
    · exact hi.curr_lt
  processed_buffer i hin := by
    rw [added_appendBlock, ← hi.processed_buffer i hin]
    by_cases h : i = s.curr_filling_chunk
    · subst h
      simp [HandOff.appendBlock]
    · simp [HandOff.appendBlock, h]
  curr_lt := hi.curr_lt
  pending_nil := by simp [HandOff.appendBlock, Phase.queueing]
  copying _ := by simp [HandOff.appendBlock, hst]
  not_failed := by simp [HandOff.appendBlock]
  chunk := by
    have hfill : s.phase.filling = true := by rw [hph]; rfl
    simp only [HandOff.appendBlock]
    refine chunkOk_upd (fun hc => ?_) (fun j hj hne => ?_)
    · -- the buffer being filled stays the producer's
      have hcur := hi.chunk _ hc
      exact
        { ended := by simp [Phase.ended]
          joined := by simp [Phase.joined]
          running := fun _ => hcur.running (Phase.ended_of_filling hfill _)
          handed := fun _ h => by simp [hst] at h
          idle := fun _ _ => .inl ⟨rfl, rfl⟩ }
    · exact (hi.chunk j hj).change (by rw [hph]; rfl) (by simp [Phase.joined]) (fun h => absurd h.2 hne)

theorem Inv.handOff (hn : 0 < n) (hi : Inv n empty blocks s) (hph : s.phase = .queue)
    (hne : empty (s.chunks s.curr_filling_chunk).buffer = false) : Inv n empty blocks (handOff n s) where
  log_pending := hi.log_pending
  log_lt := hi.log_lt
  processed_buffer i hin := (processed_buffer_setFlag _ _ _ _).trans (hi.processed_buffer i hin)
  curr_lt := Nat.mod_lt _ hn
  pending_nil := by simp [HandOff.handOff, hph, Phase.queueing]
  copying := by simp [HandOff.handOff]
  not_failed := by simp [HandOff.handOff, hph]
  chunk := by
    have hfill : s.phase.filling = true := by rw [hph]; rfl
    simp only [HandOff.handOff]
    refine chunkOk_upd (fun hc => ?_) (fun j hj hne => ?_)
    · -- the buffer handed to the worker holds rows
      exact
        { ended := by simp [Phase.ended_of_filling hfill]
          joined := by simp [Phase.joined_of_filling hfill]
          running := fun _ => (hi.chunk _ hc).running (Phase.ended_of_filling hfill _)
          handed := fun _ _ => hne
          idle := fun _ h => by simp at h }
    · exact (hi.chunk j hj).change rfl .inl (fun h => absurd h.2 hne)

theorem Inv.tryQueueData (hl : Lawful hasSpace empty) (hfit : ∀ b ∈ blocks, hasSpace [] b = true) (hn : 0 < n)
    {b : β} {rest : List β} (hi : Inv n empty blocks s) (hph : s.phase = .queue) (hp : s.pending = b :: rest)
    (hst : (s.chunks s.curr_filling_chunk).cuda_processing_state = false) :
    Inv n empty blocks (tryQueueData n hasSpace empty s b rest) := by
  dsimp only [HandOff.tryQueueData]
  split
  · exact hi.appendBlock hph hp hst
  · rename_i hspace
    split
    · -- an empty buffer has the room of a reset one, and every block fits a reset one
      rename_i hempty
      have hb : b ∈ blocks := by simp [← hi.log_pending, hp]
      rw [hl.hasSpace_of_empty _ _ hempty, hfit b hb] at hspace
      exact absurd rfl hspace
    · rename_i hempty
      exact hi.handOff hn hph (by simpa using hempty)

/-- No copy is in flight outside the caller's `waitQueueData`. -/
theorem Inv.copying_false (hi : Inv n empty blocks s) (h : s.phase ≠ .waitQueue) : s.copying = false := by
  cases hc : s.copying
  · rfl
  · exact absurd (hi.copying hc).1 h

/-- A step that only moves the producer on to `ph`. -/
theorem Inv.setPhase {ph : Phase} (hi : Inv n empty blocks s) (hq : ph.queueing = false → s.pending = [])
    (hc : s.copying = false) (hnf : ∀ what, ph ≠ .failed what)
    (hch : ∀ i < n, ChunkOk empty s.phase s.curr_filling_chunk i (s.chunks i) →
      ChunkOk empty ph s.curr_filling_chunk i (s.chunks i)) :
    Inv n empty blocks { s with phase := ph } where
  log_pending := hi.log_pending
  log_lt := hi.log_lt
  processed_buffer := hi.processed_buffer
  curr_lt := hi.curr_lt
  pending_nil := hq
  copying h := absurd h (by simp [hc])
  not_failed := hnf
  chunk i hin := hch i hin (hi.chunk i hin)

/-- `waitQueueData` after `queueData`. -/
theorem Inv.waitQueueData (hi : Inv n empty blocks s) (hph : s.phase = .waitQueue) :
    Inv n empty blocks { s with copying := false, phase := .queue } where
  log_pending := hi.log_pending
  log_lt := hi.log_lt
  processed_buffer := hi.processed_buffer
  curr_lt := hi.curr_lt
  pending_nil := by simp [Phase.queueing]
  copying := by simp
  not_failed := by simp
  chunk i hin := (hi.chunk i hin).change (by rw [hph]; rfl) (by simp [Phase.joined]) (fun h => ⟨rfl, h.2⟩)

/-- `queueData` is done with the blocks: `waitProcessed` begins. -/
theorem Inv.toFlush (hi : Inv n empty blocks s) (hph : s.phase = .queue) (hp : s.pending = []) :
    Inv n empty blocks { s with phase := .flush } :=
  hi.setPhase (fun _ => hp) (hi.copying_false (by simp [hph])) (by simp)
    (fun _ _ h => h.change (by rw [hph]; rfl) (by simp [Phase.joined]) (fun h => ⟨rfl, h.2⟩))

theorem Inv.flushCurrent (hi : Inv n empty blocks s) (hph : s.phase = .flush)
    (hst : (s.chunks s.curr_filling_chunk).cuda_processing_state = false) :
    Inv n empty blocks (flushCurrent empty s) := by
  have hc := hi.copying_false (by simp [hph])
  have hq : s.pending = [] := hi.pending_nil (by simp [hph, Phase.queueing])
  have hcur := hi.chunk _ hi.curr_lt
  rw [hph] at hcur
  -- every other chunk is where it was: not ended, and not the one being filled
  have hothers : ∀ j < n, j ≠ s.curr_filling_chunk →
      ChunkOk empty (.terminate 0) s.curr_filling_chunk j (s.chunks j) := fun j hj hne =>
    (hi.chunk j hj).change (by rw [hph]; rfl) (by simp [Phase.joined]) (fun h => absurd h.2 hne)
  dsimp only [HandOff.flushCurrent]
  split
  · -- the current buffer holds rows: it goes to the worker
    rename_i hne
    refine
      { log_pending := hi.log_pending
        log_lt := hi.log_lt
        processed_buffer := fun i hin => (processed_buffer_setFlag _ _ _ _).trans (hi.processed_buffer i hin)
        curr_lt := hi.curr_lt
        pending_nil := fun _ => hq
        copying := by simp [hc]
        not_failed := by simp
        chunk := chunkOk_upd (fun _ => ?_) hothers }
    exact
      { ended := by simp [Phase.ended]
        joined := by simp [Phase.joined]
        running := fun _ => hcur.running rfl
        handed := fun _ _ => by simpa using hne
        idle := fun _ h => by simp at h }
  · -- an empty buffer stays with the producer
    rename_i hempty
    refine hi.setPhase (fun _ => hq) hc (by simp) (fun j hj _ => ?_)
    by_cases hne : j = s.curr_filling_chunk
    · subst hne
      exact
        { ended := by simp [Phase.ended]
          joined := by simp [Phase.joined]
          running := fun _ => hcur.running rfl
          handed := fun _ h => by simp [hst] at h
          idle := fun _ _ => .inr (by simpa using hempty) }
    · exact hothers j hj hne

theorem Inv.sendEnd {i : Nat} (hi : Inv n empty blocks s) (hph : s.phase = .terminate i) (hin : i < n)
    (hst : (s.chunks i).cuda_processing_state = false) : Inv n empty blocks (sendEnd empty s i) := by
  have hc := hi.copying_false (by simp [hph])
  have hq : s.pending = [] := hi.pending_nil (by simp [hph, Phase.queueing])
  have hch := hi.chunk i hin
  rw [hph] at hch
  -- a buffer the producer holds once it stopped filling is empty
  have hempty : empty (s.chunks i).buffer = true :=
    (hch.idle (by simp [Phase.ended]) hst).resolve_left (by simp [Phase.filling])
  unfold HandOff.sendEnd
  rw [if_neg (by simp [hempty])]
  refine
    { log_pending := hi.log_pending
      log_lt := hi.log_lt
      processed_buffer := fun j hjn => (processed_buffer_setFlag _ _ _ _).trans (hi.processed_buffer j hjn)
      curr_lt := hi.curr_lt
      pending_nil := fun _ => hq
      copying := by simp [hc]
      not_failed := by simp
      chunk := chunkOk_upd (fun _ => ?_) (fun j hj hne => ?_) }
  · exact
      { ended := fun _ => ⟨rfl, hempty⟩
        joined := by simp [Phase.joined]
        running := by simp [Phase.ended]
        handed := by simp [Phase.ended]
        idle := by simp [Phase.ended] }
  · refine (hi.chunk j hj).change ?_ (by simp [Phase.joined]) (by simp [hph, Phase.filling])
    simp only [hph, Phase.ended, decide_eq_decide]
    omega

/-- Past the last chunk, the end of data was sent to every chunk: the joins begin. -/
theorem Inv.toJoin {i : Nat} (hi : Inv n empty blocks s) (hph : s.phase = .terminate i) (hin : n ≤ i) :
    Inv n empty blocks { s with phase := .join 0 } :=
  hi.setPhase (fun _ => hi.pending_nil (by simp [hph, Phase.queueing])) (hi.copying_false (by simp [hph]))
    (by simp) (fun j hj h => h.change (by simp [hph, Phase.ended]; omega) (by simp [Phase.joined])
      (by simp [hph, Phase.filling]))

theorem Inv.joinNext {i : Nat} (hi : Inv n empty blocks s) (hph : s.phase = .join i)
    (hex : (s.chunks i).exited = true) : Inv n empty blocks { s with phase := .join (i + 1) } := by
  refine hi.setPhase (fun _ => hi.pending_nil (by simp [hph, Phase.queueing])) (hi.copying_false (by simp [hph]))
    (by simp) (fun j _ h => h.change (by simp [hph, Phase.ended]) (fun hj => ?_) (by simp [hph, Phase.filling]))
  -- the worker joined now is the one just seen to have left
  by_cases hji : j = i
  · exact .inr (hji ▸ hex)
  · simp only [Phase.joined, decide_eq_true_eq] at hj
    exact .inl (by simp [hph, Phase.joined]; omega)

theorem Inv.toDone {i : Nat} (hi : Inv n empty blocks s) (hph : s.phase = .join i) (hin : n ≤ i) :
    Inv n empty blocks { s with phase := .done } :=
  hi.setPhase (fun _ => hi.pending_nil (by simp [hph, Phase.queueing])) (hi.copying_false (by simp [hph]))
    (by simp) (fun j hj h => h.change (by simp [hph, Phase.ended])
      (fun _ => .inl (by simp [hph, Phase.joined]; omega)) (by simp [hph, Phase.filling]))

end Producer

/-! ## The workers' steps keep the invariant -/

section Worker

variable {s : State β}

/-- An update of chunk `i` that keeps its flag keeps every chunk's flag. -/
theorem upd_state {f : Nat → Chunk β} {i j : Nat} {c : Chunk β}
    (hc : c.cuda_processing_state = (f i).cuda_processing_state) :
    (upd f i c j).cuda_processing_state = (f j).cuda_processing_state := by
  by_cases h : j = i
  · subst h
    simpa using hc
  · simp [h]

/-- Leaving the loop moves no block. -/
theorem processed_buffer_exit (f : Nat → Chunk β) (i j : Nat) :
    (upd f i { f i with exited := true } j).processed ++ (upd f i { f i with exited := true } j).buffer =
      (f j).processed ++ (f j).buffer :=
  processed_buffer_upd rfl

/-- Passing the buffer to the table moves its blocks to what was processed. -/
theorem processed_buffer_process (f : Nat → Chunk β) (i j : Nat) :
    (upd f i { f i with processed := (f i).processed ++ (f i).buffer, buffer := [], cuda_processing_state := false }
      j).processed ++
    (upd f i { f i with processed := (f i).processed ++ (f i).buffer, buffer := [], cuda_processing_state := false }
      j).buffer = (f j).processed ++ (f j).buffer :=
  processed_buffer_upd (by simp)

theorem Inv.processChunk (hl : Lawful hasSpace empty) {i : Nat} (hi : Inv n empty blocks s) (hin : i < n)
    (hst : (s.chunks i).cuda_processing_state = true) (hex : (s.chunks i).exited = false) :
    Inv n empty blocks (processChunk empty s i) := by
  have hch := hi.chunk i hin
  dsimp only [HandOff.processChunk]
  split
  · -- an empty buffer is the end of data: the worker leaves its loop
    rename_i hempty
    have hended : s.phase.ended i = true := by
      cases he : s.phase.ended i
      · rw [hch.handed he hst] at hempty
        cases hempty
      · rfl
    refine
      { log_pending := hi.log_pending
        log_lt := hi.log_lt
        processed_buffer := fun j hjn => (processed_buffer_exit _ _ _).trans (hi.processed_buffer j hjn)
        curr_lt := hi.curr_lt
        pending_nil := hi.pending_nil
        copying := fun h => ⟨(hi.copying h).1, (upd_state (c := { s.chunks i with exited := true }) rfl).trans (hi.copying h).2⟩
        not_failed := hi.not_failed
        chunk := chunkOk_upd (fun _ => ?_) (fun j hj _ => hi.chunk j hj) }
    exact
      { ended := fun _ => hch.ended hended
        joined := fun _ => rfl
        running := fun he => by rw [hended] at he; cases he
        handed := fun he => by rw [hended] at he; cases he
        idle := fun he => by rw [hended] at he; cases he }
  · -- the buffer goes to the table, is reset and handed back
    rename_i hempty
    have hnotended : s.phase.ended i = false := by
      cases he : s.phase.ended i
      · rfl
      · exact absurd (hch.ended he).2 hempty
    refine
      { log_pending := hi.log_pending
        log_lt := hi.log_lt
        processed_buffer := fun j hjn => (processed_buffer_process _ _ _).trans (hi.processed_buffer j hjn)
        curr_lt := hi.curr_lt
        pending_nil := hi.pending_nil
        copying := fun h => ⟨(hi.copying h).1, ?_⟩
        not_failed := hi.not_failed
        chunk := chunkOk_upd (fun _ => ?_) (fun j hj _ => hi.chunk j hj) }
    · by_cases hc : s.curr_filling_chunk = i
      · simp [hc]
      · simpa [hc] using (hi.copying h).2
    · exact
        { ended := fun he => by rw [hnotended] at he; cases he
          joined := fun hj => by rw [Phase.ended_of_joined hj] at hnotended; cases hnotended
          running := fun _ => hex
          handed := fun _ h => by simp at h
          idle := fun _ _ => .inr hl.empty_nil }

end Worker

/-! ## Every reachable state -/

section Reachable

variable {s s' : State β}

theorem Inv.producerStep (hl : Lawful hasSpace empty) (hfit : ∀ b ∈ blocks, hasSpace [] b = true) (hn : 0 < n)
    (hi : Inv n empty blocks s) (h : producerStep n hasSpace empty s = some s') : Inv n empty blocks s' := by
  rcases producerStep_cases n hasSpace empty h with
    ⟨b, rest, hph, hp, hst, rfl⟩ | ⟨hph, hp, rfl⟩ | ⟨hph, rfl⟩ | ⟨hph, hst, rfl⟩ | ⟨i, hph, hin, hst, rfl⟩ |
    ⟨i, hph, hin, rfl⟩ | ⟨i, hph, hin, hex, rfl⟩ | ⟨i, hph, hin, rfl⟩
  · exact hi.tryQueueData hl hfit hn hph hp hst
  · exact hi.toFlush hph hp
  · exact hi.waitQueueData hph
  · exact hi.flushCurrent hph hst
  · exact hi.sendEnd hph hin hst
  · exact hi.toJoin hph hin
  · exact hi.joinNext hph hex
  · exact hi.toDone hph hin

theorem Inv.step (hl : Lawful hasSpace empty) (hfit : ∀ b ∈ blocks, hasSpace [] b = true) (hn : 0 < n)
    (hi : Inv n empty blocks s) (h : Step n hasSpace empty s s') : Inv n empty blocks s' := by
  cases h with
  | producer h => exact hi.producerStep hl hfit hn h
  | worker i h =>
    obtain ⟨hin, hst, hex, rfl⟩ := workerStep_eq n empty h
    exact hi.processChunk hl hin hst hex

/-- The invariant holds in every state that any interleaving of the threads reaches. -/
theorem reachable_inv (hl : Lawful hasSpace empty) (hfit : ∀ b ∈ blocks, hasSpace [] b = true) (hn : 0 < n)
    (h : Reachable n hasSpace empty blocks s) : Inv n empty blocks s := by
  induction h with
  | init => exact inv_init hl hn
  | step _ hstep ih => exact ih.step hl hfit hn hstep

/-- A worker never takes a buffer while a copy into it is in flight. -/
theorem Inv.no_copy_in_flight_of_workerStep (hi : Inv n empty blocks s) {i : Nat}
    (h : workerStep n empty s i = some s') : ¬ (s.copying = true ∧ s.curr_filling_chunk = i) := by
  rintro ⟨hc, rfl⟩
  obtain ⟨-, hst, -, -⟩ := workerStep_eq n empty h
  rw [(hi.copying hc).2] at hst
  cases hst

/-- Past its joins, every worker has left its loop. -/
theorem Inv.exited_of_done (hi : Inv n empty blocks s) (hd : s.phase = .done) {i : Nat} (hin : i < n) :
    (s.chunks i).exited = true :=
  (hi.chunk i hin).joined (by simp [hd, Phase.joined])

/-- A worker leaves its loop only once the end of data was sent to it. -/
theorem Inv.ended_of_exited (hi : Inv n empty blocks s) {i : Nat} (hin : i < n)
    (hex : (s.chunks i).exited = true) : s.phase.ended i = true := by
  cases he : s.phase.ended i
  · rw [(hi.chunk i hin).running he] at hex
    cases hex
  · rfl

/-- Past its joins, every chunk's buffer reads as empty, so every block appended to it that an
    empty buffer cannot hold has been passed to its table. -/
theorem Inv.filter_processed_of_done (hi : Inv n empty blocks s) (hd : s.phase = .done) (hasRows : β → Bool)
    (hrows : ∀ l, empty l = true → ∀ b ∈ l, hasRows b = false) {i : Nat} (hin : i < n) :
    (s.chunks i).processed.filter hasRows = (added s i).filter hasRows := by
  have hempty := ((hi.chunk i hin).ended (by simp [hd, Phase.ended])).2
  have hbuffer : (s.chunks i).buffer.filter hasRows = [] :=
    List.filter_eq_nil_iff.mpr (fun b hb => by simp [hrows _ hempty b hb])
  rw [← hi.processed_buffer i hin, List.filter_append, hbuffer, List.append_nil]

theorem Reachable.run {t : List (Option Nat)} (hs : Reachable n hasSpace empty blocks s)
    (h : run n hasSpace empty s t = some s') : Reachable n hasSpace empty blocks s' := by
  induction t generalizing s with
  | nil =>
    simp only [HandOff.run, Option.some.injEq] at h
    exact h ▸ hs
  | cons x t ih =>
    cases x with
    | none =>
      obtain ⟨s₁, h₁, h⟩ := Option.bind_eq_some_iff.mp h
      exact ih (hs.step (.producer h₁)) h
    | some i =>
      obtain ⟨s₁, h₁, h⟩ := Option.bind_eq_some_iff.mp h
      exact ih (hs.step (.worker i h₁)) h

/-- A trace from the start that ends in a state where `p` holds. -/
theorem reach_of_run {t : List (Option Nat)} {p : State β → Bool}
    (h : (run n hasSpace empty (init blocks) t).map p = some true) :
    ∃ s, Reachable n hasSpace empty blocks s ∧ p s = true := by
  cases hr : run n hasSpace empty (init blocks) t with
  | none => simp [hr] at h
  | some s =>
    simp only [hr, Option.map_some, Option.some.injEq] at h
    exact ⟨s, Reachable.init.run hr, h⟩

theorem exists_step_of_isSome (h : (producerStep n hasSpace empty s).isSome = true) :
    ∃ s', Step n hasSpace empty s s' := by
  obtain ⟨s', hs'⟩ := Option.isSome_iff_exists.mp h
  exact ⟨s', .producer hs'⟩

/-- Some thread can move until the producer is done: the protocol never deadlocks. -/
theorem Inv.exists_step (hi : Inv n empty blocks s) (hd : s.phase ≠ .done) : ∃ s', Step n hasSpace empty s s' := by
  -- a worker holding its flag is in its loop unless the end of data was sent to it
  have hworker : ∀ i < n, (s.chunks i).cuda_processing_state = true → (s.chunks i).exited = false →
      ∃ s', Step n hasSpace empty s s' :=
    fun i hin hst hex => ⟨HandOff.processChunk empty s i, .worker i (by simp [workerStep, hin, hst, hex])⟩
  cases hph : s.phase with
  | queue =>
    cases hp : s.pending with
    | nil => exact exists_step_of_isSome (by simp [HandOff.producerStep, hph, hp])
    | cons b rest =>
      cases hst : (s.chunks s.curr_filling_chunk).cuda_processing_state
      · exact exists_step_of_isSome (by simp [HandOff.producerStep, hph, hp, hst])
      · exact hworker _ hi.curr_lt hst ((hi.chunk _ hi.curr_lt).running (by simp [hph, Phase.ended]))
  | waitQueue => exact exists_step_of_isSome (by simp [HandOff.producerStep, hph])
  | flush =>
    cases hst : (s.chunks s.curr_filling_chunk).cuda_processing_state
    · exact exists_step_of_isSome (by simp [HandOff.producerStep, hph, hst])
    · exact hworker _ hi.curr_lt hst ((hi.chunk _ hi.curr_lt).running (by simp [hph, Phase.ended]))
  | terminate i =>
    by_cases hin : i < n
    · cases hst : (s.chunks i).cuda_processing_state
      · exact exists_step_of_isSome (by simp [HandOff.producerStep, hph, hin, hst])
      · exact hworker i hin hst ((hi.chunk i hin).running (by simp [hph, Phase.ended]))
    · exact exists_step_of_isSome (by simp [HandOff.producerStep, hph, hin])
  | join i =>
    by_cases hin : i < n
    · cases hex : (s.chunks i).exited
      · exact hworker i hin ((hi.chunk i hin).ended (by simp [hph, Phase.ended])).1 hex
      · exact exists_step_of_isSome (by simp [HandOff.producerStep, hph, hin, hex])
    · exact exists_step_of_isSome (by simp [HandOff.producerStep, hph, hin])
  | done => exact absurd hph hd
  | failed what => exact absurd hph (hi.not_failed what)

end Reachable

/-! ## `CudaColumnString`'s tests -/

section Buffers

/-- The buffer `c` after `addData` of the column `col` of each block of `l`, with the rows of a
    block counted by its key column as `queueData`'s `str_num`. The protocol reads only the
    counters, which do not depend on the device memory the copies write. -/
def addBlocks (c : CudaColumnString) (col : Block → List (List UInt8)) (l : List Block) : CudaColumnString :=
  l.foldl (fun c b => (c.addData (fun _ => 0) b.keys.length (getChars (col b)) (getOffsets 0 (col b))).1) c

/-- `tryQueueData`'s test of both buffers of a chunk that holds `l`, for the block `b`; the
    argument column is appended only when `is_vals_needed`. -/
def blocksHaveSpace (keys vals : CudaColumnString) (is_vals_needed : Bool) (l : List Block) (b : Block) : Bool :=
  (addBlocks keys Block.keys l).hasSpace b.keys.length (getChars b.keys).length &&
    (if is_vals_needed then addBlocks vals Block.vals l else vals).hasSpace b.keys.length (getChars b.vals).length

/-- `cuda_buffer_keys->empty()` of a chunk that holds `l`. -/
def blocksEmpty (keys : CudaColumnString) (l : List Block) : Bool := (addBlocks keys Block.keys l).empty

/-- A block has rows. -/
def hasRows (b : Block) : Bool := !b.keys.isEmpty

variable {c : CudaColumnString} {col : Block → List (List UInt8)} {l : List Block}

@[simp] theorem addBlocks_str_num : (addBlocks c col l).str_num = c.str_num + (l.map fun b => b.keys.length).sum := by
  induction l generalizing c with
  | nil => simp [addBlocks]
  | cons b l ih =>
    simp only [addBlocks, List.foldl_cons] at ih ⊢
    rw [ih]
    simp [CudaColumnString.addData, Nat.add_assoc]

@[simp] theorem addBlocks_sz : (addBlocks c col l).sz = c.sz + (l.map fun b => (getChars (col b)).length).sum := by
  induction l generalizing c with
  | nil => simp [addBlocks]
  | cons b l ih =>
    simp only [addBlocks, List.foldl_cons] at ih ⊢
    rw [ih]
    simp [CudaColumnString.addData, Nat.add_assoc]

@[simp] theorem addBlocks_max_str_num : (addBlocks c col l).max_str_num = c.max_str_num := by
  induction l generalizing c with
  | nil => rfl
  | cons b l ih => exact ih

@[simp] theorem addBlocks_max_sz : (addBlocks c col l).max_sz = c.max_sz := by
  induction l generalizing c with
  | nil => rfl
  | cons b l ih => exact ih

theorem getChars_eq_nil_iff {rows : List (List UInt8)} : getChars rows = [] ↔ rows = [] := by
  cases rows <;> simp [getChars]

/-- Blocks with no rows leave the counters as they were. -/
theorem addBlocks_of_no_rows (h : ∀ b ∈ l, col b = [] ∧ b.keys = []) :
    (addBlocks c col l).str_num = c.str_num ∧ (addBlocks c col l).sz = c.sz := by
  constructor
  · simp only [addBlocks_str_num, Nat.add_eq_left, List.sum_eq_zero_iff_forall_eq_nat, List.mem_map,
      forall_exists_index, and_imp, forall_apply_eq_imp_iff₂, List.length_eq_zero_iff]
    exact fun b hb => (h b hb).2
  · simp only [addBlocks_sz, Nat.add_eq_left, List.sum_eq_zero_iff_forall_eq_nat, List.mem_map,
      forall_exists_index, and_imp, forall_apply_eq_imp_iff₂, List.length_eq_zero_iff, getChars_eq_nil_iff]
    exact fun b hb => (h b hb).1

theorem hasSpace_of_counters {d : CudaColumnString} (h1 : c.str_num = d.str_num) (h2 : c.sz = d.sz)
    (h3 : c.max_str_num = d.max_str_num) (h4 : c.max_sz = d.max_sz) : c.hasSpace = d.hasSpace := by
  funext a b
  simp [CudaColumnString.hasSpace, h1, h2, h3, h4]

/-- A buffer reads as empty only while every block in it has no rows. -/
theorem no_rows_of_blocksEmpty {keys : CudaColumnString} (h : blocksEmpty keys l = true) : ∀ b ∈ l, hasRows b = false := by
  intro b hb
  by_contra hrows
  have hk : b.keys ≠ [] := by simpa [hasRows] using hrows
  -- the block adds rows and bytes, so neither counter is zero
  have hnum : (l.map fun b => b.keys.length).sum ≠ 0 := by
    simp only [ne_eq, List.sum_eq_zero_iff_forall_eq_nat, List.mem_map, forall_exists_index, and_imp,
      forall_apply_eq_imp_iff₂, not_forall]
    exact ⟨b, hb, by simpa using hk⟩
  have hsz : (l.map fun b => (getChars b.keys).length).sum ≠ 0 := by
    simp only [ne_eq, List.sum_eq_zero_iff_forall_eq_nat, List.mem_map, forall_exists_index, and_imp,
      forall_apply_eq_imp_iff₂, not_forall]
    exact ⟨b, hb, by simpa [getChars_eq_nil_iff] using hk⟩
  simp [blocksEmpty, CudaColumnString.empty] at h
  omega

/-- Every block of a buffer that reads as empty has no rows, nor argument rows. -/
theorem cols_nil_of_blocksEmpty {keys : CudaColumnString} (h : blocksEmpty keys l = true) :
    ∀ b ∈ l, b.vals = [] ∧ b.keys = [] := by
  intro b hb
  have hk : b.keys = [] := by simpa [hasRows] using no_rows_of_blocksEmpty h b hb
  have hv : b.vals.length = 0 := by rw [← b.same_rows, hk]; rfl
  exact ⟨List.eq_nil_of_length_eq_zero hv, hk⟩

/-- `CudaColumnString`'s tests are lawful for buffers that start empty. -/
theorem lawful_blocks (keys vals : CudaColumnString) (is_vals_needed : Bool) (hkeys : keys.empty = true) :
    Lawful (blocksHaveSpace keys vals is_vals_needed) (blocksEmpty keys) where
  empty_nil := by simpa [blocksEmpty, addBlocks] using hkeys
  hasSpace_of_empty l b h := by
    have hnone := cols_nil_of_blocksEmpty h
    obtain ⟨hk1, hk2⟩ := addBlocks_of_no_rows (c := keys) (fun b hb => ⟨(hnone b hb).2, (hnone b hb).2⟩)
    obtain ⟨hv1, hv2⟩ := addBlocks_of_no_rows (c := vals) hnone
    have hkeys' := hasSpace_of_counters (c := addBlocks keys Block.keys l) (d := addBlocks keys Block.keys [])
      (by simpa using hk1) (by simpa using hk2) (by simp) (by simp)
    have hvals' := hasSpace_of_counters (c := addBlocks vals Block.vals l) (d := addBlocks vals Block.vals [])
      (by simpa using hv1) (by simpa using hv2) (by simp) (by simp)
    cases is_vals_needed <;> simp [blocksHaveSpace, hkeys', hvals']

end Buffers

/-! ## The hand-off of `CudaStringsAggregator` -/

/-- With `CudaColumnString`'s buffers, started empty, and blocks that each fit an empty buffer:
    in every state that any interleaving of the producer and the `n` workers reaches, nothing was
    thrown; each block was appended once, in order, to one chunk, and the chunk's worker has passed
    to its table a prefix of those appended to it, the rest being in its buffer; a worker never
    takes a buffer while a copy into it is in flight; a worker has left its loop only once the end
    of data was sent to it; some thread can move until the producer is past its joins; and then
    every worker has left its loop and has passed to its table exactly the blocks with rows that
    were appended to its chunk. -/
theorem hand_off_exactly_once (n : Nat) (hn : 0 < n) (keys vals : CudaColumnString) (is_vals_needed : Bool)
    (hkeys : keys.empty = true) (blocks : List Block)
    (hfit : ∀ b ∈ blocks, blocksHaveSpace keys vals is_vals_needed [] b = true) (s : State Block)
    (hs : Reachable n (blocksHaveSpace keys vals is_vals_needed) (blocksEmpty keys) blocks s) :
    (∀ what, s.phase ≠ .failed what) ∧
    s.log.map Prod.snd ++ s.pending = blocks ∧ (∀ e ∈ s.log, e.1 < n) ∧
    (∀ i < n, (s.chunks i).processed ++ (s.chunks i).buffer = added s i) ∧
    (∀ i s', workerStep n (blocksEmpty keys) s i = some s' → ¬ (s.copying = true ∧ s.curr_filling_chunk = i)) ∧
    (∀ i < n, (s.chunks i).exited = true → s.phase.ended i = true) ∧
    (s.phase ≠ .done → ∃ s', Step n (blocksHaveSpace keys vals is_vals_needed) (blocksEmpty keys) s s') ∧
    (s.phase = .done → s.pending = [] ∧ ∀ i < n, (s.chunks i).exited = true ∧
      (s.chunks i).processed.filter hasRows = (added s i).filter hasRows) := by
  have hi := reachable_inv (lawful_blocks keys vals is_vals_needed hkeys) hfit hn hs
  refine ⟨hi.not_failed, hi.log_pending, hi.log_lt, hi.processed_buffer,
    fun i _ h => hi.no_copy_in_flight_of_workerStep h, fun i hin => hi.ended_of_exited hin, hi.exists_step,
    fun hd => ⟨hi.pending_nil (by simp [hd, Phase.queueing]), fun i hin => ⟨hi.exited_of_done hd hin, ?_⟩⟩⟩
  exact hi.filter_processed_of_done hd hasRows (fun _ h => no_rows_of_blocksEmpty h) hin

/-- A buffer with room for one string of at most eight bytes. -/
def oneStringBuffer : CudaColumnString := ⟨1, 8, 0, 0, 0, fun _ => 0, fun _ => 0, fun _ => 0, [], []⟩

/-- Blocks of one row, with keys `"a"` and `"b"`. -/
def blockA : Block := ⟨[[97]], [[1]], rfl⟩
def blockB : Block := ⟨[[98]], [[1]], rfl⟩

/-- Two chunks: `"a"` fills chunk 0, `"b"` does not fit after it and hands chunk 0 to its worker,
    goes to chunk 1, and `waitProcessed` flushes chunk 1 and ends both workers. -/
def twoBlockTrace : List (Option Nat) :=
  [none, none, none, some 0, none, none, none, none, some 1, none, none, none, some 0, some 1, none, none, none]

theorem hand_off_exactly_once_two_chunks :
    ∃ s, Reachable 2 (blocksHaveSpace oneStringBuffer oneStringBuffer false) (blocksEmpty oneStringBuffer)
      [blockA, blockB] s ∧ s.phase = .done ∧
    ((∀ what, s.phase ≠ .failed what) ∧
    s.log.map Prod.snd ++ s.pending = [blockA, blockB] ∧ (∀ e ∈ s.log, e.1 < 2) ∧
    (∀ i < 2, (s.chunks i).processed ++ (s.chunks i).buffer = added s i) ∧
    (∀ i s', workerStep 2 (blocksEmpty oneStringBuffer) s i = some s' →
      ¬ (s.copying = true ∧ s.curr_filling_chunk = i)) ∧
    (∀ i < 2, (s.chunks i).exited = true → s.phase.ended i = true) ∧
    (s.phase ≠ .done → ∃ s', Step 2 (blocksHaveSpace oneStringBuffer oneStringBuffer false)
      (blocksEmpty oneStringBuffer) s s') ∧
    (s.phase = .done → s.pending = [] ∧ ∀ i < 2, (s.chunks i).exited = true ∧
      (s.chunks i).processed.filter hasRows = (added s i).filter hasRows)) := by
  obtain ⟨s, hs, hd⟩ : ∃ s, Reachable 2 (blocksHaveSpace oneStringBuffer oneStringBuffer false)
      (blocksEmpty oneStringBuffer) [blockA, blockB] s ∧ (s.phase == .done) = true :=
    reach_of_run (t := twoBlockTrace) (by decide)
  exact ⟨s, hs, by simpa using hd,
    hand_off_exactly_once 2 (by decide) oneStringBuffer oneStringBuffer false rfl [blockA, blockB] (by decide) s hs⟩

/-- A block with no rows. -/
def noRowsBlock : Block := ⟨[], [], rfl⟩

/-- The block with no rows is appended to chunk 0; the buffer then reads as empty, so
    `waitProcessed` does not hand it off, sends the end of data on it, and the worker leaves
    without passing the block to its table. -/
def noRowsTrace : List (Option Nat) := [none, none, none, none, none, none, some 0, none, none]

theorem zero_row_block_never_processed :
    ∃ s, Reachable 1 (blocksHaveSpace oneStringBuffer oneStringBuffer false) (blocksEmpty oneStringBuffer)
      [noRowsBlock] s ∧ s.phase = .done ∧ s.pending = [] ∧ (added s 0).length = 1 ∧ (s.chunks 0).processed = [] := by
  obtain ⟨s, hs, h⟩ : ∃ s, Reachable 1 (blocksHaveSpace oneStringBuffer oneStringBuffer false)
      (blocksEmpty oneStringBuffer) [noRowsBlock] s ∧
      (s.phase == .done && s.pending.isEmpty && (added s 0).length == 1 && (s.chunks 0).processed.isEmpty) = true :=
    reach_of_run (t := noRowsTrace) (by decide)
  simp only [Bool.and_eq_true, beq_iff_eq, List.isEmpty_iff] at h
  exact ⟨s, hs, h.1.1.1, h.1.1.2, h.1.2, h.2⟩

end ClickHouseGpu.Cuda.HandOff
