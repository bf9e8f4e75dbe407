import ClickHouseGpu.Lib.Probe
import Mathlib.Data.List.TakeWhile

/-
  ClickHouseGpu.Cuda.HostPinnedMemPool — `CudaHostPinnedMemPool` (Common/Cuda), the
  first-fit free-list allocator behind `DB::Allocator`'s pinned host memory.

  The pool is one region `[m_start_ptr, m_start_ptr + m_totalSize)`. Free blocks form a
  singly linked list kept in address order; `alloc` rounds the size up to a multiple of 16
  (at least 32), takes the first block large enough for it plus the padding that aligns the
  data after a 16-byte `AllocationHeader`, splits off the rest, and writes the header
  (`blockSize = requiredSize`, `padding` a `char`). `free` reads the header back, builds a
  free node at the header's address, threads it in front of the first free block above the
  pointer, and merges it with its neighbours (`coalescence`).

  The free list is a list of nodes, head first; the headers are the memory at their
  addresses. `m_peak` is written and never read, and is left out.

  Proved:
  - `free_without_block_above`: `free` inserts its node only in front of a free block above
    the pointer. When there is none and the last free block does not end at the header, the
    free list is unchanged while `m_used` drops: the block belongs to nobody.
  - `free_loses_last_block`: `init(48)`, `p = alloc(16)`, `free(p)` ends with an empty free
    list and nothing allocated, so the 48 bytes are lost: the free blocks and the live
    allocations no longer add up to the pool.
-/

namespace ClickHouseGpu.Cuda.HostPinnedMemPool

open LinearProbe

/-- `sizeof(AllocationHeader)`: a `size_t` and a `char`, padded. -/
def allocationHeaderSize : Nat := 16

/-- `sizeof(Node)`: a `FreeHeader` and a pointer. -/
def nodeSize : Nat := 16

def CalculatePadding (baseAddress alignment : Nat) : Nat :=
  (baseAddress / alignment + 1) * alignment - baseAddress

def CalculatePaddingWithHeader (baseAddress alignment headerSize : Nat) : Nat :=
  let padding := CalculatePadding baseAddress alignment
  if padding < headerSize then
    let neededSpace := headerSize - padding
    if neededSpace % alignment > 0 then padding + alignment * (1 + neededSpace / alignment)
    else padding + alignment * (neededSpace / alignment)
  else padding

/-- A free-list node: the block's address and its `blockSize`. -/
structure Node where
  addr : Nat
  blockSize : Nat
  deriving DecidableEq, Repr

/-- The value a `char` field gives back (signed, as on x86). -/
def charValue (c : Nat) : Int := if c % 256 < 128 then c % 256 else c % 256 - 256

structure Pool where
  m_totalSize : Nat
  m_used : Nat
  m_start_ptr : Nat
  m_freeList : List Node
  /-- The `AllocationHeader` at an address: its `blockSize` and `padding`. -/
  headers : Nat → Nat × Nat

/-- `init(totalSize)` over the block `cudaMallocHost` returned at `start`; `reset()` makes it
    one free block. -/
def init (start totalSize : Nat) : Pool := ⟨totalSize, 0, start, [⟨start, totalSize⟩], fun _ => (0, 0)⟩

/-- `find`: the first block that holds `size` plus its padding, with its position and padding. -/
def find (size alignment : Nat) : List Node → Nat → Option (Nat × Nat)
  | [], _ => none
  | n :: rest, i =>
    let padding := CalculatePaddingWithHeader n.addr alignment allocationHeaderSize
    if n.blockSize ≥ size + padding then some (i, padding) else find size alignment rest (i + 1)

/-- `alloc(size, alignment)`: the data address and the new pool. -/
def alloc (s : Pool) (size alignment : Nat) : Except String (Nat × Pool) :=
  let size := max size nodeSize
  let size := (size / 16 + 1) * 16
  let alignment := max alignment 16
  match find size alignment s.m_freeList 0 with
  | none => .error ("CudaHostPinnedMemPool::alloc: Not enough memory:" ++ " size = " ++ toString size ++
      " m_used = " ++ toString s.m_used ++ " m_totalSize = " ++ toString s.m_totalSize)
  | some (i, padding) =>
    let node := s.m_freeList.getD i ⟨0, 0⟩
    let alignmentPadding := padding - allocationHeaderSize
    let requiredSize := size + padding
    let rest := node.blockSize - requiredSize
    -- split off the rest after the node, then unlink the node
    let list := if rest > 0 then s.m_freeList.insertIdx (i + 1) ⟨node.addr + requiredSize, rest⟩ else s.m_freeList
    let headerAddress := node.addr + alignmentPadding
    .ok (headerAddress + allocationHeaderSize,
      { s with m_freeList := list.eraseIdx i, m_used := s.m_used + requiredSize,
               headers := upd s.headers headerAddress (requiredSize, alignmentPadding % 256) })

/-- `coalescence(itPrev, freeNode)` after `freeNode` went in between `before` and `after`. -/
def coalescence (before : List Node) (freeNode : Node) (after : List Node) : List Node :=
  let (fn, after') :=
    match after with
    | nx :: rest => if freeNode.addr + freeNode.blockSize = nx.addr
        then (({ freeNode with blockSize := freeNode.blockSize + nx.blockSize } : Node), rest)
        else (freeNode, nx :: rest)
    | [] => (freeNode, [])
  match before.getLast? with
  | some pv =>
    if pv.addr + pv.blockSize = fn.addr then before.dropLast ++ ({ pv with blockSize := pv.blockSize + fn.blockSize } :: after')
    else before ++ fn :: after'
  | none => fn :: after'

/-- `free(ptr)`. -/
def free (s : Pool) (ptr : Nat) : Pool :=
  let headerAddress := ptr - allocationHeaderSize
  let header := s.headers headerAddress
  let freeNode : Node := ⟨headerAddress, (Int.ofNat header.1 + charValue header.2).toNat⟩
  -- the loop stops at the first free block above `ptr`
  let before := s.m_freeList.takeWhile (fun n => !decide (ptr < n.addr))
  let after := s.m_freeList.dropWhile (fun n => !decide (ptr < n.addr))
  let list :=
    if after = [] then
      -- never inserted: only the merge into the last block can keep it
      match before.getLast? with
      | some pv =>
        if pv.addr + pv.blockSize = freeNode.addr then before.dropLast ++ [{ pv with blockSize := pv.blockSize + freeNode.blockSize }]
        else before
      | none => before
    else coalescence before freeNode after
  { s with m_freeList := list, m_used := (s.m_used + 2 ^ 64 - freeNode.blockSize) % 2 ^ 64 }

/-- `realloc(buf, old_size, new_size, alignment)`. -/
def realloc (s : Pool) (buf old_size new_size alignment : Nat) : Except String (Nat × Pool) :=
  if old_size = new_size then .ok (buf, s)
  else
    match alloc s new_size alignment with
    | .error e => .error e
    | .ok (new_buf, t) => .ok (new_buf, free t buf)

/-! ## A freed block with no free block above it -/

/-- When every free block lies at or below `ptr` and the last one does not end at the
    header, `free` leaves the free list as it was. -/
theorem free_without_block_above (s : Pool) (ptr : Nat) (habove : ∀ n ∈ s.m_freeList, ¬ ptr < n.addr)
    (hlast : ∀ pv, s.m_freeList.getLast? = some pv → pv.addr + pv.blockSize ≠ ptr - allocationHeaderSize) :
    (free s ptr).m_freeList = s.m_freeList := by
  have hall : ∀ n ∈ s.m_freeList, (!decide (ptr < n.addr)) = true := fun n hn => by simpa using habove n hn
  simp only [free, List.takeWhile_eq_self_iff.mpr hall, List.dropWhile_eq_nil_iff.mpr hall, if_true]
  cases h : s.m_freeList.getLast? with
  | none => rfl
  | some pv => simp only; rw [if_neg (hlast pv h)]

/-- `init(48)` at address 4096, `p = alloc(16)` takes the whole pool, `free(p)` gives back
    an empty free list and `m_used = 0`. -/
theorem free_loses_last_block :
    (alloc (init 4096 48) 16 8).map (fun r => (r.1, (free r.2 r.1).m_freeList, (free r.2 r.1).m_used)) =
      .ok (4112, [], 0) := by
  rfl

end ClickHouseGpu.Cuda.HostPinnedMemPool
