import ClickHouseGpu.Lib.KMerge
import Mathlib.Data.List.Sort

/-
  ClickHouseGpu.DataStreams.MergingSorted — `MergingSortedBlockInputStream`, the merge of sorted
  streams of blocks (`DataStreams/MergingSortedBlockInputStream.cpp`, `Core/SortCursor.h`), and the
  byte `RowSourcePart` it writes for each row to `out_row_sources_buf`
  (`DataStreams/ColumnGathererStream.h`).

  A row is a value of `ρ`; the sort description is a key `ρ → κ` into a linear order (the
  comparison of the sort columns, directions included). An input is the list of the blocks its
  `read()` gives, none of them empty. A `SortCursorImpl` holds its block and its position, and
  the priority queue is kept as the list of its cursors in the order it pops them: the source
  number breaks every tie between cursors, so the order of the pops is that of the queue
  whatever its layout. The merge's two loops, `merge` and the loop on the current cursor, are
  `mergeLoop` and `mergeCurrent`; each gets one pass per row left, and every pass emits a row or
  returns.

  Proved: `limit_exceeded_after_whole_block`: with `limit > 0`, a block taken whole that ends
  exactly at the limit leaves the stream running, and it gives more rows than the limit.
-/

namespace ClickHouseGpu.DataStreams

open KMerge

/-! ## `RowSourcePart` -/

/-- `RowSourcePart`: the number of a row's source part in the low seven bits, and in the high
    bit the flag "skip this row". -/
structure RowSourcePart where
  data : UInt8
  deriving DecidableEq, Repr

namespace RowSourcePart

def MASK_NUMBER : UInt8 := 0x7F

def MASK_FLAG : UInt8 := 0x80

def MAX_PARTS : Nat := 0x7F

def getSourceNum (r : RowSourcePart) : Nat := (r.data &&& MASK_NUMBER).toNat

def getSkipFlag (r : RowSourcePart) : Bool := (r.data &&& MASK_FLAG) != 0

def setSourceNum (r : RowSourcePart) (source_num : Nat) : RowSourcePart :=
  ⟨(r.data &&& MASK_FLAG) ||| (source_num.toUInt8 &&& MASK_NUMBER)⟩

def setSkipFlag (r : RowSourcePart) (flag : Bool) : RowSourcePart :=
  ⟨if flag then r.data ||| MASK_FLAG else r.data &&& ~~~MASK_FLAG⟩

/-- `RowSourcePart(source_num, skip_flag)`. -/
def ofSource (source_num : Nat) (skip_flag : Bool) : RowSourcePart :=
  (setSourceNum ⟨0⟩ source_num).setSkipFlag skip_flag

theorem getSourceNum_setSkipFlag (r : RowSourcePart) (flag : Bool) :
    (r.setSkipFlag flag).getSourceNum = r.getSourceNum := by
  obtain ⟨⟨b⟩⟩ := r
  cases flag <;> revert b <;> decide

theorem getSkipFlag_setSkipFlag (r : RowSourcePart) (flag : Bool) : (r.setSkipFlag flag).getSkipFlag = flag := by
  obtain ⟨⟨b⟩⟩ := r
  cases flag <;> revert b <;> decide

theorem getSourceNum_ofSource {source_num : Nat} (h : source_num < 128) (skip_flag : Bool) :
    (ofSource source_num skip_flag).getSourceNum = source_num := by
  rw [ofSource, getSourceNum_setSkipFlag]
  have hmod : source_num.toUInt8.toNat = source_num := UInt8.toNat_ofNat_of_lt' (Nat.lt_trans h (by decide))
  -- masking a number below 128 leaves it as it is
  have hmask : ∀ u : UInt8, u.toNat < 128 → ((0 &&& MASK_FLAG ||| u &&& MASK_NUMBER) &&& MASK_NUMBER).toNat = u.toNat := by
    rintro ⟨b⟩
    revert b
    decide
  simp only [getSourceNum, setSourceNum]
  rw [hmask _ (by rw [hmod]; exact h), hmod]

theorem getSkipFlag_ofSource (source_num : Nat) (skip_flag : Bool) :
    (ofSource source_num skip_flag).getSkipFlag = skip_flag :=
  getSkipFlag_setSkipFlag _ _

/-- The flag set last is the one that stays. -/
theorem setSkipFlag_setSkipFlag (r : RowSourcePart) (flag flag' : Bool) :
    (r.setSkipFlag flag).setSkipFlag flag' = r.setSkipFlag flag' := by
  obtain ⟨⟨b⟩⟩ := r
  cases flag <;> cases flag' <;> revert b <;> decide

theorem ofSource_setSkipFlag (source_num : Nat) (skip_flag flag : Bool) :
    (ofSource source_num skip_flag).setSkipFlag flag = ofSource source_num flag :=
  setSkipFlag_setSkipFlag _ _ _

end RowSourcePart

/-! ## `SortCursor` -/

/-- `SortCursorImpl` on a block: the block's rows, the position of the cursor, which stands on a
    row of the block, and the number of the source (`order`). -/
structure SortCursorImpl (ρ : Type) where
  rows : List ρ
  pos : Nat
  order : Nat
  pos_lt : pos < rows.length

namespace SortCursorImpl

variable {ρ : Type}

/-- A cursor at the first row of a block that has rows (`SortCursorImpl(block, desc, order)`,
    and `reset`). -/
def ofBlock (block : List ρ) (order : Nat) (h : block ≠ []) : SortCursorImpl ρ :=
  ⟨block, 0, order, List.length_pos_of_ne_nil h⟩

def isFirst (c : SortCursorImpl ρ) : Bool := c.pos == 0

def isLast (c : SortCursorImpl ρ) : Bool := c.rows.length ≤ c.pos + 1

def next (c : SortCursorImpl ρ) (h : c.isLast = false) : SortCursorImpl ρ :=
  ⟨c.rows, c.pos + 1, c.order, by simp only [isLast, decide_eq_false_iff_not] at h; omega⟩

/-- The row under the cursor. -/
def row (c : SortCursorImpl ρ) : ρ := c.rows.get ⟨c.pos, c.pos_lt⟩

theorem rows_ne_nil (c : SortCursorImpl ρ) : c.rows ≠ [] :=
  List.ne_nil_of_length_pos (Nat.lt_of_le_of_lt (Nat.zero_le _) c.pos_lt)

/-- The first row of the block. -/
def firstRow (c : SortCursorImpl ρ) : ρ := c.rows.head c.rows_ne_nil

/-- The last row of the block. -/
def lastRow (c : SortCursorImpl ρ) : ρ := c.rows.getLast c.rows_ne_nil

end SortCursorImpl

variable {ρ κ : Type} [LinearOrder κ]

/-- `SortCursor::greaterAt`: the row `x` of cursor `c` is greater than the row `y` of cursor `d`,
    by the sort key and then by the source number. -/
def greaterAt (key : ρ → κ) (c d : SortCursorImpl ρ) (x y : ρ) : Bool :=
  decide (key y < key x) || (decide (key x = key y) && decide (d.order < c.order))

/-- `SortCursor::greater`. -/
def greater (key : ρ → κ) (c d : SortCursorImpl ρ) : Bool := greaterAt key c d c.row d.row

/-- `SortCursor::totallyLessOrEquals`: the last row of `c`'s block is not greater than the first
    row of `d`'s block. -/
def totallyLessOrEquals (key : ρ → κ) (c d : SortCursorImpl ρ) : Bool :=
  !greaterAt key c d c.lastRow d.firstRow

/-- The order of the priority queue: `a` is not greater than `b`, so it pops first. -/
def PopsBefore (key : ρ → κ) (a b : SortCursorImpl ρ) : Prop := greater key a b = false

instance (key : ρ → κ) : DecidableRel (PopsBefore key) := fun a b =>
  inferInstanceAs (Decidable (greater key a b = false))

/-- `queue.push`: the cursor goes before the first cursor it is not greater than. -/
def push (key : ρ → κ) (queue : List (SortCursorImpl ρ)) (c : SortCursorImpl ρ) : List (SortCursorImpl ρ) :=
  queue.orderedInsert (PopsBefore key) c

/-! ## The stream -/

/-- The arguments of `MergingSortedBlockInputStream`. -/
structure Params (ρ κ : Type) where
  /-- The sort description. -/
  key : ρ → κ
  max_block_size : Nat
  limit : Nat
  /-- Whether `out_row_sources_buf` is given. -/
  out_row_sources : Bool

/-- The state of the stream. -/
structure State (ρ : Type) where
  /-- For each input, the blocks its `read()` has still to give. -/
  children : List (List (List ρ))
  /-- For each input, the block it gave last (`[]`: the empty block). -/
  source_blocks : List (List ρ)
  queue : List (SortCursorImpl ρ)
  first : Bool
  finished : Bool
  total_merged_rows : Nat
  /-- What `out_row_sources_buf` holds. -/
  row_sources : List RowSourcePart
  is_cancelled : Bool

namespace State

/-- The stream on its inputs, before the first `read()`. -/
def create (inputs : List (List (List ρ))) : State ρ :=
  ⟨inputs, inputs.map fun _ => [], [], true, false, 0, [], false⟩

/-- `children[i]->read()`: the next block of input `i`, the empty block when it has none. -/
def readChild (s : State ρ) (i : Nat) : List ρ × State ρ :=
  ((s.children.getD i []).headD [], { s with children := s.children.modify i List.tail })

/-- At most as many passes as rows are left in the queue's blocks and in the inputs. -/
def rowsLeft (s : State ρ) : Nat :=
  (s.queue.map fun c => c.rows.length).sum + (s.children.map fun bs => bs.flatten.length).sum

/-- `write(row_source.data)` when `out_row_sources_buf` is given. -/
def writeRowSources (out_row_sources : Bool) (s : State ρ) (r : List RowSourcePart) : State ρ :=
  if out_row_sources then { s with row_sources := s.row_sources ++ r } else s

end State

section Stream

variable (p : Params ρ κ)

/-- Reading the next block of source `i` into `source_blocks[i]`, and a cursor on it pushed when
    it has rows: `fetchNextBlock` for the current cursor's source, and `init`'s first pass for
    each source. -/
def openSource (i : Nat) (s : State ρ) : State ρ :=
  let (block, s) := s.readChild i
  let s := { s with source_blocks := s.source_blocks.set i block }
  if h : block = [] then s else { s with queue := push p.key s.queue (SortCursorImpl.ofBlock block i h) }

/-- `fetchNextBlock(current, queue)`. -/
def fetchNextBlock (current : SortCursorImpl ρ) (s : State ρ) : State ρ := openSource p current.order s

/-- `init`: on the first call the first block of every input and the queue of their cursors; and
    whether some source block has columns to clone the header from (else `merged_columns` stays
    empty). -/
def init (s : State ρ) : State ρ × Bool :=
  let s := if s.first then
      (List.range s.children.length).foldl (fun s i => openSource p i s) { s with first := false }
    else s
  (s, s.source_blocks.any fun b => !b.isEmpty)

/-- `count_row_and_check_limit`: whether the block is to be returned, after counting a row. -/
def countRow (s : State ρ) (merged_rows : Nat) : Bool × State ρ × Nat :=
  let s := { s with total_merged_rows := s.total_merged_rows + 1 }
  if p.limit != 0 && s.total_merged_rows == p.limit then
    (true, { s with is_cancelled := true, finished := true }, merged_rows)
  else (merged_rows + 1 == p.max_block_size, s, merged_rows + 1)

/-- How the loop on the current cursor ends: `return` from `merge`, or `break` to the outer
    loop. -/
inductive Exit
  | ret
  | brk

/-- The loop on the current cursor `current`, popped from the queue: its whole block when the
    block comes before everything in the queue, else its row, and the next rows while the cursor
    stays on top. -/
def mergeCurrent : Nat → SortCursorImpl ρ → State ρ → List ρ → Nat → Exit × State ρ × List ρ × Nat
  | 0, _, s, merged, merged_rows => (.ret, s, merged, merged_rows)
  | fuel + 1, current, s, merged, merged_rows =>
    let onTop := match s.queue with
      | [] => true
      | top :: _ => totallyLessOrEquals p.key current top
    if current.isFirst && onTop then
      if merged_rows != 0 then
        -- return the rows so far; the block is taken on the next call
        (.ret, { s with queue := push p.key s.queue current }, merged, merged_rows)
      else
        let source_num := current.order
        let block := current.rows
        let (block, s) :=
          if p.limit != 0 && s.total_merged_rows + block.length > p.limit then
            (block.take (p.limit - s.total_merged_rows), { s with is_cancelled := true, finished := true })
          else (block, s)
        let s := s.writeRowSources p.out_row_sources (List.replicate block.length (.ofSource source_num false))
        let s := { s with total_merged_rows := s.total_merged_rows + block.length }
        (.ret, fetchNextBlock p current s, block, merged_rows)
    else
      let merged := merged ++ [current.row]
      let s := s.writeRowSources p.out_row_sources [.ofSource current.order false]
      if h : current.isLast = false then
        let current := current.next h
        let stays := match s.queue with
          | [] => true
          | top :: _ => !greater p.key current top
        if stays then
          match countRow p s merged_rows with
          | (true, s, merged_rows) => (.ret, { s with queue := push p.key s.queue current }, merged, merged_rows)
          | (false, s, merged_rows) => mergeCurrent fuel current s merged merged_rows
        else (.brk, { s with queue := push p.key s.queue current }, merged, merged_rows)
      else (.brk, fetchNextBlock p current s, merged, merged_rows)

/-- `merge`: pop the top cursor and run the loop on it, until the block is to be returned or the
    queue is empty. -/
def mergeLoop : Nat → State ρ → List ρ → Nat → State ρ × List ρ
  | 0, s, merged, _ => (s, merged)
  | fuel + 1, s, merged, merged_rows =>
    match s.queue with
    | [] => ({ s with is_cancelled := true, finished := true }, merged)
    | current :: rest =>
      match mergeCurrent p current.rows.length current { s with queue := rest } merged merged_rows with
      | (.ret, s, merged, _) => (s, merged)
      | (.brk, s, merged, merged_rows) =>
        match countRow p s merged_rows with
        | (true, s, _) => (s, merged)
        | (false, s, merged_rows) => mergeLoop fuel s merged merged_rows

/-- `readImpl`: the next block, or `none` for the empty block that ends the stream. -/
def readImpl (s : State ρ) : Option (List ρ) × State ρ :=
  if s.finished then (none, s)
  else if s.children.length = 1 then
    -- a single input is passed through
    let (block, s) := s.readChild 0
    (if block.isEmpty then none else some block, s)
  else
    let (s, has_header) := init p s
    if !has_header then (none, s)
    else
      let (s, merged) := mergeLoop p (s.rowsLeft + 1) s [] 0
      (some merged, s)

/-- `IProfilingBlockInputStream::read`: nothing once the stream is cancelled, and the stream
    cancelled when it ends. -/
def read (s : State ρ) : Option (List ρ) × State ρ :=
  if s.is_cancelled then (none, s)
  else
    match readImpl p s with
    | (none, s) => (none, { s with is_cancelled := true })
    | (some block, s) => (some block, s)

/-- The rows of the blocks of `n` reads, or of the reads up to the end of the stream. -/
def readAll : Nat → State ρ → List ρ × State ρ
  | 0, s => ([], s)
  | n + 1, s =>
    match read p s with
    | (none, s) => ([], s)
    | (some block, s) =>
      let (rest, s) := readAll n s
      (block ++ rest, s)

end Stream

/-- With `limit = 1`, the inputs `[1 | 5]` and `[2, 6]` (blocks cut at `|`): the block `[1]` comes
    before everything in the queue and is taken whole; it ends exactly at the limit, which only a
    block longer than what is left of the limit cuts, so the stream is neither finished nor
    cancelled, and it gives all four rows. -/
theorem limit_exceeded_after_whole_block :
    (readAll (⟨id, 8192, 1, true⟩ : Params Nat Nat) 10 (State.create [[[1], [5]], [[2, 6]]])).1 = [1, 2, 5, 6] := by
  decide

end ClickHouseGpu.DataStreams
