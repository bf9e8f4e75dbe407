import Mathlib.Data.List.Basic
import Mathlib.Data.List.TakeWhile

/-
  ChunkedStream — a byte stream read through a buffer that is refilled one chunk at a time.

  The reader sees the rest of the current chunk (`working`) and asks for the next chunk when
  it has used it up (`next`); the chunks still to come are `chunks`, none of them empty (a
  refill that succeeds gives data). What a read returns depends only on the bytes left,
  `bytes = working ++ chunks.flatten`, and never on where the chunks are cut.

  Proved:
  - `eof_eq`, `bytes_eof`: `eof` is true exactly when no byte is left, and moves no byte.
  - `readByte_of_cons`, `readByte_of_nil`: the next byte and the bytes after it.
  - `read_eq`: `read n` gives the first `n` bytes (fewer at the end) and leaves the rest.
  - `bytes_scan`, `scan_working`: a search to the end of the working buffer copies the bytes
    before the cursor and moves no other byte; the cursor stands on a byte it stops at, or at the
    end of the buffer.
-/

namespace ChunkedStream

/-- A stream: the unread part of the current chunk and the chunks after it. -/
structure Stream where
  working : List UInt8
  chunks : List (List UInt8)
  chunks_ne : ∀ c ∈ chunks, c ≠ []

namespace Stream

/-- The bytes left to read. -/
def bytes (s : Stream) : List UInt8 := s.working ++ s.chunks.flatten

/-- A stream of the given chunks, the first of them current. -/
def ofChunks (cs : List (List UInt8)) (h : ∀ c ∈ cs, c ≠ []) : Stream := ⟨[], cs, h⟩

/-- `next`: the next chunk becomes the working buffer; `false`, and an empty buffer, when none
    is left. -/
def next (s : Stream) : Bool × Stream :=
  match hc : s.chunks with
  | [] => (false, ⟨[], [], by simp⟩)
  | c :: cs => (true, ⟨c, cs, fun d hd => s.chunks_ne d (by rw [hc]; exact List.mem_cons_of_mem c hd)⟩)

/-- `eof`: nothing left in the working buffer and nothing from `next`. -/
def eof (s : Stream) : Bool × Stream :=
  if s.working = [] then
    let (res, s) := s.next
    (!res, s)
  else (false, s)

/-- The next byte (`*pos`, then `++pos`) after `eof` said there is one; `none` at the end. -/
def readByte (s : Stream) : Option (UInt8 × Stream) :=
  let (e, s) := s.eof
  if e then none
  else
    match s.working with
    | b :: w => some (b, { s with working := w })
    | [] => none

/-- `read(to, n)`: up to `n` bytes, fewer when the stream ends first. -/
def read : Nat → Stream → List UInt8 × Stream
  | 0, s => ([], s)
  | n + 1, s =>
    match s.readByte with
    | none => ([], s)
    | some (b, s') =>
      let (bs, s'') := read n s'
      (b :: bs, s'')

/-- A search from the cursor to the end of the working buffer (`find_first_symbols`), and the
    cursor moved to what it found: the bytes before the first one where `stop` holds, and the
    stream from there. -/
def scan (s : Stream) (stop : UInt8 → Bool) : List UInt8 × Stream :=
  (s.working.takeWhile (fun b => !stop b), { s with working := s.working.dropWhile (fun b => !stop b) })

/-- `++position()`: the cursor past the byte under it. -/
def skip (s : Stream) : Stream := { s with working := s.working.tail }

/-! ## Reads depend on the bytes left -/

@[simp] theorem bytes_mk (w : List UInt8) (cs : List (List UInt8)) (h : ∀ c ∈ cs, c ≠ []) :
    (⟨w, cs, h⟩ : Stream).bytes = w ++ cs.flatten := rfl

/-- `next` after the working buffer is used up moves no byte. -/
theorem bytes_next_of_nil {s : Stream} (hw : s.working = []) : s.next.2.bytes = s.bytes := by
  rcases s with ⟨w, _ | ⟨c, cs⟩, h⟩
  · simp [next, show w = [] from hw]
  · simp [next, show w = [] from hw]

theorem eof_eq (s : Stream) : s.eof.1 = s.bytes.isEmpty := by
  rcases s with ⟨_ | ⟨b, w⟩, _ | ⟨c, cs⟩, h⟩
  · simp [eof, next]
  · -- a waiting chunk is never empty
    have hc : c ≠ [] := h c List.mem_cons_self
    simp [eof, next, hc]
  · simp [eof]
  · simp [eof]

@[simp] theorem bytes_eof (s : Stream) : s.eof.2.bytes = s.bytes := by
  unfold eof
  split
  · rename_i hw
    exact bytes_next_of_nil hw
  · rfl

/-- When a byte is left, `eof` leaves it first in the working buffer. -/
theorem eof_working {s : Stream} {b : UInt8} {l : List UInt8} (h : s.bytes = b :: l) :
    ∃ w, s.eof = (false, { s.eof.2 with working := b :: w }) ∧ s.eof.2.working = b :: w := by
  have he : s.eof.1 = false := by rw [eof_eq, h]; rfl
  rcases s with ⟨_ | ⟨b', w⟩, _ | ⟨c, cs⟩, hc⟩
  · simp [bytes] at h
  · obtain ⟨b'', w', rfl⟩ := List.exists_cons_of_ne_nil (hc c List.mem_cons_self)
    simp only [bytes, List.nil_append, List.flatten_cons, List.cons_append, List.cons.injEq] at h
    obtain ⟨rfl, -⟩ := h
    exact ⟨w', by simp [eof, next], by simp [eof, next]⟩
  · simp only [bytes, List.flatten_nil, List.append_nil, List.cons.injEq] at h
    obtain ⟨rfl, -⟩ := h
    exact ⟨w, by simp [eof], by simp [eof]⟩
  · simp only [bytes, List.cons_append, List.cons.injEq] at h
    obtain ⟨rfl, -⟩ := h
    exact ⟨w, by simp [eof], by simp [eof]⟩

theorem readByte_of_cons {s : Stream} {b : UInt8} {l : List UInt8} (h : s.bytes = b :: l) :
    ∃ s', s.readByte = some (b, s') ∧ s'.bytes = l := by
  obtain ⟨w, he, hw⟩ := eof_working h
  have hb : s.eof.2.bytes = b :: w ++ s.eof.2.chunks.flatten := by rw [bytes, hw]
  rw [bytes_eof, h] at hb
  refine ⟨{ s.eof.2 with working := w }, ?_, ?_⟩
  · unfold readByte
    rw [he]
    simp
  · simp only [List.cons_append, List.cons.injEq] at hb
    exact hb.2.symm

theorem readByte_of_nil {s : Stream} (h : s.bytes = []) : s.readByte = none := by
  have he : s.eof.1 = true := by rw [eof_eq, h]; rfl
  unfold readByte
  simp [he]

/-- `read n` is the first `n` bytes left, and leaves the rest. -/
theorem read_eq (n : Nat) (s : Stream) : (s.read n).1 = s.bytes.take n ∧ (s.read n).2.bytes = s.bytes.drop n := by
  induction n generalizing s with
  | zero => simp [read]
  | succ n ih =>
    cases hb : s.bytes with
    | nil => simp [read, readByte_of_nil hb, hb]
    | cons b l =>
      obtain ⟨s', hs', hl⟩ := readByte_of_cons hb
      simp only [read, hs', List.take_succ_cons, List.drop_succ_cons, List.cons.injEq, true_and]
      rw [← hl]
      exact ih s'

/-- `eof` says there is a byte left exactly when there is one, and leaves it in the working
    buffer. -/
theorem eof_of_ne_nil {s : Stream} (h : s.bytes ≠ []) : s.eof = (false, s.eof.2) ∧ s.eof.2.working ≠ [] := by
  obtain ⟨b, l, hbl⟩ := List.exists_cons_of_ne_nil h
  obtain ⟨w, -, hw⟩ := eof_working hbl
  have he : s.eof.1 = false := by rw [eof_eq, hbl]; rfl
  exact ⟨Prod.ext he rfl, by simp [hw]⟩

theorem eof_of_nil {s : Stream} (h : s.bytes = []) : s.eof = (true, s.eof.2) := by
  have he : s.eof.1 = true := by rw [eof_eq, h]; rfl
  exact Prod.ext he rfl

theorem bytes_scan (s : Stream) (stop : UInt8 → Bool) : (s.scan stop).1 ++ (s.scan stop).2.bytes = s.bytes := by
  simp only [scan, bytes, ← List.append_assoc, List.takeWhile_append_dropWhile]

theorem stop_of_mem_scan {s : Stream} {stop : UInt8 → Bool} {b : UInt8} (h : b ∈ (s.scan stop).1) :
    stop b = false := by
  simpa using List.mem_takeWhile_imp h

/-- After a search the cursor stands at the end of the working buffer, which was then copied
    whole, or on a byte where `stop` holds. -/
theorem scan_working (s : Stream) (stop : UInt8 → Bool) :
    ((s.scan stop).2.working = [] ∧ (s.scan stop).1 = s.working) ∨
      ∃ c w, (s.scan stop).2.working = c :: w ∧ stop c = true := by
  cases h : s.working.dropWhile (fun b => !stop b) with
  | nil =>
    refine .inl ⟨by simp [scan, h], ?_⟩
    have hs := List.takeWhile_append_dropWhile (p := fun b => !stop b) (l := s.working)
    rw [h, List.append_nil] at hs
    exact hs
  | cons c w =>
    have hc := List.head_dropWhile_not (fun b => !stop b) (l := s.working) (by simp [h])
    simp only [h, List.head_cons, Bool.not_eq_false'] at hc
    exact .inr ⟨c, w, by simp [scan, h], hc⟩

theorem bytes_skip {s : Stream} {c : UInt8} {w : List UInt8} (h : s.working = c :: w) :
    s.bytes = c :: s.skip.bytes := by
  simp [bytes, skip, h]

/-- Past the byte under the cursor, `eof` finds the byte after it and leaves it first in the
    working buffer. -/
theorem eof_skip {s : Stream} {c e : UInt8} {w l : List UInt8} (hw : s.working = c :: w) (hb : s.bytes = c :: e :: l) :
    ∃ w', s.skip.eof = (false, s.skip.eof.2) ∧ s.skip.eof.2.working = e :: w' ∧ s.skip.eof.2.skip.bytes = l := by
  have hskip : s.skip.bytes = e :: l := by
    have h := bytes_skip hw
    rw [hb] at h
    exact (List.cons.inj h).2.symm
  obtain ⟨w', -, hw'⟩ := eof_working hskip
  refine ⟨w', (eof_of_ne_nil (by simp [hskip])).1, hw', ?_⟩
  have h := bytes_skip hw'
  rw [bytes_eof, hskip] at h
  exact (List.cons.inj h).2.symm

end Stream

end ChunkedStream
