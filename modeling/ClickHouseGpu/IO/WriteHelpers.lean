import ClickHouseGpu.Lib.EscapeCode

/-
  ClickHouseGpu.IO.WriteHelpers — the text writers of strings of `IO/WriteHelpers.h`:
  `writeAnyEscapedString<c>`, the quoted strings built on it, and `writeCSVString<quote>`.

  A string is its bytes, and a writer's result is the bytes it writes to the buffer. Each writer
  looks for the next byte it treats (`find_first_symbols`), writes the run before it as it is,
  and then that byte's escape. Written one byte at a time the same bytes come out
  (`writeAnyEscapedString_eq`, `writeCSVString_eq`): an escape code in the sense of
  `EscapeCode`, which the readers of `ClickHouseGpu.IO.ReadHelpers` undo.
-/

namespace ClickHouseGpu.IO

/-- The byte of an ASCII character. -/
def byte (c : Char) : UInt8 := c.toUInt8

/-- The quote of `writeQuotedString`, the single quote. -/
def singleQuote : UInt8 := 39

/-- The quote of `writeDoubleQuotedString` and of CSV. -/
def doubleQuote : UInt8 := 34

/-- The quote of `writeBackQuotedString`, the backquote. -/
def backQuote : UInt8 := 96

/-! ## `writeAnyEscapedString<c>` -/

/-- The bytes `writeAnyEscapedString<c>` stops at:
    `find_first_symbols<'\b', '\f', '\n', '\r', '\t', '\0', '\\', c>`. -/
def isEscapedSymbol (c b : UInt8) : Bool :=
  b == byte '\x08' || b == byte '\x0c' || b == byte '\n' || b == byte '\r' || b == byte '\t' ||
    b == byte '\x00' || b == byte '\\' || b == c

/-- The `switch` of `writeAnyEscapedString<c>` on the byte it stopped at. -/
def escapeSymbol (c b : UInt8) : List UInt8 :=
  if b = byte '\x08' then [byte '\\', byte 'b']
  else if b = byte '\x0c' then [byte '\\', byte 'f']
  else if b = byte '\n' then [byte '\\', byte 'n']
  else if b = byte '\r' then [byte '\\', byte 'r']
  else if b = byte '\t' then [byte '\\', byte 't']
  else if b = byte '\x00' then [byte '\\', byte '0']
  else if b = byte '\\' then [byte '\\', byte '\\']
  else if b = c then [byte '\\', c]
  else [b]

/-- `writeAnyEscapedString<c>`: the run up to the next byte it stops at, then that byte's
    escape, until the end. -/
def writeAnyEscapedString (c : UInt8) (s : List UInt8) : List UInt8 :=
  match _hdrop : s.dropWhile (fun b => !isEscapedSymbol c b) with
  | [] => s.takeWhile (fun b => !isEscapedSymbol c b)
  | b :: rest => s.takeWhile (fun b => !isEscapedSymbol c b) ++ escapeSymbol c b ++ writeAnyEscapedString c rest
termination_by s.length
decreasing_by
  have hle := List.length_dropWhile_le (fun b => !isEscapedSymbol c b) s
  rw [_hdrop, List.length_cons] at hle
  omega

/-- `writeEscapedString`, the escaping of the TSV format. -/
def writeEscapedString (s : List UInt8) : List UInt8 := writeAnyEscapedString singleQuote s

/-- `writeAnyQuotedString<c>`. -/
def writeAnyQuotedString (c : UInt8) (s : List UInt8) : List UInt8 := [c] ++ writeAnyEscapedString c s ++ [c]

def writeQuotedString (s : List UInt8) : List UInt8 := writeAnyQuotedString singleQuote s

def writeDoubleQuotedString (s : List UInt8) : List UInt8 := writeAnyQuotedString doubleQuote s

def writeBackQuotedString (s : List UInt8) : List UInt8 := writeAnyQuotedString backQuote s

/-- What `writeAnyEscapedString<c>` writes for one byte. -/
def escapeByte (c b : UInt8) : List UInt8 := if isEscapedSymbol c b then escapeSymbol c b else [b]

/-- Bytes that are written as they are. -/
theorem flatMap_of_forall_eq {f : UInt8 → List UInt8} {l : List UInt8} (h : ∀ b ∈ l, f b = [b]) :
    l.flatMap f = l := by
  induction l with
  | nil => rfl
  | cons b l ih =>
    rw [List.flatMap_cons, h b List.mem_cons_self, ih (fun x hx => h x (List.mem_cons_of_mem _ hx))]
    rfl

/-- The writer writes the bytes one at a time. -/
theorem writeAnyEscapedString_eq (c : UInt8) (s : List UInt8) :
    writeAnyEscapedString c s = s.flatMap (escapeByte c) := by
  fun_induction writeAnyEscapedString c s with
  | case1 s h =>
    have hs := List.takeWhile_append_dropWhile (p := fun b => !isEscapedSymbol c b) (l := s)
    rw [h, List.append_nil] at hs
    rw [hs]
    -- no byte of the run is escaped
    refine (flatMap_of_forall_eq fun b hb => ?_).symm
    have hplain := List.mem_takeWhile_imp (hs ▸ hb)
    simp only [Bool.not_eq_eq_eq_not, Bool.not_true] at hplain
    simp [escapeByte, hplain]
  | case2 s b rest h ih =>
    have hs := List.takeWhile_append_dropWhile (p := fun b => !isEscapedSymbol c b) (l := s)
    rw [h] at hs
    have hb : isEscapedSymbol c b = true := by
      have := List.head_dropWhile_not (fun b => !isEscapedSymbol c b) (l := s) (by simp [h])
      simpa [h] using this
    have hrun : (s.takeWhile (fun b => !isEscapedSymbol c b)).flatMap (escapeByte c) =
        s.takeWhile (fun b => !isEscapedSymbol c b) := flatMap_of_forall_eq fun x hx => by
      have hplain := List.mem_takeWhile_imp hx
      simp only [Bool.not_eq_eq_eq_not, Bool.not_true] at hplain
      simp [escapeByte, hplain]
    conv => rhs; rw [← hs]
    rw [List.flatMap_append, hrun, List.flatMap_cons, ih, escapeByte, if_pos hb, List.append_assoc]

/-! ## `writeCSVString<quote>` -/

/-- The loop of `writeCSVString<quote>`: the run up to and with the next quote, and one more
    quote, until the end. -/
def writeCSVStringBody (quote : UInt8) (s : List UInt8) : List UInt8 :=
  match _hdrop : s.dropWhile (· != quote) with
  | [] => s.takeWhile (· != quote)
  | b :: rest => s.takeWhile (· != quote) ++ [b] ++ [quote] ++ writeCSVStringBody quote rest
termination_by s.length
decreasing_by
  have hle := List.length_dropWhile_le (· != quote) s
  rw [_hdrop, List.length_cons] at hle
  omega

/-- `writeCSVString<quote>`: the string in quotes, a quote inside it doubled. -/
def writeCSVString (quote : UInt8) (s : List UInt8) : List UInt8 := [quote] ++ writeCSVStringBody quote s ++ [quote]

/-- What `writeCSVString<quote>` writes for one byte. -/
def csvByte (quote b : UInt8) : List UInt8 := if b = quote then [quote, quote] else [b]

theorem writeCSVStringBody_eq (quote : UInt8) (s : List UInt8) :
    writeCSVStringBody quote s = s.flatMap (csvByte quote) := by
  fun_induction writeCSVStringBody quote s with
  | case1 s h =>
    have hs := List.takeWhile_append_dropWhile (p := (· != quote)) (l := s)
    rw [h, List.append_nil] at hs
    rw [hs]
    refine (flatMap_of_forall_eq fun b hb => ?_).symm
    have hplain := List.mem_takeWhile_imp (hs ▸ hb)
    simp only [bne_iff_ne, ne_eq] at hplain
    simp [csvByte, hplain]
  | case2 s b rest h ih =>
    have hs := List.takeWhile_append_dropWhile (p := (· != quote)) (l := s)
    rw [h] at hs
    -- the search stopped at a quote
    have hb : b = quote := by
      have := List.head_dropWhile_not (· != quote) (l := s) (by simp [h])
      simpa [h] using this
    have hrun : (s.takeWhile (· != quote)).flatMap (csvByte quote) = s.takeWhile (· != quote) :=
      flatMap_of_forall_eq fun x hx => by
        have hplain := List.mem_takeWhile_imp hx
        simp only [bne_iff_ne, ne_eq] at hplain
        simp [csvByte, hplain]
    conv => rhs; rw [← hs]
    rw [List.flatMap_append, hrun, List.flatMap_cons, ih, csvByte, if_pos hb, hb]
    simp

theorem writeCSVString_eq (quote : UInt8) (s : List UInt8) :
    writeCSVString quote s = [quote] ++ s.flatMap (csvByte quote) ++ [quote] := by
  rw [writeCSVString, writeCSVStringBody_eq]

end ClickHouseGpu.IO
