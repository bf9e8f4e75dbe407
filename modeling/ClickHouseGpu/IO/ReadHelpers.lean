import ClickHouseGpu.IO.VarInt
import ClickHouseGpu.IO.WriteHelpers
import ClickHouseGpu.Lib.Checked

/-
  ClickHouseGpu.IO.ReadHelpers — the text readers of strings of `IO/ReadHelpers.cpp`:
  `readEscapedString` (TSV), `readAnyQuotedStringInto<quote, enable_sql_style_quoting>`,
  `readCSVStringInto`, and the escape sequences they share (`parseComplexEscapeSequence`).

  A `ReadBuffer` is a `ChunkedStream.Stream`. A reader searches its working buffer for the next
  byte it treats (`find_first_symbols`, `memchr`), appends the run before it, and asks for the
  next chunk when the buffer is used up (`eof`), so an escape sequence, a doubled quote or the
  closing quote may straddle two chunks. Each loop takes a fuel argument; the readers give it one
  pass per byte left and one more, and every pass reads a byte or returns.

  Proved, for every byte string and every cut of the bytes into chunks:
  - `readEscapedString_writeEscapedString`: the TSV escaping of the string, followed by a tab, a
    newline or nothing, reads back as the string, and the reader stops right after it.
  - `readAnyQuotedString_writeAnyQuotedString`: the same for the three quotes, with and without
    SQL-style quoting; with it, what follows must not start with the quote.
  - `readCSVString_writeCSVString`: the same for CSV, when the delimiter is not a double quote
    and what follows does not start with one.
-/

namespace ClickHouseGpu.IO

open ChunkedStream EscapeCode

/-! ## Escape sequences -/

/-- `parseEscapeSequence(c)`. -/
def parseEscapeSequence (c : UInt8) : UInt8 :=
  if c = byte 'a' then byte '\x07'
  else if c = byte 'b' then byte '\x08'
  else if c = byte 'e' then byte '\x1b'
  else if c = byte 'f' then byte '\x0c'
  else if c = byte 'n' then byte '\n'
  else if c = byte 'r' then byte '\r'
  else if c = byte 't' then byte '\t'
  else if c = byte 'v' then byte '\x0b'
  else if c = byte '0' then byte '\x00'
  else c

/-- `unhex(c)`, the table `hex_char_to_digit_table`: `0xff` for a byte that is no hex digit. -/
def unhex (c : UInt8) : UInt8 :=
  if byte '0' ≤ c ∧ c ≤ byte '9' then c - byte '0'
  else if byte 'A' ≤ c ∧ c ≤ byte 'F' then c - byte 'A' + 10
  else if byte 'a' ≤ c ∧ c ≤ byte 'f' then c - byte 'a' + 10
  else 0xff

/-- `unhex2(data)`. -/
def unhex2 (d0 d1 : UInt8) : UInt8 := unhex d0 * 0x10 + unhex d1

/-- `parseComplexEscapeSequence(s, buf)`, the cursor on a backslash. -/
def parseComplexEscapeSequence (s : List UInt8) (buf : ReadBuffer) : Except String (List UInt8 × ReadBuffer) :=
  let (e, buf) := buf.skip.eof
  if e then throw "Cannot parse escape sequence"
  else
    match buf.working with
    | c :: _ =>
      if c = byte 'x' then do
        -- an escape sequence of the form \xAA
        let (hex_code, buf) ← readStrict 2 buf.skip
        pure (s ++ [unhex2 (hex_code.getD 0 0) (hex_code.getD 1 0)], buf)
      -- \N is read as an empty string
      else if c = byte 'N' then pure (s, buf.skip)
      else pure (s ++ [parseEscapeSequence c], buf.skip)
    | [] => throw "Cannot parse escape sequence"

/-! ## `readEscapedString` -/

/-- The bytes `readEscapedStringInto` stops at: `find_first_symbols<'\t', '\n', '\\'>`. -/
def isEscapedStop (b : UInt8) : Bool := b == byte '\t' || b == byte '\n' || b == byte '\\'

/-- The loop of `readEscapedStringInto(s, buf)`, `fuel` passes at most. -/
def readEscapedStringLoop : Nat → List UInt8 → ReadBuffer → Except String (List UInt8 × ReadBuffer)
  | 0, s, buf => pure (s, buf)
  | fuel + 1, s, buf =>
    let (e, buf) := buf.eof
    if e then pure (s, buf)
    else
      let (run, buf) := buf.scan isEscapedStop
      let s := s ++ run
      match buf.working with
      -- `!buf.hasPendingData()`: the next chunk
      | [] => readEscapedStringLoop fuel s buf
      | c :: _ =>
        if c = byte '\t' ∨ c = byte '\n' then pure (s, buf)
        else if c = byte '\\' then do
          let (s, buf) ← parseComplexEscapeSequence s buf
          readEscapedStringLoop fuel s buf
        else readEscapedStringLoop fuel s buf

/-- `readEscapedString(s, buf)`. -/
def readEscapedString (buf : ReadBuffer) : Except String (List UInt8 × ReadBuffer) :=
  readEscapedStringLoop (buf.bytes.length + 1) [] buf

/-! ## Quoted strings -/

/-- The loop of `readAnyQuotedStringInto<quote, enable_sql_style_quoting>` after the opening
    quote, `fuel` passes at most. -/
def readAnyQuotedStringLoop (quote : UInt8) (enable_sql_style_quoting : Bool) :
    Nat → List UInt8 → ReadBuffer → Except String (List UInt8 × ReadBuffer)
  | 0, s, buf => pure (s, buf)
  | fuel + 1, s, buf =>
    let (e, buf) := buf.eof
    if e then throw "Cannot parse quoted string: expected closing quote"
    else
      let (run, buf) := buf.scan (fun b => b == byte '\\' || b == quote)
      let s := s ++ run
      match buf.working with
      | [] => readAnyQuotedStringLoop quote enable_sql_style_quoting fuel s buf
      | c :: _ =>
        if c = quote then
          let buf := buf.skip
          if enable_sql_style_quoting then
            let (e, buf) := buf.eof
            -- a doubled quote stands for one quote
            if e = false ∧ buf.working.head? = some quote then
              readAnyQuotedStringLoop quote enable_sql_style_quoting fuel (s ++ [quote]) buf.skip
            else pure (s, buf)
          else pure (s, buf)
        else if c = byte '\\' then do
          let (s, buf) ← parseComplexEscapeSequence s buf
          readAnyQuotedStringLoop quote enable_sql_style_quoting fuel s buf
        else readAnyQuotedStringLoop quote enable_sql_style_quoting fuel s buf

/-- `readAnyQuotedStringInto<quote, enable_sql_style_quoting>(s, buf)`. -/
def readAnyQuotedStringInto (quote : UInt8) (enable_sql_style_quoting : Bool) (s : List UInt8) (buf : ReadBuffer) :
    Except String (List UInt8 × ReadBuffer) :=
  let (e, buf) := buf.eof
  if e = true ∨ buf.working.head? ≠ some quote then throw "Cannot parse quoted string: expected opening quote"
  else readAnyQuotedStringLoop quote enable_sql_style_quoting (buf.bytes.length + 1) s buf.skip

def readQuotedString (buf : ReadBuffer) := readAnyQuotedStringInto singleQuote false [] buf

def readQuotedStringWithSQLStyle (buf : ReadBuffer) := readAnyQuotedStringInto singleQuote true [] buf

def readDoubleQuotedString (buf : ReadBuffer) := readAnyQuotedStringInto doubleQuote false [] buf

def readDoubleQuotedStringWithSQLStyle (buf : ReadBuffer) := readAnyQuotedStringInto doubleQuote true [] buf

def readBackQuotedString (buf : ReadBuffer) := readAnyQuotedStringInto backQuote false [] buf

def readBackQuotedStringWithSQLStyle (buf : ReadBuffer) := readAnyQuotedStringInto backQuote true [] buf

/-! ## CSV -/

/-- The loop of `readCSVStringInto` in quotes, `maybe_quote` the quote. A string that ends
    without its closing quote is taken as it is. -/
def readCSVQuotedLoop (maybe_quote : UInt8) : Nat → List UInt8 → ReadBuffer → List UInt8 × ReadBuffer
  | 0, s, buf => (s, buf)
  | fuel + 1, s, buf =>
    let (e, buf) := buf.eof
    if e then (s, buf)
    else
      let (run, buf) := buf.scan (· == maybe_quote)
      let s := s ++ run
      match buf.working with
      | [] => readCSVQuotedLoop maybe_quote fuel s buf
      | _ :: _ =>
        -- a quotation mark under the cursor: is there another one after it?
        let (e, buf) := buf.skip.eof
        if e then (s, buf)
        else if buf.working.head? = some maybe_quote then
          readCSVQuotedLoop maybe_quote fuel (s ++ [maybe_quote]) buf.skip
        else (s, buf)

/-- The string without its trailing spaces and tabs (`s.resize(size)`). -/
def dropTrailingBlanks (s : List UInt8) : List UInt8 :=
  (s.reverse.dropWhile (fun b => b == byte ' ' || b == byte '\t')).reverse

/-- The loop of `readCSVStringInto` without quotes: up to the delimiter, `\r` or `\n`. -/
def readCSVUnquotedLoop (delimiter : UInt8) : Nat → List UInt8 → ReadBuffer → List UInt8 × ReadBuffer
  | 0, s, buf => (s, buf)
  | fuel + 1, s, buf =>
    let (e, buf) := buf.eof
    if e then (s, buf)
    else
      let (run, buf) := buf.scan (fun b => b == delimiter || b == byte '\r' || b == byte '\n')
      let s := s ++ run
      match buf.working with
      | [] => readCSVUnquotedLoop delimiter fuel s buf
      | _ :: _ => (dropTrailingBlanks s, buf)

/-- `readCSVStringInto(s, buf, delimiter)`. -/
def readCSVStringInto (s : List UInt8) (buf : ReadBuffer) (delimiter : UInt8) :
    Except String (List UInt8 × ReadBuffer) :=
  let (e, buf) := buf.eof
  if e then throw "Attempt to read after eof"
  else
    let maybe_quote := buf.working.headD 0
    -- emptiness, and not even in quotation marks
    if maybe_quote = delimiter then pure (s, buf)
    else if maybe_quote = singleQuote ∨ maybe_quote = doubleQuote then
      pure (readCSVQuotedLoop maybe_quote (buf.bytes.length + 1) s buf.skip)
    else pure (readCSVUnquotedLoop delimiter (buf.bytes.length + 1) s buf)

/-- `readCSVString(s, buf, delimiter)`. -/
def readCSVString (buf : ReadBuffer) (delimiter : UInt8) : Except String (List UInt8 × ReadBuffer) :=
  readCSVStringInto [] buf delimiter

/-! ## Reading back the escapes of `writeAnyEscapedString<c>` -/

/-- Every byte `writeAnyEscapedString<c>` escapes, for one of the three quotes `c`, is written as
    a backslash and a letter other than `x` and `N` that `parseEscapeSequence` maps back to it. -/
theorem escapeSymbol_spec {c b : UInt8} (hc : c = singleQuote ∨ c = doubleQuote ∨ c = backQuote)
    (h : isEscapedSymbol c b = true) :
    ∃ e, escapeSymbol c b = [byte '\\', e] ∧ e ≠ byte 'x' ∧ e ≠ byte 'N' ∧ parseEscapeSequence e = b := by
  simp only [isEscapedSymbol, Bool.or_eq_true, beq_iff_eq] at h
  rcases hc with rfl | rfl | rfl <;>
    rcases h with ((((((rfl | rfl) | rfl) | rfl) | rfl) | rfl) | rfl) | rfl <;>
    exact ⟨_, rfl, by decide, by decide, by decide⟩

/-- For a quote `c`, the escaping of `writeAnyEscapedString<c>` is an escape code for a reader
    that stops at backslashes and only at bytes the writer escapes. -/
theorem code_escapeByte {c : UInt8} (hc : c = singleQuote ∨ c = doubleQuote ∨ c = backQuote) {stop : UInt8 → Bool}
    (hstop : ∀ b, stop b = true → isEscapedSymbol c b = true) (hslash : stop (byte '\\') = true) :
    Code (escapeByte c) stop := by
  intro b
  cases hb : isEscapedSymbol c b
  · -- a byte written as it is, which the reader does not stop at
    have hs : stop b = false := by
      cases h : stop b
      · rfl
      · rw [hstop b h] at hb
        cases hb
    exact .inl ⟨by simp [escapeByte, hb], hs⟩
  · obtain ⟨e, he, -⟩ := escapeSymbol_spec hc hb
    exact .inr ⟨byte '\\', [e], by simp [escapeByte, hb, he], hslash⟩

/-- A byte the reader stops at, first in the code of `b`, is the backslash of an escape. -/
theorem escape_of_code {c b d : UInt8} {cs : List UInt8} (hc : c = singleQuote ∨ c = doubleQuote ∨ c = backQuote)
    {stop : UInt8 → Bool} (hstop : ∀ b, stop b = true → isEscapedSymbol c b = true) (hb : escapeByte c b = d :: cs)
    (hd : stop d = true) :
    ∃ e, d = byte '\\' ∧ cs = [e] ∧ e ≠ byte 'x' ∧ e ≠ byte 'N' ∧ parseEscapeSequence e = b := by
  cases hesc : isEscapedSymbol c b
  · -- a byte written as it is is one the reader does not stop at
    rw [escapeByte, if_neg (by simp [hesc])] at hb
    obtain ⟨rfl, -⟩ := List.cons.inj hb
    rw [hstop b hd] at hesc
    cases hesc
  · obtain ⟨e, he, hx, hN, hpe⟩ := escapeSymbol_spec hc hesc
    rw [escapeByte, if_pos hesc, he] at hb
    obtain ⟨rfl, rfl⟩ := List.cons.inj hb
    exact ⟨e, rfl, rfl, hx, hN, hpe⟩

/-- `parseComplexEscapeSequence` on a backslash and a letter other than `x` and `N` appends the
    letter's byte and moves past both, wherever the chunks end. -/
theorem parseComplexEscapeSequence_of_letter {s : List UInt8} {buf : ReadBuffer} {w l : List UInt8} {e : UInt8}
    (hw : buf.working = byte '\\' :: w) (hb : buf.bytes = byte '\\' :: e :: l) (hx : e ≠ byte 'x')
    (hN : e ≠ byte 'N') :
    ∃ buf', parseComplexEscapeSequence s buf = .ok (s ++ [parseEscapeSequence e], buf') ∧ buf'.bytes = l := by
  have hskip : buf.skip.bytes = e :: l := by
    have h := Stream.bytes_skip hw
    rw [hb] at h
    exact (List.cons.inj h).2.symm
  obtain ⟨he, hne⟩ := Stream.eof_of_ne_nil (s := buf.skip) (by simp [hskip])
  obtain ⟨c, w₁, hw₁⟩ := List.exists_cons_of_ne_nil hne
  -- the letter is the first byte of the working buffer after the refill
  have hc := Stream.bytes_skip hw₁
  rw [Stream.bytes_eof, hskip] at hc
  obtain ⟨rfl, hl⟩ := List.cons.inj hc
  refine ⟨buf.skip.eof.2.skip, ?_, hl.symm⟩
  simp only [parseComplexEscapeSequence]
  rw [he]
  simp [hw₁, hx, hN]

/-- A pass of a reader's loop over written pieces followed by `suffix`: `eof` finds a byte left,
    and the search copies the first pieces `ps₁`, each a single byte; then the working buffer is
    used up, the copied run not empty, or the cursor stands on a byte the reader stops at. -/
theorem pass_of_pieces {β : Type} {code : β → List UInt8} {stop : UInt8 → Bool} {suffix : List UInt8}
    (hs : StopsAt stop suffix) {ps : List β} (hp : ∀ p ∈ ps, Piece stop (code p)) {buf : ReadBuffer}
    (hb : buf.bytes = ps.flatMap code ++ suffix) (hnil : buf.bytes ≠ []) :
    ∃ ps₁ ps₂, ps = ps₁ ++ ps₂ ∧ (∀ p ∈ ps₁, ∃ a, code p = [a] ∧ stop a = false) ∧ buf.eof = (false, buf.eof.2) ∧
      buf.eof.2.scan stop = (ps₁.flatMap code, (buf.eof.2.scan stop).2) ∧
      (buf.eof.2.scan stop).2.bytes = ps₂.flatMap code ++ suffix ∧
      (ps₁.flatMap code).length + (buf.eof.2.scan stop).2.bytes.length = buf.bytes.length ∧
      (((buf.eof.2.scan stop).2.working = [] ∧ ps₁.flatMap code ≠ []) ∨
        ∃ c w, (buf.eof.2.scan stop).2.working = c :: w ∧ stop c = true) := by
  obtain ⟨he, hwork⟩ := Stream.eof_of_ne_nil hnil
  have hb₁ : buf.eof.2.bytes = ps.flatMap code ++ suffix := by rw [Stream.bytes_eof, hb]
  obtain ⟨ps₁, ps₂, hps, hrun, hall, hrest⟩ := run_pieces hs hp
    ((Stream.bytes_scan _ stop).trans hb₁) (fun b hb => Stream.stop_of_mem_scan hb)
  have hsplit := congrArg List.length (Stream.bytes_scan buf.eof.2 stop)
  rw [hrun, Stream.bytes_eof, List.length_append] at hsplit
  refine ⟨ps₁, ps₂, hps, hall, he, Prod.ext hrun rfl, hrest, hsplit, ?_⟩
  rcases Stream.scan_working buf.eof.2 stop with ⟨hw, hcopy⟩ | hstop
  · -- the whole working buffer was copied, and it held a byte
    exact .inl ⟨hw, hrun ▸ hcopy ▸ hwork⟩
  · exact .inr hstop

/-- A pass of a reader's loop over the code of `t` followed by `suffix`: `eof` finds a byte left,
    and the search copies a prefix `t₁` of `t`; then the working buffer is used up, the copied run
    not empty, or the cursor stands on a byte the reader stops at. -/
theorem pass_of_code {enc : UInt8 → List UInt8} {stop : UInt8 → Bool} (hcode : Code enc stop) {suffix : List UInt8}
    (hs : StopsAt stop suffix) {t : List UInt8} {buf : ReadBuffer} (hb : buf.bytes = t.flatMap enc ++ suffix)
    (hnil : buf.bytes ≠ []) :
    ∃ t₁ t₂, t = t₁ ++ t₂ ∧ buf.eof = (false, buf.eof.2) ∧
      buf.eof.2.scan stop = (t₁, (buf.eof.2.scan stop).2) ∧
      (buf.eof.2.scan stop).2.bytes = t₂.flatMap enc ++ suffix ∧
      t₁.length + (buf.eof.2.scan stop).2.bytes.length = buf.bytes.length ∧
      (((buf.eof.2.scan stop).2.working = [] ∧ t₁ ≠ []) ∨
        ∃ c w, (buf.eof.2.scan stop).2.working = c :: w ∧ stop c = true) := by
  obtain ⟨t₁, t₂, ht, hall, he, hscan, hrest, hsplit, hnext⟩ := pass_of_pieces hs (fun b _ => hcode.piece b) hb hnil
  -- the bytes copied are written as themselves
  rw [flatMap_of_plain hcode hall] at hscan hsplit hnext
  exact ⟨t₁, t₂, ht, he, hscan, hrest, hsplit, hnext⟩

/-- The bytes left after a search that stopped on `c`. -/
theorem bytes_of_working {buf : ReadBuffer} {c : UInt8} {w : List UInt8} (hw : buf.working = c :: w) :
    c :: (w ++ buf.chunks.flatten) = buf.bytes := by
  rw [Stream.bytes, hw, List.cons_append]

/-! ## TSV -/

/-- A tab, a newline or the end: what may follow a TSV field. -/
def EndsField (l : List UInt8) : Prop := l = [] ∨ ∃ w, l = byte '\t' :: w ∨ l = byte '\n' :: w

theorem EndsField.stopsAt {l : List UInt8} (h : EndsField l) : StopsAt isEscapedStop l := by
  rcases h with rfl | ⟨w, rfl | rfl⟩
  · exact stopsAt_nil
  · exact stopsAt_cons (by decide)
  · exact stopsAt_cons (by decide)

/-- The TSV reader stops only at bytes `writeEscapedString` escapes. -/
theorem tsv_stop : ∀ b, isEscapedStop b = true → isEscapedSymbol singleQuote b = true := by
  intro b h
  simp only [isEscapedStop, Bool.or_eq_true, beq_iff_eq] at h
  rcases h with (rfl | rfl) | rfl <;> decide

theorem code_tsv : Code (escapeByte singleQuote) isEscapedStop := code_escapeByte (.inl rfl) tsv_stop (by decide)

/-- The loop reads the code of `t` followed by what may follow a field as `t`, and stops right
    after the code; by induction on the fuel, one pass at a time. -/
theorem readEscapedStringLoop_code {suffix : List UInt8} (hsuffix : EndsField suffix) :
    ∀ (fuel : Nat) (s t : List UInt8) (buf : ReadBuffer), buf.bytes = t.flatMap (escapeByte singleQuote) ++ suffix →
      buf.bytes.length < fuel → ∃ buf', readEscapedStringLoop fuel s buf = .ok (s ++ t, buf') ∧ buf'.bytes = suffix
  | 0, _, _, _, _, hfuel => absurd hfuel (Nat.not_lt_zero _)
  | fuel + 1, s, t, buf, hb, hfuel => by
    by_cases hnil : buf.bytes = []
    · -- nothing left: the code of `t` and the suffix are empty
      rw [hnil, eq_comm, List.append_eq_nil_iff, List.flatMap_eq_nil_iff] at hb
      have ht : t = [] := List.eq_nil_iff_forall_not_mem.mpr fun b hbt => code_tsv.ne_nil b (hb.1 b hbt)
      refine ⟨buf.eof.2, ?_, by rw [Stream.bytes_eof, hnil, hb.2]⟩
      simp only [readEscapedStringLoop]
      rw [Stream.eof_of_nil hnil]
      simp [ht]
    obtain ⟨t₁, t₂, rfl, he, hscan, hrest, hsplit, hnext⟩ := pass_of_code code_tsv hsuffix.stopsAt hb hnil
    set buf₂ := (buf.eof.2.scan isEscapedStop).2
    rcases hnext with ⟨hw, hrun⟩ | ⟨c, w, hw, hc⟩
    · -- the working buffer was used up: the next pass asks for the next chunk
      have hlen : buf₂.bytes.length < fuel := by
        have := List.length_pos_of_ne_nil hrun
        omega
      obtain ⟨buf', hread, hbuf'⟩ := readEscapedStringLoop_code hsuffix fuel (s ++ t₁) t₂ buf₂ hrest hlen
      refine ⟨buf', ?_, hbuf'⟩
      simp only [readEscapedStringLoop]
      rw [he]
      simp only [Bool.false_eq_true, if_false]
      rw [hscan]
      simp only [hw]
      rw [hread, List.append_assoc]
    -- the cursor is on a tab, a newline or a backslash
    rcases cons_code code_tsv ((bytes_of_working hw).trans hrest) with ⟨rfl, hsuf⟩ | ⟨b, t₃, cs, rfl, hbc, -⟩
    · -- the end of the field
      have htab : c = byte '\t' ∨ c = byte '\n' := by
        rcases hsuffix with rfl | ⟨w', h | h⟩
        · cases hsuf
        · exact .inl (List.cons.inj (hsuf.trans h)).1
        · exact .inr (List.cons.inj (hsuf.trans h)).1
      refine ⟨buf₂, ?_, by rw [hrest, List.flatMap_nil, List.nil_append]⟩
      simp only [readEscapedStringLoop]
      rw [he]
      simp only [Bool.false_eq_true, if_false]
      rw [hscan]
      simp [hw, htab]
    · -- an escape: a backslash and its letter
      obtain ⟨e, rfl, rfl, hx, hN, hpe⟩ := escape_of_code (.inl rfl) tsv_stop hbc hc
      have hbytes : buf₂.bytes = byte '\\' :: e :: (t₃.flatMap (escapeByte singleQuote) ++ suffix) := by
        rw [hrest, List.flatMap_cons, hbc]
        simp
      obtain ⟨buf₃, hparse, hbuf₃⟩ := parseComplexEscapeSequence_of_letter (s := s ++ t₁) hw hbytes hx hN
      have hlen : buf₃.bytes.length < fuel := by
        have h₂ : buf₂.bytes.length = buf₃.bytes.length + 2 := by rw [hbytes, hbuf₃]; simp
        omega
      obtain ⟨buf', hread, hbuf'⟩ := readEscapedStringLoop_code hsuffix fuel (s ++ t₁ ++ [b]) t₃ buf₃ hbuf₃ hlen
      refine ⟨buf', ?_, hbuf'⟩
      simp only [readEscapedStringLoop]
      rw [he]
      simp only [Bool.false_eq_true, if_false]
      rw [hscan]
      simp only [hw]
      rw [if_neg (by decide), if_pos trivial, hparse, hpe]
      simp only [Checked.ok_bind]
      rw [hread]
      simp

/-- The TSV escaping of any byte string, followed by a tab, a newline or nothing, reads back as the
    string whatever the chunks, and the reader stops right after it. -/
theorem readEscapedString_writeEscapedString (t suffix : List UInt8) (hsuffix : EndsField suffix) (buf : ReadBuffer)
    (hb : buf.bytes = writeEscapedString t ++ suffix) :
    ∃ buf', readEscapedString buf = .ok (t, buf') ∧ buf'.bytes = suffix := by
  rw [writeEscapedString, writeAnyEscapedString_eq] at hb
  simpa [readEscapedString] using readEscapedStringLoop_code hsuffix (buf.bytes.length + 1) [] t buf hb
    (Nat.lt_succ_self _)

/-! ## Quoted strings: the round trip -/

/-- The quoted readers stop only at bytes `writeAnyEscapedString<c>` escapes. -/
theorem quoted_stop {c : UInt8} : ∀ b, (b == byte '\\' || b == c) = true → isEscapedSymbol c b = true := by
  intro b h
  simp only [Bool.or_eq_true, beq_iff_eq] at h
  rcases h with rfl | rfl <;> simp [isEscapedSymbol]

theorem code_quoted {c : UInt8} (hc : c = singleQuote ∨ c = doubleQuote ∨ c = backQuote) :
    Code (escapeByte c) (fun b => b == byte '\\' || b == c) :=
  code_escapeByte hc quoted_stop (by simp)

/-- The loop reads the code of `t` followed by the closing quote as `t`, and stops right after the
    quote; with SQL-style quoting, when what follows does not start with a quote. -/
theorem readAnyQuotedStringLoop_code {c : UInt8} (hc : c = singleQuote ∨ c = doubleQuote ∨ c = backQuote)
    (sql : Bool) {rest : List UInt8} (hrest : sql = true → rest.head? ≠ some c) :
    ∀ (fuel : Nat) (s t : List UInt8) (buf : ReadBuffer), buf.bytes = t.flatMap (escapeByte c) ++ c :: rest →
      buf.bytes.length < fuel → ∃ buf', readAnyQuotedStringLoop c sql fuel s buf = .ok (s ++ t, buf') ∧ buf'.bytes = rest
  | 0, _, _, _, _, hfuel => absurd hfuel (Nat.not_lt_zero _)
  | fuel + 1, s, t, buf, hb, hfuel => by
    have hnil : buf.bytes ≠ [] := by simp [hb]
    obtain ⟨t₁, t₂, rfl, he, hscan, hrest₂, hsplit, hnext⟩ :=
      pass_of_code (code_quoted hc) (stopsAt_cons (by simp)) hb hnil
    set buf₂ := (buf.eof.2.scan (fun b => b == byte '\\' || b == c)).2
    have hslash : byte '\\' ≠ c := by rcases hc with rfl | rfl | rfl <;> decide
    rcases hnext with ⟨hw, hrun⟩ | ⟨d, w, hw, hd⟩
    · -- the working buffer was used up: the next pass asks for the next chunk
      have hlen : buf₂.bytes.length < fuel := by
        have := List.length_pos_of_ne_nil hrun
        omega
      obtain ⟨buf', hread, hbuf'⟩ := readAnyQuotedStringLoop_code hc sql hrest fuel (s ++ t₁) t₂ buf₂ hrest₂ hlen
      refine ⟨buf', ?_, hbuf'⟩
      simp only [readAnyQuotedStringLoop]
      rw [he]
      simp only [Bool.false_eq_true, if_false]
      rw [hscan]
      simp only [hw]
      rw [hread, List.append_assoc]
    rcases cons_code (code_quoted hc) ((bytes_of_working hw).trans hrest₂) with ⟨rfl, hsuf⟩ | ⟨b, t₃, cs, rfl, hbc, -⟩
    · -- the closing quote
      obtain ⟨rfl, -⟩ := List.cons.inj hsuf
      have hskip : buf₂.skip.bytes = rest := by
        have h := Stream.bytes_skip hw
        rw [hrest₂] at h
        simpa using h.symm
      have hunfold : readAnyQuotedStringLoop d sql (fuel + 1) s buf =
          if sql then
            (if buf₂.skip.eof.1 = false ∧ buf₂.skip.eof.2.working.head? = some d then
              readAnyQuotedStringLoop d sql fuel (s ++ t₁ ++ [d]) buf₂.skip.eof.2.skip
            else pure (s ++ t₁, buf₂.skip.eof.2))
          else pure (s ++ t₁, buf₂.skip) := by
        simp only [readAnyQuotedStringLoop]
        rw [he]
        simp only [Bool.false_eq_true, if_false]
        rw [hscan]
        simp only [hw, if_true]
      cases sql
      · exact ⟨buf₂.skip, by rw [hunfold]; simp, hskip⟩
      · -- with SQL-style quoting the reader looks at the byte after the quote
        refine ⟨buf₂.skip.eof.2, ?_, by rw [Stream.bytes_eof, hskip]⟩
        rw [hunfold, if_pos rfl, if_neg, List.append_nil]
        · rfl
        rintro ⟨he₂, hhead⟩
        obtain ⟨r, l, hrl⟩ := List.exists_cons_of_ne_nil (fun h => by
          rw [Stream.eof_of_nil (hskip.trans h)] at he₂
          cases he₂)
        obtain ⟨w₂, -, hw₂⟩ := Stream.eof_working (hskip.trans hrl)
        rw [hw₂] at hhead
        exact hrest rfl (by rw [hrl]; simpa using hhead)
    · -- an escape: a backslash and its letter
      obtain ⟨e, rfl, rfl, hx, hN, hpe⟩ := escape_of_code hc quoted_stop hbc hd
      have hbytes : buf₂.bytes = byte '\\' :: e :: (t₃.flatMap (escapeByte c) ++ c :: rest) := by
        rw [hrest₂, List.flatMap_cons, hbc]
        simp
      obtain ⟨buf₃, hparse, hbuf₃⟩ := parseComplexEscapeSequence_of_letter (s := s ++ t₁) hw hbytes hx hN
      have hlen : buf₃.bytes.length < fuel := by
        have h₂ : buf₂.bytes.length = buf₃.bytes.length + 2 := by rw [hbytes, hbuf₃]; simp
        omega
      obtain ⟨buf', hread, hbuf'⟩ := readAnyQuotedStringLoop_code hc sql hrest fuel (s ++ t₁ ++ [b]) t₃ buf₃ hbuf₃ hlen
      refine ⟨buf', ?_, hbuf'⟩
      simp only [readAnyQuotedStringLoop]
      rw [he]
      simp only [Bool.false_eq_true, if_false]
      rw [hscan]
      simp only [hw, hslash, if_false, if_true, hparse, Checked.ok_bind, hpe]
      rw [hread]
      simp

/-- The quoting of `writeAnyQuotedString<c>`, for each of the three quotes, reads back as the
    string whatever the chunks, and the reader stops right after the closing quote; with SQL-style
    quoting, when what follows does not start with the quote. -/
theorem readAnyQuotedString_writeAnyQuotedString {c : UInt8} (hc : c = singleQuote ∨ c = doubleQuote ∨ c = backQuote)
    (sql : Bool) (t rest : List UInt8) (hrest : sql = true → rest.head? ≠ some c) (buf : ReadBuffer)
    (hb : buf.bytes = writeAnyQuotedString c t ++ rest) :
    ∃ buf', readAnyQuotedStringInto c sql [] buf = .ok (t, buf') ∧ buf'.bytes = rest := by
  rw [writeAnyQuotedString, writeAnyEscapedString_eq] at hb
  have hcons : buf.bytes = c :: (t.flatMap (escapeByte c) ++ c :: rest) := by simp [hb]
  obtain ⟨w, -, hw⟩ := Stream.eof_working hcons
  have he := (Stream.eof_of_ne_nil (s := buf) (by simp [hcons])).1
  have hskip : buf.eof.2.skip.bytes = t.flatMap (escapeByte c) ++ c :: rest := by
    have h := Stream.bytes_skip hw
    rw [Stream.bytes_eof, hcons] at h
    exact (List.cons.inj h).2.symm
  obtain ⟨buf', hread, hbuf'⟩ := readAnyQuotedStringLoop_code hc sql hrest (buf.eof.2.bytes.length + 1) [] t
    buf.eof.2.skip hskip (by rw [hskip, Stream.bytes_eof, hcons, List.length_cons]; omega)
  refine ⟨buf', ?_, hbuf'⟩
  simp only [readAnyQuotedStringInto]
  rw [he]
  simp only [Bool.false_eq_true, false_or, hw, List.head?_cons, ne_eq, not_true_eq_false, if_false]
  exact hread

/-! ## CSV: the round trip -/

theorem code_csv (quote : UInt8) : Code (csvByte quote) (· == quote) := by
  intro b
  by_cases hb : b = quote
  · exact .inr ⟨quote, [quote], by simp [csvByte, hb], by simp⟩
  · exact .inl ⟨by simp [csvByte, hb], by simp [hb]⟩

/-- The quoted loop reads the code of `t` followed by the closing quote as `t`, and stops right
    after the quote when what follows does not start with another one. -/
theorem readCSVQuotedLoop_code {quote : UInt8} {rest : List UInt8} (hrest : rest.head? ≠ some quote) :
    ∀ (fuel : Nat) (s t : List UInt8) (buf : ReadBuffer), buf.bytes = t.flatMap (csvByte quote) ++ quote :: rest →
      buf.bytes.length < fuel → ∃ buf', readCSVQuotedLoop quote fuel s buf = (s ++ t, buf') ∧ buf'.bytes = rest
  | 0, _, _, _, _, hfuel => absurd hfuel (Nat.not_lt_zero _)
  | fuel + 1, s, t, buf, hb, hfuel => by
    have hnil : buf.bytes ≠ [] := by simp [hb]
    obtain ⟨t₁, t₂, rfl, he, hscan, hrest₂, hsplit, hnext⟩ :=
      pass_of_code (code_csv quote) (stopsAt_cons (by simp)) hb hnil
    set buf₂ := (buf.eof.2.scan (· == quote)).2
    rcases hnext with ⟨hw, hrun⟩ | ⟨d, w, hw, hd⟩
    · -- the working buffer was used up: the next pass asks for the next chunk
      have hlen : buf₂.bytes.length < fuel := by
        have := List.length_pos_of_ne_nil hrun
        omega
      obtain ⟨buf', hread, hbuf'⟩ := readCSVQuotedLoop_code hrest fuel (s ++ t₁) t₂ buf₂ hrest₂ hlen
      refine ⟨buf', ?_, hbuf'⟩
      simp only [readCSVQuotedLoop]
      rw [he]
      simp only [Bool.false_eq_true, if_false]
      rw [hscan]
      simp only [hw]
      rw [hread, List.append_assoc]
    -- the cursor is on a quote: the closing one, or the first of a doubled one
    obtain rfl : d = quote := by simpa using hd
    have hunfold : readCSVQuotedLoop d (fuel + 1) s buf =
        if buf₂.skip.eof.1 then (s ++ t₁, buf₂.skip.eof.2)
        else if buf₂.skip.eof.2.working.head? = some d then
          readCSVQuotedLoop d fuel (s ++ t₁ ++ [d]) buf₂.skip.eof.2.skip
        else (s ++ t₁, buf₂.skip.eof.2) := by
      simp only [readCSVQuotedLoop]
      rw [he]
      simp only [Bool.false_eq_true, if_false]
      rw [hscan]
      simp only [hw]
    rcases cons_code (code_csv d) ((bytes_of_working hw).trans hrest₂) with ⟨rfl, -⟩ | ⟨b, t₃, cs, rfl, hbc, -⟩
    · -- the closing quote, and what follows is not a quote
      have hrest₃ : buf₂.skip.bytes = rest := by
        have h := Stream.bytes_skip hw
        rw [hrest₂] at h
        simpa using h.symm
      refine ⟨buf₂.skip.eof.2, ?_, by rw [Stream.bytes_eof, hrest₃]⟩
      rw [hunfold, List.append_nil]
      cases hr : rest with
      | nil =>
        rw [Stream.eof_eq, hrest₃, hr]
        simp
      | cons r l =>
        obtain ⟨w₂, -, hw₂⟩ := Stream.eof_working (hrest₃.trans hr)
        have hr' : r ≠ d := fun h => hrest (by rw [hr, h]; rfl)
        rw [Stream.eof_eq, hrest₃, hr, hw₂]
        simp [hr']
    · -- a doubled quote stands for one quote
      obtain rfl : b = d := by
        by_contra hbd
        simp [csvByte, hbd] at hbc
      simp only [csvByte, if_true, List.cons.injEq, true_and] at hbc
      subst hbc
      have hbytes : buf₂.skip.bytes = b :: (t₃.flatMap (csvByte b) ++ b :: rest) := by
        have h := Stream.bytes_skip hw
        rw [hrest₂] at h
        simpa [csvByte] using h.symm
      obtain ⟨w₂, -, hw₂⟩ := Stream.eof_working hbytes
      have he₂ := (Stream.eof_of_ne_nil (s := buf₂.skip) (by simp [hbytes])).1
      have hbuf₃ : buf₂.skip.eof.2.skip.bytes = t₃.flatMap (csvByte b) ++ b :: rest := by
        have h := Stream.bytes_skip hw₂
        rw [Stream.bytes_eof, hbytes] at h
        exact (List.cons.inj h).2.symm
      have hlen : buf₂.skip.eof.2.skip.bytes.length < fuel := by
        have h₂ : buf₂.bytes.length = buf₂.skip.eof.2.skip.bytes.length + 2 := by
          rw [hbuf₃, hrest₂]
          simp [csvByte]
        omega
      obtain ⟨buf', hread, hbuf'⟩ := readCSVQuotedLoop_code hrest fuel (s ++ t₁ ++ [b]) t₃ _ hbuf₃ hlen
      refine ⟨buf', ?_, hbuf'⟩
      rw [hunfold, he₂]
      simp only [Bool.false_eq_true, if_false, hw₂, List.head?_cons, if_true]
      rw [hread]
      simp

/-- The CSV quoting of `writeCSVString<quote>`, for the two quotes the reader knows, reads back as
    the string whatever the chunks, when the delimiter is not the quote; the reader stops right
    after the closing quote when what follows does not start with the quote. -/
theorem readCSVString_writeCSVString {quote : UInt8} (hq : quote = singleQuote ∨ quote = doubleQuote)
    (delimiter : UInt8) (hdelim : delimiter ≠ quote) (t rest : List UInt8) (hrest : rest.head? ≠ some quote)
    (buf : ReadBuffer) (hb : buf.bytes = writeCSVString quote t ++ rest) :
    ∃ buf', readCSVString buf delimiter = .ok (t, buf') ∧ buf'.bytes = rest := by
  rw [writeCSVString_eq] at hb
  have hcons : buf.bytes = quote :: (t.flatMap (csvByte quote) ++ quote :: rest) := by simp [hb]
  obtain ⟨w, -, hw⟩ := Stream.eof_working hcons
  have he := (Stream.eof_of_ne_nil (s := buf) (by simp [hcons])).1
  have hskip : buf.eof.2.skip.bytes = t.flatMap (csvByte quote) ++ quote :: rest := by
    have h := Stream.bytes_skip hw
    rw [Stream.bytes_eof, hcons] at h
    exact (List.cons.inj h).2.symm
  obtain ⟨buf', hread, hbuf'⟩ := readCSVQuotedLoop_code hrest (buf.eof.2.bytes.length + 1) [] t
    buf.eof.2.skip hskip (by rw [hskip, Stream.bytes_eof, hcons, List.length_cons]; omega)
  refine ⟨buf', ?_, hbuf'⟩
  simp only [readCSVString, readCSVStringInto]
  rw [he]
  simp only [Bool.false_eq_true, if_false, hw, List.headD_cons, Ne.symm hdelim, hq, if_true]
  rw [hread]
  simp

/-! ## The text encodings of strings -/

/-- Each text encoding of a string reads back as the string, whatever the cut of its bytes into
    chunks, and its reader stops right after it: TSV before a tab, a newline or the end; the three
    quotes, and with SQL-style quoting before anything that does not start with the quote; CSV
    with a double quote, for a delimiter other than the quote, before anything that does not start
    with the quote. -/
theorem text_strings_round_trip (t : List UInt8) :
    (∀ rest, EndsField rest → ∀ buf : ReadBuffer, buf.bytes = writeEscapedString t ++ rest →
      ∃ buf', readEscapedString buf = .ok (t, buf') ∧ buf'.bytes = rest) ∧
    (∀ rest (buf : ReadBuffer), buf.bytes = writeQuotedString t ++ rest →
      ∃ buf', readQuotedString buf = .ok (t, buf') ∧ buf'.bytes = rest) ∧
    (∀ rest (buf : ReadBuffer), buf.bytes = writeDoubleQuotedString t ++ rest →
      ∃ buf', readDoubleQuotedString buf = .ok (t, buf') ∧ buf'.bytes = rest) ∧
    (∀ rest (buf : ReadBuffer), buf.bytes = writeBackQuotedString t ++ rest →
      ∃ buf', readBackQuotedString buf = .ok (t, buf') ∧ buf'.bytes = rest) ∧
    (∀ rest, rest.head? ≠ some singleQuote → ∀ buf : ReadBuffer, buf.bytes = writeQuotedString t ++ rest →
      ∃ buf', readQuotedStringWithSQLStyle buf = .ok (t, buf') ∧ buf'.bytes = rest) ∧
    (∀ rest, rest.head? ≠ some doubleQuote → ∀ buf : ReadBuffer, buf.bytes = writeDoubleQuotedString t ++ rest →
      ∃ buf', readDoubleQuotedStringWithSQLStyle buf = .ok (t, buf') ∧ buf'.bytes = rest) ∧
    (∀ rest, rest.head? ≠ some backQuote → ∀ buf : ReadBuffer, buf.bytes = writeBackQuotedString t ++ rest →
      ∃ buf', readBackQuotedStringWithSQLStyle buf = .ok (t, buf') ∧ buf'.bytes = rest) ∧
    (∀ delimiter rest, delimiter ≠ doubleQuote → rest.head? ≠ some doubleQuote → ∀ buf : ReadBuffer,
      buf.bytes = writeCSVString doubleQuote t ++ rest →
      ∃ buf', readCSVString buf delimiter = .ok (t, buf') ∧ buf'.bytes = rest) :=
  ⟨fun rest h buf hb => readEscapedString_writeEscapedString t rest h buf hb,
    fun rest buf hb => readAnyQuotedString_writeAnyQuotedString (.inl rfl) false t rest (by simp) buf hb,
    fun rest buf hb => readAnyQuotedString_writeAnyQuotedString (.inr (.inl rfl)) false t rest (by simp) buf hb,
    fun rest buf hb => readAnyQuotedString_writeAnyQuotedString (.inr (.inr rfl)) false t rest (by simp) buf hb,
    fun rest h buf hb => readAnyQuotedString_writeAnyQuotedString (.inl rfl) true t rest (fun _ => h) buf hb,
    fun rest h buf hb => readAnyQuotedString_writeAnyQuotedString (.inr (.inl rfl)) true t rest (fun _ => h) buf hb,
    fun rest h buf hb => readAnyQuotedString_writeAnyQuotedString (.inr (.inr rfl)) true t rest (fun _ => h) buf hb,
    fun delimiter rest hd h buf hb => readCSVString_writeCSVString (.inr rfl) delimiter hd t rest h buf hb⟩

/-- An escape, a doubled quote and a doubled CSV quote, each cut between two chunks. -/
theorem text_strings_round_trip_chunks :
    (∃ buf', readEscapedString (Stream.ofChunks [[92, 92, 92], [39, 9]] (by decide)) = .ok ([92, 39], buf') ∧
      buf'.bytes = [9]) ∧
    (∃ buf', readQuotedStringWithSQLStyle (Stream.ofChunks [[39, 92], [39, 39]] (by decide)) = .ok ([39], buf') ∧
      buf'.bytes = []) ∧
    (∃ buf', readCSVString (Stream.ofChunks [[34, 34], [34, 34]] (by decide)) 44 = .ok ([34], buf') ∧
      buf'.bytes = []) :=
  ⟨(text_strings_round_trip [92, 39]).1 [9] (.inr ⟨[], .inl rfl⟩) _
      (by rw [writeEscapedString, writeAnyEscapedString_eq]; decide),
    (text_strings_round_trip [39]).2.2.2.2.1 [] (by decide) _
      (by rw [writeQuotedString, writeAnyQuotedString, writeAnyEscapedString_eq]; decide),
    (text_strings_round_trip [34]).2.2.2.2.2.2.2 44 [] (by decide) (by decide) _
      (by rw [writeCSVString_eq]; decide)⟩

end ClickHouseGpu.IO
