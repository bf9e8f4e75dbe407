import ClickHouseGpu.IO.ReadHelpers

/-
  ClickHouseGpu.IO.JSONString — `writeJSONString` of `IO/WriteHelpers.h` and `readJSONString` of
  `IO/ReadHelpers.cpp`, with `parseJSONEscapeSequence`, `checkString` and `unhex4`.

  The writer escapes the quote, the backslash, the slash and the control bytes, and writes the
  line separators U+2028 and U+2029 (`e2 80 a8`, `e2 80 a9`) as `\u2028` and `\u2029`; every
  other byte, valid UTF-8 or not, is written as it is. The reader copies the bytes up to the
  next backslash or quote, then reads an escape: a letter, or `\u` and four hex digits of a code
  point, which it writes back in UTF-8, a surrogate pair in four bytes.

  What the reader makes of a literal is put together from pieces (`PieceReads`): a byte it
  copies, or an escape it reads as some bytes wherever the chunks end. The writer's output and
  every well-formed literal are pieces one after another.

  Proved, for every cut of the bytes into chunks:
  - `readJSONString_writeJSONString`: `writeJSONString` of any byte string reads back as it.
  - `readJSONString_literal`: a well-formed JSON string literal (`JSONChar`) reads as the UTF-8
    of its code points, surrogate pairs combined.
-/

namespace ClickHouseGpu.IO

open ChunkedStream EscapeCode

/-! ## `writeJSONString` -/

/-- The bytes `writeJSONString` writes between the quotes. -/
def writeJSONStringBody : List UInt8 → List UInt8
  | [] => []
  | c :: rest =>
    if c = byte '\x08' then byte '\\' :: byte 'b' :: writeJSONStringBody rest
    else if c = byte '\x0c' then byte '\\' :: byte 'f' :: writeJSONStringBody rest
    else if c = byte '\n' then byte '\\' :: byte 'n' :: writeJSONStringBody rest
    else if c = byte '\r' then byte '\\' :: byte 'r' :: writeJSONStringBody rest
    else if c = byte '\t' then byte '\\' :: byte 't' :: writeJSONStringBody rest
    else if c = byte '\\' then byte '\\' :: byte '\\' :: writeJSONStringBody rest
    else if c = byte '/' then byte '\\' :: byte '/' :: writeJSONStringBody rest
    else if c = byte '"' then byte '\\' :: byte '"' :: writeJSONStringBody rest
    else if c ≤ 0x1F then
      -- the other ASCII control bytes, as `\u00XX`
      let higher_half := c >>> 4
      let lower_half := c &&& 0xF
      [byte '\\', byte 'u', byte '0', byte '0', byte '0' + higher_half,
        if lower_half ≤ 9 then byte '0' + lower_half else byte 'A' + lower_half - 10] ++
        writeJSONStringBody rest
    else
      match rest with
      | c₁ :: c₂ :: rest' =>
        -- the line separators, which JavaScript does not allow unescaped in a string literal
        if c = 0xE2 ∧ c₁ = 0x80 ∧ (c₂ = 0xA8 ∨ c₂ = 0xA9) then
          (if c₂ = 0xA8 then [byte '\\', byte 'u', byte '2', byte '0', byte '2', byte '8'] else []) ++
            (if c₂ = 0xA9 then [byte '\\', byte 'u', byte '2', byte '0', byte '2', byte '9'] else []) ++
            writeJSONStringBody rest'
        else c :: writeJSONStringBody (c₁ :: c₂ :: rest')
      | rest => c :: writeJSONStringBody rest

/-- `writeJSONString(s, buf)`. -/
def writeJSONString (s : List UInt8) : List UInt8 := doubleQuote :: writeJSONStringBody s ++ [doubleQuote]

/-! ## `readJSONString` -/

/-- `checkString(s, buf)`: whether the bytes next are `s`, moving past those that match. -/
def checkString : List UInt8 → ReadBuffer → Bool × ReadBuffer
  | [], buf => (true, buf)
  | c :: s, buf =>
    let (e, buf) := buf.eof
    if e = true ∨ buf.working.head? ≠ some c then (false, buf)
    else checkString s buf.skip

/-- `static_cast<UInt16>(unhex(c))`: the `char` of the table, sign-extended. -/
def unhexWide (c : UInt8) : UInt16 := (unhex c).toInt8.toInt16.toUInt16

/-- `unhex4(data)`. -/
def unhex4 (d0 d1 d2 d3 : UInt8) : UInt16 :=
  unhexWide d0 * 0x1000 + unhexWide d1 * 0x100 + unhexWide d2 * 0x10 + unhexWide d3

/-- The byte the `switch` of `parseJSONEscapeSequence` pushes for a byte after the backslash
    other than `u`. -/
def jsonEscapedByte (c : UInt8) : UInt8 :=
  if c = byte '"' then byte '"'
  else if c = byte '\\' then byte '\\'
  else if c = byte '/' then byte '/'
  else if c = byte 'b' then byte '\x08'
  else if c = byte 'f' then byte '\x0c'
  else if c = byte 'n' then byte '\n'
  else if c = byte 'r' then byte '\r'
  else if c = byte 't' then byte '\t'
  else c

/-- `parseJSONEscapeSequence(s, buf)`, the cursor on a backslash. -/
def parseJSONEscapeSequence (s : List UInt8) (buf : ReadBuffer) : Except String (List UInt8 × ReadBuffer) :=
  let (e, buf) := buf.skip.eof
  if e then throw "Cannot parse escape sequence"
  else
    match buf.working with
    | [] => throw "Cannot parse escape sequence"
    | c :: _ =>
      if c = byte 'u' then
        -- `buf.read(hex_code, 4)`, which reads fewer bytes only at the end
        match buf.skip.read 4 with
        | ([d0, d1, d2, d3], buf) =>
          if [d0, d1, d2, d3] = [byte '0', byte '0', byte '0', byte '0'] then pure (s ++ [0], buf)
          else
            let code_point := unhex4 d0 d1 d2 d3
            if code_point ≤ 0x7F then pure (s ++ [code_point.toUInt8], buf)
            else if code_point ≤ 0x07FF then
              pure (s ++ [((code_point >>> 6) &&& 0x1F ||| 0xC0).toUInt8, (code_point &&& 0x3F ||| 0x80).toUInt8], buf)
            else if code_point ≥ 0xD800 ∧ code_point ≤ 0xDBFF then
              -- the first half of a surrogate pair: the second must follow
              match checkString [byte '\\', byte 'u'] buf with
              | (false, _) => throw "Cannot parse escape sequence: missing second part of surrogate pair"
              | (true, buf) =>
                match buf.read 4 with
                | ([e0, e1, e2, e3], buf) =>
                  let second_code_point := unhex4 e0 e1 e2 e3
                  if second_code_point ≥ 0xDC00 ∧ second_code_point ≤ 0xDFFF then
                    let full_code_point : UInt32 :=
                      0x10000 + (code_point.toUInt32 - 0xD800) * 1024 + (second_code_point.toUInt32 - 0xDC00)
                    pure (s ++ [((full_code_point >>> 18) &&& 0x07 ||| 0xF0).toUInt8,
                      ((full_code_point >>> 12) &&& 0x3F ||| 0x80).toUInt8,
                      ((full_code_point >>> 6) &&& 0x3F ||| 0x80).toUInt8,
                      (full_code_point &&& 0x3F ||| 0x80).toUInt8], buf)
                  else throw "Incorrect surrogate pair of unicode escape sequences in JSON"
                | _ => throw "Cannot parse escape sequence: less than four bytes after \\u of second part of surrogate pair"
            else
              pure (s ++ [((code_point >>> 12) &&& 0x0F ||| 0xE0).toUInt8,
                ((code_point >>> 6) &&& 0x3F ||| 0x80).toUInt8, (code_point &&& 0x3F ||| 0x80).toUInt8], buf)
        | _ => throw "Cannot parse escape sequence: less than four bytes after \\u"
      else pure (s ++ [jsonEscapedByte c], buf.skip)

/-- The bytes `readJSONStringInto` stops at: `find_first_symbols<'\\', '"'>`. -/
def isJSONStop (b : UInt8) : Bool := b == byte '\\' || b == doubleQuote

/-- The loop of `readJSONStringInto(s, buf)` after the opening quote, `fuel` passes at most. -/
def readJSONStringLoop : Nat → List UInt8 → ReadBuffer → Except String (List UInt8 × ReadBuffer)
  | 0, s, buf => pure (s, buf)
  | fuel + 1, s, buf =>
    let (e, buf) := buf.eof
    if e then throw "Cannot parse JSON string: expected closing quote"
    else
      let (run, buf) := buf.scan isJSONStop
      let s := s ++ run
      match buf.working with
      | [] => readJSONStringLoop fuel s buf
      | c :: _ =>
        if c = doubleQuote then pure (s, buf.skip)
        else if c = byte '\\' then do
          let (s, buf) ← parseJSONEscapeSequence s buf
          readJSONStringLoop fuel s buf
        else readJSONStringLoop fuel s buf

/-- `readJSONStringInto(s, buf)`. -/
def readJSONStringInto (s : List UInt8) (buf : ReadBuffer) : Except String (List UInt8 × ReadBuffer) :=
  let (e, buf) := buf.eof
  if e = true ∨ buf.working.head? ≠ some doubleQuote then throw "Cannot parse JSON string: expected opening quote"
  else readJSONStringLoop (buf.bytes.length + 1) s buf.skip

/-- `readJSONString(s, buf)`. -/
def readJSONString (buf : ReadBuffer) : Except String (List UInt8 × ReadBuffer) := readJSONStringInto [] buf

/-! ## Escapes -/

/-- `checkString` moves past the bytes it is given when they come next, wherever the chunks end. -/
theorem checkString_of_bytes : ∀ (pre : List UInt8) {buf : ReadBuffer} {l : List UInt8}, buf.bytes = pre ++ l →
    ∃ buf', checkString pre buf = (true, buf') ∧ buf'.bytes = l
  | [], buf, _, h => ⟨buf, rfl, by simpa using h⟩
  | c :: pre, buf, l, h => by
    obtain ⟨w, -, hw⟩ := Stream.eof_working (l := pre ++ l) (by simpa using h)
    have he := (Stream.eof_of_ne_nil (s := buf) (by simp [h])).1
    have hskip : buf.eof.2.skip.bytes = pre ++ l := by
      have hb := Stream.bytes_skip hw
      rw [Stream.bytes_eof, h] at hb
      exact (List.cons.inj hb).2.symm
    obtain ⟨buf', hcheck, hbuf'⟩ := checkString_of_bytes pre hskip
    refine ⟨buf', ?_, hbuf'⟩
    simp only [checkString]
    rw [he]
    simpa [hw] using hcheck

/-- A backslash and a byte other than `u` read as the byte of the `switch`. -/
theorem parseJSONEscapeSequence_of_letter {s : List UInt8} {buf : ReadBuffer} {ws l : List UInt8} {e : UInt8}
    (hw : buf.working = byte '\\' :: ws) (hb : buf.bytes = byte '\\' :: e :: l) (hu : e ≠ byte 'u') :
    ∃ buf', parseJSONEscapeSequence s buf = .ok (s ++ [jsonEscapedByte e], buf') ∧ buf'.bytes = l := by
  obtain ⟨w, he, hw₁, hl⟩ := Stream.eof_skip hw hb
  refine ⟨buf.skip.eof.2.skip, ?_, hl⟩
  simp only [parseJSONEscapeSequence]
  rw [he]
  simp [hw₁, hu]

/-! ## UTF-8

  The bytes `parseJSONEscapeSequence` pushes for a code point are those of Lean's
  `String.utf8EncodeChar`, whose fast form computes them the way the source does. -/

theorem val_ofNat {n : Nat} (h : n.isValidChar) : (Char.ofNat n).val.toNat = n := by
  rw [Char.ofNat, dif_pos h]
  rfl

theorem shiftRight_toUInt8 (cp : UInt16) {k : UInt32} (hk : k < 16) :
    (cp.toUInt32 >>> k).toUInt8 = (cp >>> k.toUInt16).toUInt8 := by
  have hk' : k.toNat < 16 := hk
  apply UInt8.toNat_inj.mp
  simp [Nat.mod_eq_of_lt hk', Nat.mod_eq_of_lt (show k.toNat < 32 by omega)]

/-- The UTF-8 of a code point of the Basic Multilingual Plane, as `parseJSONEscapeSequence`
    writes it: one, two or three bytes. -/
theorem utf8EncodeChar_of_bmp (cp : UInt16) (h : cp.toNat.isValidChar) :
    String.utf8EncodeChar (Char.ofNat cp.toNat) =
      if cp ≤ 0x7F then [cp.toUInt8]
      else if cp ≤ 0x07FF then [((cp >>> 6) &&& 0x1F ||| 0xC0).toUInt8, (cp &&& 0x3F ||| 0x80).toUInt8]
      else [((cp >>> 12) &&& 0x0F ||| 0xE0).toUInt8, ((cp >>> 6) &&& 0x3F ||| 0x80).toUInt8,
        (cp &&& 0x3F ||| 0x80).toUInt8] := by
  have hv : (Char.ofNat cp.toNat).val = cp.toUInt32 := UInt32.toNat_inj.mp (by simpa using val_ofNat h)
  have h₁ : cp.toUInt32 ≤ 0x7f ↔ cp ≤ 0x7F := by
    rw [UInt32.le_iff_toNat_le, UInt16.le_iff_toNat_le]
    simp
  have h₂ : cp.toUInt32 ≤ 0x7ff ↔ cp ≤ 0x07FF := by
    rw [UInt32.le_iff_toNat_le, UInt16.le_iff_toNat_le]
    simp
  have h₃ : cp.toUInt32 ≤ 0xffff := by
    rw [UInt32.le_iff_toNat_le]
    simpa using Nat.le_of_lt_succ (UInt16.toNat_lt cp)
  rw [String.utf8EncodeChar_eq_utf8EncodeCharFast, String.utf8EncodeCharFast]
  simp only [hv, h₁, h₂, h₃, shiftRight_toUInt8 cp (show (6 : UInt32) < 16 by decide),
    shiftRight_toUInt8 cp (show (12 : UInt32) < 16 by decide)]
  split_ifs <;> simp

/-- The UTF-8 of a code point above the Basic Multilingual Plane: four bytes. -/
theorem utf8EncodeChar_of_supplementary (v : UInt32) (h₁ : 0xFFFF < v.toNat) (h₂ : v.toNat < 0x110000) :
    String.utf8EncodeChar (Char.ofNat v.toNat) =
      [((v >>> 18) &&& 0x07 ||| 0xF0).toUInt8, ((v >>> 12) &&& 0x3F ||| 0x80).toUInt8,
        ((v >>> 6) &&& 0x3F ||| 0x80).toUInt8, (v &&& 0x3F ||| 0x80).toUInt8] := by
  have hv : (Char.ofNat v.toNat).val = v := UInt32.toNat_inj.mp (val_ofNat (.inr ⟨by omega, h₂⟩))
  have h₃ : ¬v ≤ 0xffff := by
    rw [UInt32.le_iff_toNat_le]
    simpa using h₁
  have h₄ : ¬v ≤ 0x7f := by
    rw [UInt32.le_iff_toNat_le]
    simp
    omega
  have h₅ : ¬v ≤ 0x7ff := by
    rw [UInt32.le_iff_toNat_le]
    simp
    omega
  rw [String.utf8EncodeChar_eq_utf8EncodeCharFast, String.utf8EncodeCharFast]
  simp only [hv]
  rw [if_neg h₄, if_neg h₅, if_neg h₃]
  simp

/-! ## Unicode escapes -/

/-- `\\u` and four bytes after a backslash: the reader reaches the four bytes wherever the chunks
    end. -/
theorem read_of_unicode {buf : ReadBuffer} {ws l : List UInt8} {d0 d1 d2 d3 : UInt8}
    (hw : buf.working = byte '\\' :: ws) (hb : buf.bytes = byte '\\' :: byte 'u' :: d0 :: d1 :: d2 :: d3 :: l) :
    ∃ w, buf.skip.eof = (false, buf.skip.eof.2) ∧ buf.skip.eof.2.working = byte 'u' :: w ∧
      buf.skip.eof.2.skip.read 4 = ([d0, d1, d2, d3], (buf.skip.eof.2.skip.read 4).2) ∧
      (buf.skip.eof.2.skip.read 4).2.bytes = l := by
  obtain ⟨w, he, hw₁, hl⟩ := Stream.eof_skip hw hb
  obtain ⟨htake, hdrop⟩ := Stream.read_eq 4 buf.skip.eof.2.skip
  rw [hl] at htake hdrop
  exact ⟨w, he, hw₁, Prod.ext (by simpa using htake) rfl, by simpa using hdrop⟩

theorem unhex4_zero : unhex4 (byte '0') (byte '0') (byte '0') (byte '0') = 0 := by decide

/-- `\\u` and four bytes whose `unhex4` is a code point other than a surrogate read as its UTF-8. -/
theorem parseJSONEscapeSequence_of_unicode {s : List UInt8} {buf : ReadBuffer} {ws l : List UInt8}
    {d0 d1 d2 d3 : UInt8} (hw : buf.working = byte '\\' :: ws)
    (hb : buf.bytes = byte '\\' :: byte 'u' :: d0 :: d1 :: d2 :: d3 :: l)
    (hv : (unhex4 d0 d1 d2 d3).toNat.isValidChar) :
    ∃ buf', parseJSONEscapeSequence s buf =
      .ok (s ++ String.utf8EncodeChar (Char.ofNat (unhex4 d0 d1 d2 d3).toNat), buf') ∧ buf'.bytes = l := by
  obtain ⟨w, he, hw₁, hr, hl⟩ := read_of_unicode hw hb
  refine ⟨_, ?_, hl⟩
  simp only [parseJSONEscapeSequence]
  rw [he]
  simp only [Bool.false_eq_true, if_false, hw₁, if_true]
  rw [hr]
  dsimp only
  by_cases h0 : [d0, d1, d2, d3] = [byte '0', byte '0', byte '0', byte '0']
  · -- `\\u0000`, pushed as it is
    simp only [List.cons.injEq, and_true] at h0
    obtain ⟨rfl, rfl, rfl, rfl⟩ := h0
    rw [unhex4_zero]
    rfl
  · -- no surrogate: one, two or three bytes
    have hhigh : ¬(unhex4 d0 d1 d2 d3 ≥ 0xD800 ∧ unhex4 d0 d1 d2 d3 ≤ 0xDBFF) := by
      rintro ⟨h₁, h₂⟩
      rw [ge_iff_le, UInt16.le_iff_toNat_le] at h₁
      rw [UInt16.le_iff_toNat_le] at h₂
      unfold Nat.isValidChar at hv
      simp at h₁ h₂
      omega
    rw [if_neg h0, utf8EncodeChar_of_bmp _ hv]
    simp only [hhigh, if_false]
    split_ifs <;> rfl

/-- The code point of a surrogate pair, computed in `UInt32` without overflow. -/
theorem toNat_full_code_point {hi lo : UInt16} (h₁ : 0xD800 ≤ hi.toNat) (h₂ : hi.toNat ≤ 0xDBFF)
    (h₃ : 0xDC00 ≤ lo.toNat) (h₄ : lo.toNat ≤ 0xDFFF) :
    (0x10000 + (hi.toUInt32 - 0xD800) * 1024 + (lo.toUInt32 - 0xDC00) : UInt32).toNat =
      0x10000 + (hi.toNat - 0xD800) * 0x400 + (lo.toNat - 0xDC00) := by
  simp only [UInt32.toNat_add, UInt32.toNat_mul, UInt32.toNat_sub, UInt16.toNat_toUInt32, UInt32.reduceToNat]
  omega

/-- A high surrogate followed by `\\u` and a low surrogate reads as the UTF-8 of the code point of
    the pair, wherever the chunks end. -/
theorem parseJSONEscapeSequence_of_surrogates {s : List UInt8} {buf : ReadBuffer} {ws l : List UInt8}
    {d0 d1 d2 d3 e0 e1 e2 e3 : UInt8} (hw : buf.working = byte '\\' :: ws)
    (hb : buf.bytes = byte '\\' :: byte 'u' :: d0 :: d1 :: d2 :: d3 :: byte '\\' :: byte 'u' :: e0 :: e1 :: e2 :: e3 :: l)
    (h₁ : 0xD800 ≤ (unhex4 d0 d1 d2 d3).toNat) (h₂ : (unhex4 d0 d1 d2 d3).toNat ≤ 0xDBFF)
    (h₃ : 0xDC00 ≤ (unhex4 e0 e1 e2 e3).toNat) (h₄ : (unhex4 e0 e1 e2 e3).toNat ≤ 0xDFFF) :
    ∃ buf', parseJSONEscapeSequence s buf =
      .ok (s ++ String.utf8EncodeChar (Char.ofNat (0x10000 + ((unhex4 d0 d1 d2 d3).toNat - 0xD800) * 0x400 +
        ((unhex4 e0 e1 e2 e3).toNat - 0xDC00))), buf') ∧ buf'.bytes = l := by
  obtain ⟨w, he, hw₁, hr, hl⟩ := read_of_unicode hw hb
  -- the second half: `checkString("\\u")`, then four more bytes
  obtain ⟨buf₃, hcheck, hbuf₃⟩ := checkString_of_bytes [byte '\\', byte 'u'] (hl.trans rfl)
  obtain ⟨htake, hdrop⟩ := Stream.read_eq 4 buf₃
  rw [hbuf₃] at htake hdrop
  have hr₂ : buf₃.read 4 = ([e0, e1, e2, e3], (buf₃.read 4).2) := Prod.ext (by simpa using htake) rfl
  refine ⟨(buf₃.read 4).2, ?_, by simpa using hdrop⟩
  set hi := unhex4 d0 d1 d2 d3
  set lo := unhex4 e0 e1 e2 e3
  have h0 : [d0, d1, d2, d3] ≠ [byte '0', byte '0', byte '0', byte '0'] := by
    intro h0
    simp only [List.cons.injEq, and_true] at h0
    obtain ⟨rfl, rfl, rfl, rfl⟩ := h0
    simp [hi, unhex4_zero] at h₁
  have hone : ¬hi ≤ 0x7F := by rw [UInt16.le_iff_toNat_le]; simp; omega
  have htwo : ¬hi ≤ 0x07FF := by rw [UInt16.le_iff_toNat_le]; simp; omega
  have hhigh : hi ≥ 0xD800 ∧ hi ≤ 0xDBFF := by
    rw [ge_iff_le, UInt16.le_iff_toNat_le, UInt16.le_iff_toNat_le]
    simp only [UInt16.reduceToNat]
    omega
  have hlow : lo ≥ 0xDC00 ∧ lo ≤ 0xDFFF := by
    rw [ge_iff_le, UInt16.le_iff_toNat_le, UInt16.le_iff_toNat_le]
    simp only [UInt16.reduceToNat]
    omega
  have hfull := toNat_full_code_point h₁ h₂ h₃ h₄
  rw [← hfull, utf8EncodeChar_of_supplementary _ (by omega) (by omega)]
  simp only [parseJSONEscapeSequence]
  rw [he]
  simp only [Bool.false_eq_true, if_false, hw₁, if_true]
  rw [hr]
  dsimp only
  rw [if_neg h0, if_neg hone, if_neg htwo, if_pos hhigh, hcheck]
  dsimp only
  rw [hr₂]
  dsimp only
  rw [if_pos hlow]
  rfl

/-! ## Pieces -/

/-- What the reader makes of a piece `(written, read)`: a byte it copies as it is, or an escape
    that `parseJSONEscapeSequence` reads as `read` wherever the chunks end. -/
def PieceReads (p : List UInt8 × List UInt8) : Prop :=
  (∃ a, p.1 = [a] ∧ p.2 = [a] ∧ isJSONStop a = false) ∨
    ∃ w, p.1 = byte '\\' :: w ∧ ∀ (s : List UInt8) (buf : ReadBuffer) (ws l : List UInt8),
      buf.working = byte '\\' :: ws → buf.bytes = p.1 ++ l →
        ∃ buf', parseJSONEscapeSequence s buf = .ok (s ++ p.2, buf') ∧ buf'.bytes = l

theorem PieceReads.piece {p : List UInt8 × List UInt8} (h : PieceReads p) : Piece isJSONStop p.1 := by
  rcases h with ⟨a, ha, -, hs⟩ | ⟨w, hw, -⟩
  · exact .inl ⟨a, ha, hs⟩
  · exact .inr ⟨byte '\\', w, hw, by decide⟩

/-- A piece of one byte the search does not stop at is copied: it reads as itself. -/
theorem PieceReads.read_eq {p : List UInt8 × List UInt8} (h : PieceReads p) {a : UInt8} (ha : p.1 = [a])
    (hs : isJSONStop a = false) : p.2 = p.1 := by
  rcases h with ⟨b, hb, hread, -⟩ | ⟨w, hw, -⟩
  · rw [hread, hb]
  · -- an escape starts with the backslash, which the search stops at
    rw [ha, List.cons.injEq] at hw
    rw [hw.1] at hs
    cases hs

theorem flatMap_read_of_plain {ps : List (List UInt8 × List UInt8)} (hps : ∀ p ∈ ps, PieceReads p)
    (h : ∀ p ∈ ps, ∃ a, p.1 = [a] ∧ isJSONStop a = false) : ps.flatMap Prod.snd = ps.flatMap Prod.fst := by
  refine List.flatMap_congr fun p hp => ?_
  obtain ⟨a, ha, hs⟩ := h p hp
  exact (hps p hp).read_eq ha hs

/-- The loop reads pieces followed by the closing quote as what the pieces read, and stops
    right after the quote. -/
theorem readJSONStringLoop_pieces {rest : List UInt8} :
    ∀ (fuel : Nat) (s : List UInt8) (ps : List (List UInt8 × List UInt8)) (buf : ReadBuffer),
      (∀ p ∈ ps, PieceReads p) → buf.bytes = ps.flatMap Prod.fst ++ doubleQuote :: rest →
      buf.bytes.length < fuel →
      ∃ buf', readJSONStringLoop fuel s buf = .ok (s ++ ps.flatMap Prod.snd, buf') ∧ buf'.bytes = rest
  | 0, _, _, _, _, _, hfuel => absurd hfuel (Nat.not_lt_zero _)
  | fuel + 1, s, ps, buf, hps, hb, hfuel => by
    have hnil : buf.bytes ≠ [] := by simp [hb]
    obtain ⟨ps₁, ps₂, rfl, hplain, he, hscan, hrest, hsplit, hnext⟩ :=
      pass_of_pieces (stopsAt_cons (by decide)) (fun p hp => (hps p hp).piece) hb hnil
    have hps₁ : ∀ p ∈ ps₁, PieceReads p := fun p hp => hps p (List.mem_append_left _ hp)
    have hps₂ : ∀ p ∈ ps₂, PieceReads p := fun p hp => hps p (List.mem_append_right _ hp)
    have hrun := flatMap_read_of_plain hps₁ hplain
    set buf₂ := (buf.eof.2.scan isJSONStop).2
    have hunfold : ∀ r, (buf₂.working = [] → readJSONStringLoop fuel (s ++ ps₁.flatMap Prod.fst) buf₂ = r) →
        (∀ c w, buf₂.working = c :: w → (if c = doubleQuote then pure (s ++ ps₁.flatMap Prod.fst, buf₂.skip)
          else if c = byte '\\' then do
            let (s, buf) ← parseJSONEscapeSequence (s ++ ps₁.flatMap Prod.fst) buf₂
            readJSONStringLoop fuel s buf
          else readJSONStringLoop fuel (s ++ ps₁.flatMap Prod.fst) buf₂) = r) →
        readJSONStringLoop (fuel + 1) s buf = r := by
      intro r hnil hcons
      simp only [readJSONStringLoop]
      rw [he]
      simp only [Bool.false_eq_true, if_false]
      rw [hscan]
      cases hw : buf₂.working with
      | nil => exact hnil hw
      | cons c w => exact hcons c w hw
    rw [List.flatMap_append, hrun, ← List.append_assoc]
    rcases hnext with ⟨hw, hne⟩ | ⟨c, w, hw, hc⟩
    · -- the working buffer was used up: the next pass asks for the next chunk
      have hlen : buf₂.bytes.length < fuel := by
        have := List.length_pos_of_ne_nil hne
        omega
      obtain ⟨buf', hread, hbuf'⟩ := readJSONStringLoop_pieces fuel (s ++ ps₁.flatMap Prod.fst) ps₂ buf₂ hps₂ hrest hlen
      exact ⟨buf', hunfold _ (fun _ => hread) (fun c w h => by rw [hw] at h; cases h), hbuf'⟩
    have hquote : doubleQuote ≠ byte '\\' := by decide
    rcases cons_pieces (fun p hp => (hps₂ p hp).piece) ((bytes_of_working hw).trans hrest) with
      ⟨rfl, hsuf⟩ | ⟨p, ps', cs, rfl, hpc, hcs⟩
    · -- the closing quote
      obtain ⟨rfl, -⟩ := List.cons.inj hsuf
      have hskip : buf₂.skip.bytes = rest := by
        have h := Stream.bytes_skip hw
        rw [hrest] at h
        simpa using h.symm
      refine ⟨buf₂.skip, hunfold _ (fun h => by rw [hw] at h; cases h) (fun c' w' h => ?_), hskip⟩
      rw [hw, List.cons.injEq] at h
      rw [← h.1, if_pos rfl]
      simp
    rcases hps₂ p List.mem_cons_self with ⟨a, ha, -, hs⟩ | ⟨w', hw', hread⟩
    · -- a copied byte is not one the search stops at
      rw [ha, List.cons.injEq] at hpc
      rw [← hpc.1, hs] at hc
      cases hc
    · -- an escape: the search stopped on its backslash
      rw [hw', List.cons.injEq] at hpc
      obtain ⟨rfl, rfl⟩ := hpc
      have hbytes : buf₂.bytes = p.1 ++ (ps'.flatMap Prod.fst ++ doubleQuote :: rest) := by
        rw [hrest, List.flatMap_cons, List.append_assoc]
      obtain ⟨buf₃, hparse, hbuf₃⟩ := hread (s ++ ps₁.flatMap Prod.fst) buf₂ w _ hw hbytes
      have hlen : buf₃.bytes.length < fuel := by
        have h₂ := congrArg List.length hbytes
        rw [hw', ← hbuf₃] at h₂
        simp only [List.cons_append, List.length_cons, List.length_append] at h₂
        omega
      have hps' : ∀ q ∈ ps', PieceReads q := fun q hq => hps₂ q (List.mem_cons_of_mem _ hq)
      obtain ⟨buf', hloop, hbuf'⟩ := readJSONStringLoop_pieces fuel _ ps' buf₃ hps' hbuf₃ hlen
      refine ⟨buf', hunfold _ (fun h => by rw [hw] at h; cases h) (fun c' w'' h => ?_), hbuf'⟩
      rw [hw, List.cons.injEq] at h
      rw [← h.1, if_neg hquote.symm, if_pos rfl, hparse, Checked.ok_bind]
      dsimp only
      rw [hloop, List.flatMap_cons]
      simp

/-- Pieces between two quotes read as what the pieces read, and the reader stops right after the
    closing quote. -/
theorem readJSONString_pieces {ps : List (List UInt8 × List UInt8)} (hps : ∀ p ∈ ps, PieceReads p)
    {rest : List UInt8} {buf : ReadBuffer} (hb : buf.bytes = doubleQuote :: (ps.flatMap Prod.fst ++ doubleQuote :: rest)) :
    ∃ buf', readJSONString buf = .ok (ps.flatMap Prod.snd, buf') ∧ buf'.bytes = rest := by
  obtain ⟨w, -, hw⟩ := Stream.eof_working hb
  have he := (Stream.eof_of_ne_nil (s := buf) (by simp [hb])).1
  have hskip : buf.eof.2.skip.bytes = ps.flatMap Prod.fst ++ doubleQuote :: rest := by
    have h := Stream.bytes_skip hw
    rw [Stream.bytes_eof, hb] at h
    exact (List.cons.inj h).2.symm
  obtain ⟨buf', hread, hbuf'⟩ := readJSONStringLoop_pieces (buf.eof.2.bytes.length + 1) [] ps buf.eof.2.skip hps
    hskip (by rw [hskip, Stream.bytes_eof, hb, List.length_cons]; omega)
  refine ⟨buf', ?_, hbuf'⟩
  simp only [readJSONString, readJSONStringInto]
  rw [he]
  simp only [Bool.false_eq_true, false_or, hw, List.head?_cons, ne_eq, not_true_eq_false, if_false]
  simpa using hread

theorem pieceReads_byte {a : UInt8} (hs : isJSONStop a = false) : PieceReads ([a], [a]) :=
  .inl ⟨a, rfl, rfl, hs⟩

theorem pieceReads_letter {e c : UInt8} (hu : e ≠ byte 'u') (hc : jsonEscapedByte e = c) :
    PieceReads ([byte '\\', e], [c]) :=
  .inr ⟨[e], rfl, fun _ _ _ _ hw hb => hc ▸ parseJSONEscapeSequence_of_letter hw hb hu⟩

theorem pieceReads_unicode {d0 d1 d2 d3 : UInt8} (hv : (unhex4 d0 d1 d2 d3).toNat.isValidChar) :
    PieceReads ([byte '\\', byte 'u', d0, d1, d2, d3],
      String.utf8EncodeChar (Char.ofNat (unhex4 d0 d1 d2 d3).toNat)) :=
  .inr ⟨_, rfl, fun _ _ _ _ hw hb => parseJSONEscapeSequence_of_unicode hw hb hv⟩

theorem pieceReads_surrogates {d0 d1 d2 d3 e0 e1 e2 e3 : UInt8}
    (h₁ : 0xD800 ≤ (unhex4 d0 d1 d2 d3).toNat) (h₂ : (unhex4 d0 d1 d2 d3).toNat ≤ 0xDBFF)
    (h₃ : 0xDC00 ≤ (unhex4 e0 e1 e2 e3).toNat) (h₄ : (unhex4 e0 e1 e2 e3).toNat ≤ 0xDFFF) :
    PieceReads ([byte '\\', byte 'u', d0, d1, d2, d3, byte '\\', byte 'u', e0, e1, e2, e3],
      String.utf8EncodeChar (Char.ofNat (0x10000 + ((unhex4 d0 d1 d2 d3).toNat - 0xD800) * 0x400 +
        ((unhex4 e0 e1 e2 e3).toNat - 0xDC00))))  := by
  refine .inr ⟨_, rfl, fun s buf ws l hw hb => ?_⟩
  have hb' : buf.bytes =
      byte '\\' :: byte 'u' :: d0 :: d1 :: d2 :: d3 :: byte '\\' :: byte 'u' :: e0 :: e1 :: e2 :: e3 :: l := by
    rw [hb]
    simp only [List.cons_append, List.nil_append]
  -- the read bytes are stated through `Prod.snd`, which the unifier would unfold too far
  obtain ⟨buf', hparse, hbuf'⟩ := parseJSONEscapeSequence_of_surrogates (s := s) hw hb' h₁ h₂ h₃ h₄
  refine ⟨buf', ?_, hbuf'⟩
  dsimp only
  rw [hparse]

/-! ## The writer's pieces -/

theorem utf8EncodeChar_of_ascii (b : UInt8) (h : b.toNat < 0x80) : String.utf8EncodeChar (Char.ofNat b.toNat) = [b] := by
  rw [String.utf8EncodeChar, val_ofNat (.inl (by omega))]
  simp [show b.toNat ≤ 0x7f by omega]

/-- The `\\u00XX` of a control byte reads as the byte. -/
theorem pieceReads_control {c : UInt8} (hc : c ≤ 0x1F) :
    PieceReads ([byte '\\', byte 'u', byte '0', byte '0', byte '0' + (c >>> 4),
      if c &&& 0xF ≤ 9 then byte '0' + (c &&& 0xF) else byte 'A' + (c &&& 0xF) - 10], [c]) := by
  have hlt : c.toNat < 32 := by
    rw [UInt8.le_iff_toNat_le] at hc
    simp at hc
    omega
  -- the two hex digits of each of the 32 control bytes
  have hdigits : ∀ n < 32, (unhex4 (byte '0') (byte '0') (byte '0' + (UInt8.ofNat n >>> 4))
      (if UInt8.ofNat n &&& 0xF ≤ 9 then byte '0' + (UInt8.ofNat n &&& 0xF)
        else byte 'A' + (UInt8.ofNat n &&& 0xF) - 10)).toNat = n := by decide
  have hn := hdigits c.toNat hlt
  rw [UInt8.ofNat_toNat] at hn
  have hv : Nat.isValidChar (unhex4 (byte '0') (byte '0') (byte '0' + (c >>> 4))
      (if c &&& 0xF ≤ 9 then byte '0' + (c &&& 0xF) else byte 'A' + (c &&& 0xF) - 10)).toNat := by
    rw [hn]
    exact .inl (by omega)
  have h := pieceReads_unicode hv
  rwa [hn, utf8EncodeChar_of_ascii c (by omega)] at h

/-- The escapes of the line separators read as their three bytes. -/
theorem pieceReads_line_separator {c₂ : UInt8} (h : c₂ = 0xA8 ∨ c₂ = 0xA9) :
    PieceReads ((if c₂ = 0xA8 then [byte '\\', byte 'u', byte '2', byte '0', byte '2', byte '8'] else []) ++
      (if c₂ = 0xA9 then [byte '\\', byte 'u', byte '2', byte '0', byte '2', byte '9'] else []), [0xE2, 0x80, c₂]) := by
  rcases h with rfl | rfl
  · have h : PieceReads ([byte '\\', byte 'u', byte '2', byte '0', byte '2', byte '8'],
        String.utf8EncodeChar (Char.ofNat (unhex4 (byte '2') (byte '0') (byte '2') (byte '8')).toNat)) :=
      pieceReads_unicode (by decide)
    rwa [show String.utf8EncodeChar (Char.ofNat (unhex4 (byte '2') (byte '0') (byte '2') (byte '8')).toNat) =
      [0xE2, 0x80, 0xA8] by decide] at h
  · have h : PieceReads ([byte '\\', byte 'u', byte '2', byte '0', byte '2', byte '9'],
        String.utf8EncodeChar (Char.ofNat (unhex4 (byte '2') (byte '0') (byte '2') (byte '9')).toNat)) :=
      pieceReads_unicode (by decide)
    rwa [show String.utf8EncodeChar (Char.ofNat (unhex4 (byte '2') (byte '0') (byte '2') (byte '9')).toNat) =
      [0xE2, 0x80, 0xA9] by decide] at h

/-- One step of the writer: a first piece of the string, and the rest written after it. -/
def WritesPiece (c : UInt8) (rest : List UInt8) : Prop :=
  ∃ p rest', PieceReads p ∧ c :: rest = p.2 ++ rest' ∧ rest'.length ≤ rest.length ∧
    writeJSONStringBody (c :: rest) = p.1 ++ writeJSONStringBody rest'

theorem writesPiece_of_escaped {c e : UInt8} {rest : List UInt8} (hu : e ≠ byte 'u') (hc : jsonEscapedByte e = c)
    (hw : writeJSONStringBody (c :: rest) = byte '\\' :: e :: writeJSONStringBody rest) : WritesPiece c rest :=
  ⟨([byte '\\', e], [c]), rest, pieceReads_letter hu hc, rfl, le_rfl, hw⟩

theorem writesPiece_of_plain {c : UInt8} {rest : List UInt8} (h₁ : c ≠ byte '\\') (h₂ : c ≠ byte '"')
    (hw : writeJSONStringBody (c :: rest) = c :: writeJSONStringBody rest) : WritesPiece c rest := by
  have hs : isJSONStop c = false := by
    simp only [isJSONStop, Bool.or_eq_false_iff, beq_eq_false_iff_ne]
    exact ⟨h₁, h₂⟩
  exact ⟨([c], [c]), rest, pieceReads_byte hs, rfl, le_rfl, hw⟩

/-- A branch of the `switch` that writes a two-byte escape, or the branches after it. -/
theorem writesPiece_of_ite {c e x : UInt8} {rest other : List UInt8} (hu : e ≠ byte 'u') (hx : jsonEscapedByte e = x)
    (hbody : writeJSONStringBody (c :: rest) = if c = x then byte '\\' :: e :: writeJSONStringBody rest else other)
    (hnext : writeJSONStringBody (c :: rest) = other → c ≠ x → WritesPiece c rest) : WritesPiece c rest := by
  by_cases h : c = x
  · rw [if_pos h] at hbody
    exact writesPiece_of_escaped hu (hx.trans h.symm) hbody
  · rw [if_neg h] at hbody
    exact hnext hbody h

/-- Every byte string starts with a piece the writer writes and the reader reads back. -/
theorem writesPiece (c : UInt8) (rest : List UInt8) : WritesPiece c rest := by
  have hbody := writeJSONStringBody.eq_def (c :: rest)
  dsimp only at hbody
  -- the eight two-byte escapes, in the order of the `switch`
  refine writesPiece_of_ite (by decide) (by decide) hbody fun hbody _ => ?_
  refine writesPiece_of_ite (by decide) (by decide) hbody fun hbody _ => ?_
  refine writesPiece_of_ite (by decide) (by decide) hbody fun hbody _ => ?_
  refine writesPiece_of_ite (by decide) (by decide) hbody fun hbody _ => ?_
  refine writesPiece_of_ite (by decide) (by decide) hbody fun hbody _ => ?_
  refine writesPiece_of_ite (by decide) (by decide) hbody fun hbody hslash => ?_
  refine writesPiece_of_ite (by decide) (by decide) hbody fun hbody _ => ?_
  refine writesPiece_of_ite (by decide) (by decide) hbody fun hbody hquote => ?_
  by_cases hc : c ≤ 0x1F
  · -- a control byte
    rw [if_pos hc] at hbody
    exact ⟨_, rest, pieceReads_control hc, rfl, le_rfl, hbody⟩
  rw [if_neg hc] at hbody
  -- a line separator, or a byte written as it is
  match rest, hbody with
  | c₁ :: c₂ :: rest', hbody =>
    dsimp only at hbody
    by_cases hsep : c = 0xE2 ∧ c₁ = 0x80 ∧ (c₂ = 0xA8 ∨ c₂ = 0xA9)
    · rw [if_pos hsep] at hbody
      obtain ⟨rfl, rfl, hc₂⟩ := hsep
      refine ⟨_, rest', pieceReads_line_separator hc₂, rfl, by simp only [List.length_cons]; omega, ?_⟩
      rw [hbody, List.append_assoc]
    · rw [if_neg hsep] at hbody
      exact writesPiece_of_plain hslash hquote hbody
  | [], hbody => exact writesPiece_of_plain hslash hquote hbody
  | [c₁], hbody => exact writesPiece_of_plain hslash hquote hbody

/-- The writer's output is pieces that read back as the string. -/
theorem exists_pieces_writeJSONStringBody (t : List UInt8) :
    ∃ ps : List (List UInt8 × List UInt8), (∀ p ∈ ps, PieceReads p) ∧
      ps.flatMap Prod.fst = writeJSONStringBody t ∧ ps.flatMap Prod.snd = t := by
  match t with
  | [] => exact ⟨[], by simp, by simp [writeJSONStringBody], rfl⟩
  | c :: rest =>
    obtain ⟨p, rest', hp, ht, hlen, hw⟩ := writesPiece c rest
    obtain ⟨ps, hps, hfst, hsnd⟩ := exists_pieces_writeJSONStringBody rest'
    refine ⟨p :: ps, ?_, by rw [List.flatMap_cons, hfst, hw], by rw [List.flatMap_cons, hsnd, ht]⟩
    intro q hq
    rcases List.mem_cons.mp hq with rfl | hq
    · exact hp
    · exact hps q hq
termination_by t.length
decreasing_by simp only [List.length_cons]; omega

/-- `writeJSONString` of any byte string reads back as it, and the reader stops right after it. -/
theorem readJSONString_writeJSONString (t rest : List UInt8) (buf : ReadBuffer)
    (hb : buf.bytes = writeJSONString t ++ rest) :
    ∃ buf', readJSONString buf = .ok (t, buf') ∧ buf'.bytes = rest := by
  obtain ⟨ps, hps, hfst, hsnd⟩ := exists_pieces_writeJSONStringBody t
  rw [← hsnd]
  exact readJSONString_pieces hps (by rw [hb, writeJSONString, hfst]; simp)

/-! ## JSON string literals

  A literal as RFC 8259 (section 7) writes it, element by element, and the code point each
  element stands for: the specification `readJSONString` is checked against. -/

/-- The two-character escapes: the character and the letter after the backslash. -/
def shortEscapes : List (Char × Char) :=
  [('"', '"'), ('\\', '\\'), ('/', '/'), ('\x08', 'b'), ('\x0c', 'f'), ('\n', 'n'), ('\r', 'r'), ('\t', 't')]

/-- The spellings of a hex digit of value `v < 16`: `0`–`9`, or `A`–`F` and `a`–`f`. -/
def hexDigitSpellings (v : Nat) : List UInt8 :=
  if v < 10 then [UInt8.ofNat (48 + v)] else [UInt8.ofNat (55 + v), UInt8.ofNat (87 + v)]

/-- The spellings of `v` in `n` hex digits, the most significant first. -/
def hexSpellings (v : Nat) : Nat → List (List UInt8)
  | 0 => [[]]
  | n + 1 => (hexSpellings (v / 16) n).flatMap fun d => (hexDigitSpellings (v % 16)).map fun b => d ++ [b]

/-- An element of a JSON string literal, between its quotes. -/
inductive JSONChar where
  /-- a character, written as its UTF-8 bytes -/
  | unescaped (c : Char)
  /-- a backslash and the letter `e`, for the character `c` -/
  | escaped (c e : Char)
  /-- `\\u` and the four hex digits `d` of the code point `v` -/
  | unicode (d : List UInt8) (v : Nat)
  /-- a surrogate pair: `\\u` and the digits `d₁` of `v₁`, then `\\u` and the digits `d₂` of `v₂` -/
  | surrogates (d₁ : List UInt8) (v₁ : Nat) (d₂ : List UInt8) (v₂ : Nat)
  deriving DecidableEq, Repr

namespace JSONChar

/-- The bytes of the element in the literal. -/
def text : JSONChar → List UInt8
  | unescaped c => String.utf8EncodeChar c
  | escaped _ e => [byte '\\', byte e]
  | unicode d _ => byte '\\' :: byte 'u' :: d
  | surrogates d₁ _ d₂ _ => byte '\\' :: byte 'u' :: d₁ ++ byte '\\' :: byte 'u' :: d₂

/-- The code point the element stands for. -/
def codePoint : JSONChar → Char
  | unescaped c => c
  | escaped c _ => c
  | unicode _ v => Char.ofNat v
  | surrogates _ v₁ _ v₂ => Char.ofNat (0x10000 + (v₁ - 0xD800) * 0x400 + (v₂ - 0xDC00))

/-- A well-formed element: an unescaped character is no quote, backslash or control character;
    a `\\u` escape stands for a code point that is no surrogate; a pair is a high surrogate and a
    low one. -/
def WellFormed : JSONChar → Prop
  | unescaped c => c ≠ '"' ∧ c ≠ '\\' ∧ 0x20 ≤ c.toNat
  | escaped c e => (c, e) ∈ shortEscapes
  | unicode d v => d ∈ hexSpellings v 4 ∧ v < 0x10000 ∧ (v < 0xD800 ∨ 0xDFFF < v)
  | surrogates d₁ v₁ d₂ v₂ =>
    d₁ ∈ hexSpellings v₁ 4 ∧ d₂ ∈ hexSpellings v₂ 4 ∧ 0xD800 ≤ v₁ ∧ v₁ ≤ 0xDBFF ∧ 0xDC00 ≤ v₂ ∧ v₂ ≤ 0xDFFF

instance : DecidablePred WellFormed := fun x =>
  match x with
  | unescaped c => inferInstanceAs (Decidable (c ≠ '"' ∧ c ≠ '\\' ∧ 0x20 ≤ c.toNat))
  | escaped c e => inferInstanceAs (Decidable ((c, e) ∈ shortEscapes))
  | unicode d v => inferInstanceAs (Decidable (d ∈ hexSpellings v 4 ∧ v < 0x10000 ∧ (v < 0xD800 ∨ 0xDFFF < v)))
  | surrogates d₁ v₁ d₂ v₂ => inferInstanceAs (Decidable
      (d₁ ∈ hexSpellings v₁ 4 ∧ d₂ ∈ hexSpellings v₂ 4 ∧ 0xD800 ≤ v₁ ∧ v₁ ≤ 0xDBFF ∧ 0xDC00 ≤ v₂ ∧ v₂ ≤ 0xDFFF))

/-- The literal of a list of elements: the elements between two quotes. -/
def literal (j : List JSONChar) : List UInt8 := doubleQuote :: j.flatMap text ++ [doubleQuote]

end JSONChar

/-! ## What the reader makes of a literal -/

/-- `unhex` of every spelling of a hex digit is its value. -/
theorem unhexWide_of_mem {v : Nat} (hv : v < 16) {b : UInt8} (hb : b ∈ hexDigitSpellings v) :
    (unhexWide b).toNat = v := by
  -- the sixteen digits and their spellings, computed
  have hdigits : ∀ v < 16, (hexDigitSpellings v).all (fun b => (unhexWide b).toNat == v) = true := by decide
  simpa using List.all_eq_true.mp (hdigits v hv) b hb

/-- Hex digits read back, most significant first, as the value they spell below `16 ^ n`. -/
theorem mem_hexSpellings : ∀ {n v : Nat} {d : List UInt8}, d ∈ hexSpellings v n →
    d.length = n ∧ d.foldl (fun acc b => 16 * acc + (unhexWide b).toNat) 0 = v % 16 ^ n
  | 0, v, d, h => by
    simp only [hexSpellings, List.mem_singleton] at h
    simp [h, Nat.mod_one]
  | n + 1, v, d, h => by
    simp only [hexSpellings, List.mem_flatMap, List.mem_map] at h
    obtain ⟨d', hd', b, hb, rfl⟩ := h
    obtain ⟨hlen, hval⟩ := mem_hexSpellings hd'
    have hdigit := unhexWide_of_mem (Nat.mod_lt v (by norm_num)) hb
    refine ⟨by simp [hlen], ?_⟩
    rw [List.foldl_append, hval, List.foldl_cons, List.foldl_nil, hdigit, pow_succ', Nat.mod_mul]
    ring

/-- Four hex digits of `v`, as `unhex4` reads them. -/
theorem unhex4_of_mem_hexSpellings {d : List UInt8} {v : Nat} (hv : v < 0x10000) (hd : d ∈ hexSpellings v 4) :
    ∃ d0 d1 d2 d3, d = [d0, d1, d2, d3] ∧ (unhex4 d0 d1 d2 d3).toNat = v := by
  obtain ⟨hlen, hval⟩ := mem_hexSpellings hd
  match d, hlen, hval with
  | [d0, d1, d2, d3], _, hval =>
    refine ⟨d0, d1, d2, d3, rfl, ?_⟩
    simp only [List.foldl_cons, List.foldl_nil] at hval
    simp only [unhex4, UInt16.toNat_add, UInt16.toNat_mul, UInt16.reduceToNat]
    omega

/-- A byte of the UTF-8 of a character is the character itself, or at least `0x80`. -/
theorem mem_utf8EncodeChar {c : Char} {b : UInt8} (h : b ∈ String.utf8EncodeChar c) :
    b.toNat = c.val.toNat ∨ 0x80 ≤ b.toNat := by
  have hc : c.val.toNat < 0x110000 := by
    rcases c.valid with h | ⟨-, h⟩ <;> omega
  unfold String.utf8EncodeChar at h
  dsimp only at h
  split_ifs at h with h₁ h₂ h₃ <;> simp only [List.mem_cons, List.not_mem_nil, or_false] at h
  · subst h
    left
    rw [UInt8.toNat_ofNat']
    omega
  all_goals
    rcases h with rfl | rfl | rfl | rfl <;> (right; rw [UInt8.toNat_ofNat']; omega)

/-- No byte of the UTF-8 of a character other than the quote and the backslash stops the search. -/
theorem isJSONStop_of_mem_utf8EncodeChar {c : Char} (hq : c ≠ '"') (hs : c ≠ '\\') {b : UInt8}
    (h : b ∈ String.utf8EncodeChar c) : isJSONStop b = false := by
  have hq' : c.val.toNat ≠ 34 := fun h => hq (Char.ext (UInt32.toNat_inj.mp h))
  have hs' : c.val.toNat ≠ 92 := fun h => hs (Char.ext (UInt32.toNat_inj.mp h))
  have hb : b.toNat ≠ 92 ∧ b.toNat ≠ 34 := by
    rcases mem_utf8EncodeChar h with h | h <;> omega
  simp only [isJSONStop, Bool.or_eq_false_iff, beq_eq_false_iff_ne]
  exact ⟨fun h => hb.1 (by rw [h]; decide), fun h => hb.2 (by rw [h]; decide)⟩

/-- Each two-character escape reads as the UTF-8 of its character. -/
theorem shortEscapes_read :
    ∀ x ∈ shortEscapes, byte x.2 ≠ byte 'u' ∧ [jsonEscapedByte (byte x.2)] = String.utf8EncodeChar x.1 := by
  decide

/-- Bytes copied one at a time: each is a piece that reads as itself. -/
theorem flatMap_map_copy (l : List UInt8) :
    (l.map fun b => ([b], [b])).flatMap Prod.fst = l ∧ (l.map fun b => ([b], [b])).flatMap Prod.snd = l := by
  induction l with
  | nil => simp
  | cons b l ih => simp [ih.1, ih.2]

namespace JSONChar
/-- A well-formed element is pieces that read as the UTF-8 of its code point. -/
theorem exists_pieces {x : JSONChar} (h : x.WellFormed) :
    ∃ ps : List (List UInt8 × List UInt8), (∀ p ∈ ps, PieceReads p) ∧ ps.flatMap Prod.fst = x.text ∧
      ps.flatMap Prod.snd = String.utf8EncodeChar x.codePoint := by
  cases x with
  | unescaped c =>
    -- its UTF-8 bytes, each copied as it is
    obtain ⟨hq, hs, -⟩ := h
    obtain ⟨hfst, hsnd⟩ := flatMap_map_copy (String.utf8EncodeChar c)
    refine ⟨(String.utf8EncodeChar c).map fun b => ([b], [b]), ?_, hfst, hsnd⟩
    intro p hp
    obtain ⟨b, hb, rfl⟩ := List.mem_map.mp hp
    exact pieceReads_byte (isJSONStop_of_mem_utf8EncodeChar hq hs hb)
  | escaped c e =>
    obtain ⟨hu, hread⟩ := shortEscapes_read _ h
    refine ⟨[([byte '\\', byte e], String.utf8EncodeChar c)], ?_, by simp [text], by simp [codePoint]⟩
    intro p hp
    rw [List.mem_singleton.mp hp, ← hread]
    exact pieceReads_letter hu rfl
  | unicode d v =>
    obtain ⟨hd, hv, hsur⟩ := h
    obtain ⟨d0, d1, d2, d3, rfl, hcp⟩ := unhex4_of_mem_hexSpellings hv hd
    have hp : PieceReads ([byte '\\', byte 'u', d0, d1, d2, d3],
        String.utf8EncodeChar (Char.ofNat (unhex4 d0 d1 d2 d3).toNat)) := pieceReads_unicode (by rw [hcp]; omega)
    rw [hcp] at hp
    refine ⟨[([byte '\\', byte 'u', d0, d1, d2, d3], String.utf8EncodeChar (Char.ofNat v))], ?_,
      by simp [text], by simp [codePoint]⟩
    intro p hp'
    rw [List.mem_singleton.mp hp']
    exact hp
  | surrogates d₁ v₁ d₂ v₂ =>
    obtain ⟨hd₁, hd₂, h₁, h₂, h₃, h₄⟩ := h
    obtain ⟨d0, d1, d2, d3, rfl, hhi⟩ := unhex4_of_mem_hexSpellings (by omega) hd₁
    obtain ⟨e0, e1, e2, e3, rfl, hlo⟩ := unhex4_of_mem_hexSpellings (by omega) hd₂
    have hp : PieceReads ([byte '\\', byte 'u', d0, d1, d2, d3, byte '\\', byte 'u', e0, e1, e2, e3],
        String.utf8EncodeChar (Char.ofNat (0x10000 + ((unhex4 d0 d1 d2 d3).toNat - 0xD800) * 0x400 +
          ((unhex4 e0 e1 e2 e3).toNat - 0xDC00)))) :=
      pieceReads_surrogates (by omega) (by omega) (by omega) (by omega)
    rw [hhi, hlo] at hp
    refine ⟨[([byte '\\', byte 'u', d0, d1, d2, d3, byte '\\', byte 'u', e0, e1, e2, e3],
      String.utf8EncodeChar (Char.ofNat (0x10000 + (v₁ - 0xD800) * 0x400 + (v₂ - 0xDC00))))], ?_,
      by simp [text], by simp [codePoint]⟩
    intro p hp'
    rw [List.mem_singleton.mp hp']
    exact hp

/-- The elements of a well-formed literal are pieces that read as the UTF-8 of their code points. -/
theorem exists_pieces_flatMap : ∀ {j : List JSONChar}, (∀ x ∈ j, x.WellFormed) →
    ∃ ps : List (List UInt8 × List UInt8), (∀ p ∈ ps, PieceReads p) ∧ ps.flatMap Prod.fst = j.flatMap text ∧
      ps.flatMap Prod.snd = (j.map codePoint).flatMap String.utf8EncodeChar
  | [], _ => ⟨[], by simp, rfl, rfl⟩
  | x :: j, hj => by
    obtain ⟨ps₁, hps₁, hfst₁, hsnd₁⟩ := exists_pieces (hj x List.mem_cons_self)
    obtain ⟨ps₂, hps₂, hfst₂, hsnd₂⟩ := exists_pieces_flatMap fun y hy => hj y (List.mem_cons_of_mem _ hy)
    refine ⟨ps₁ ++ ps₂, ?_, by rw [List.flatMap_append, hfst₁, hfst₂, List.flatMap_cons], ?_⟩
    · intro p hp
      rcases List.mem_append.mp hp with hp | hp
      · exact hps₁ p hp
      · exact hps₂ p hp
    · rw [List.flatMap_append, hsnd₁, hsnd₂, List.map_cons, List.flatMap_cons]
end JSONChar

/-- A well-formed literal reads as the UTF-8 of its code points, and the reader stops right after it. -/
theorem readJSONString_literal (j : List JSONChar) (rest : List UInt8) (buf : ReadBuffer)
    (hj : ∀ x ∈ j, x.WellFormed) (hb : buf.bytes = JSONChar.literal j ++ rest) :
    ∃ buf', readJSONString buf = .ok ((j.map JSONChar.codePoint).flatMap String.utf8EncodeChar, buf') ∧
      buf'.bytes = rest := by
  obtain ⟨ps, hps, hfst, hsnd⟩ := JSONChar.exists_pieces_flatMap hj
  rw [← hsnd]
  exact readJSONString_pieces hps (by rw [hb, JSONChar.literal, hfst]; simp)

/-- JSON strings: the writer's output reads back as the string, and a well-formed literal
    reads as the UTF-8 of its code points, for every cut of the bytes into chunks. -/
theorem json_strings_round_trip :
    (∀ (s rest : List UInt8) (buf : ReadBuffer), buf.bytes = writeJSONString s ++ rest →
      ∃ buf', readJSONString buf = .ok (s, buf') ∧ buf'.bytes = rest) ∧
    (∀ (j : List JSONChar) (rest : List UInt8) (buf : ReadBuffer), (∀ x ∈ j, x.WellFormed) →
      buf.bytes = JSONChar.literal j ++ rest →
      ∃ buf', readJSONString buf = .ok ((j.map JSONChar.codePoint).flatMap String.utf8EncodeChar, buf') ∧
        buf'.bytes = rest) :=
  ⟨readJSONString_writeJSONString, readJSONString_literal⟩

/-- A line separator written as `\u2028`, and `é` and the pair `\ud83d\ude00`, cut between chunks
    inside their escapes. -/
theorem json_strings_split_escapes :
    (∃ buf', readJSONString (Stream.ofChunks [[34, 92, 117], [50, 48], [50, 56, 34]] (by decide)) =
      .ok ([0xE2, 0x80, 0xA8], buf') ∧ buf'.bytes = []) ∧
    (∃ buf', readJSONString (Stream.ofChunks
        [[34, 92, 117, 48], [48, 101, 57, 92, 117, 100, 56], [51, 100, 92, 117, 100, 101, 48, 48, 34]] (by decide)) =
      .ok ([0xC3, 0xA9, 0xF0, 0x9F, 0x98, 0x80], buf') ∧ buf'.bytes = []) :=
  ⟨json_strings_round_trip.1 [0xE2, 0x80, 0xA8] [] _ (by decide),
    json_strings_round_trip.2
      [.unicode [48, 48, 101, 57] 0xE9, .surrogates [100, 56, 51, 100] 0xD83D [100, 101, 48, 48] 0xDE00] [] _
      (by decide) (by decide)⟩

end ClickHouseGpu.IO
