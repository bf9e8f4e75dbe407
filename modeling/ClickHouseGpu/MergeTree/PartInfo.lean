import Mathlib.Data.BitVec
import Mathlib.Data.Char
import Mathlib.Data.List.Lex
import Mathlib.Data.Prod.Lex

/-
  ClickHouseGpu.MergeTree.PartInfo — the name of a data part and the information it encodes.

  A part directory is named `partition_id _ min_block _ max_block _ level`
  (`MergeTreePartInfo::getPartName`), the numbers in decimal (`writeIntText`); in the old
  format the partition is replaced by the first and last day `YYYYMMDD`
  (`getPartNameV0`) and recovered as `YYYYMM` of the first. `tryParsePartName` reads a name
  back through `readIntTextImpl`, which skips `'+'`, takes a `'-'` anywhere among the digits as
  the sign, stops with success at the first other character (reading nothing as 0) and
  wraps on overflow.

  Integers are words of `w` bits (`BitVec w`): `Int64` and `UInt32` wrap the same way, and
  the signed overflow the source's own note accepts (`Int64` minimum read as `-(2^63)`) is the
  two's-complement wrap.

  Proved:
  - `readIntTextImpl_writeUIntText`, `readIntTextImpl_writeSIntText`: the printed decimal form
    of every word reads back as the word, `Int64` minimum included.
  - `tryParsePartName_getPartName`, `tryParsePartName_getPartNameV0`: a printed name parses
    back to the info it was printed from (old format: with the partition `YYYYMM`).
  - `part_name_round_trip`: the printer's names parse back, and a parsed name's info prints to
    a name that parses to the same info; the parser accepts more than the printer produces
    (`leading_zero_name_parses`).
  - `contains_trans`, `eq_of_contains_of_contains`: `contains` orders the parts partially;
    `min_le_of_le`: in one partition `operator<` orders by `min_block` first.
-/

namespace ClickHouseGpu.MergeTree.PartInfo

/-- `MergeTreePartInfo`: the partition and the range of blocks contained in the part. -/
structure MergeTreePartInfo where
  partition_id : List Char
  min_block : Int64
  max_block : Int64
  level : UInt32
  deriving DecidableEq, Repr

/-- Formats from this version on name parts by their partition id. -/
def MERGE_TREE_DATA_MIN_FORMAT_VERSION_WITH_CUSTOM_PARTITIONING : Nat := 1

/-! ## Order and containment -/

namespace MergeTreePartInfo

/-- The tuple `operator<` compares: `(partition_id, min_block, max_block, level)`, the
    partition ids character by character, the block numbers signed. -/
def orderKey (p : MergeTreePartInfo) : List Char ×ₗ (Int ×ₗ (Int ×ₗ Nat)) :=
  toLex (p.partition_id, toLex (p.min_block.toInt, toLex (p.max_block.toInt, p.level.toNat)))

theorem orderKey_injective : Function.Injective orderKey := by
  intro p q h
  simp only [orderKey, toLex_inj, Prod.mk.injEq] at h
  obtain ⟨h1, h2, h3, h4⟩ := h
  cases p
  cases q
  simp_all [Int64.toInt_inj, UInt32.toNat_inj]

/-- `operator<`: `std::forward_as_tuple(...) < std::forward_as_tuple(...)`. -/
instance : LinearOrder MergeTreePartInfo := LinearOrder.lift' orderKey orderKey_injective

/-- `contains`: `rhs` is this part or was merged into it. -/
def contains (p rhs : MergeTreePartInfo) : Bool :=
  p.partition_id = rhs.partition_id && p.min_block ≤ rhs.min_block && p.max_block ≥ rhs.max_block &&
    p.level ≥ rhs.level

/-- `isDisjoint`: the parts do not intersect in any way. -/
def isDisjoint (p rhs : MergeTreePartInfo) : Bool :=
  p.partition_id ≠ rhs.partition_id || p.min_block > rhs.max_block || p.max_block < rhs.min_block

end MergeTreePartInfo

/-! ## Integers as text -/

/-- The loop of `readIntTextImpl` from its first character on: `x` the value read so far,
    `negative` whether a `'-'` was seen. `none` is the `false` an unsigned type returns at a
    `'-'`; the value and the characters left are what a successful read returns. -/
def readIntTextLoop {w : Nat} (is_signed : Bool) : List Char → BitVec w → Bool → Option (BitVec w × List Char)
  | [], x, negative => some (if negative then -x else x, [])
  | c :: cs, x, negative =>
    if c = '+' then readIntTextLoop is_signed cs x negative
    else if c = '-' then
      if is_signed then readIntTextLoop is_signed cs x true else none
    else if c.isDigit then readIntTextLoop is_signed cs (x * 10 + BitVec.ofNat w (c.toNat - '0'.toNat)) negative
    -- any other character ends the number, read or not
    else some (if negative then -x else x, c :: cs)

/-- `tryReadIntText` / `readIntTextImpl<T, bool>` for a `w`-bit type, signed or not: `false` at
    the end of the buffer. -/
def readIntTextImpl (w : Nat) (is_signed : Bool) : List Char → Option (BitVec w × List Char)
  | [] => none
  | c :: cs => readIntTextLoop is_signed (c :: cs) 0 false

/-- The digits of `x` in front of `acc`: the loop `*pos = '0' + x % 10; x /= 10` of
    `writeUIntTextFallback`, which fills its buffer from the end. -/
def digitsOnto (x : Nat) (acc : List Char) : List Char :=
  if x = 0 then acc else digitsOnto (x / 10) (Char.ofNat ('0'.toNat + x % 10) :: acc)
termination_by x
decreasing_by omega

/-- `writeUIntText`: the decimal digits of `x`, `"0"` for zero (the two-digit table of the fast
    path writes the same digits). -/
def writeUIntText (x : Nat) : List Char :=
  if x = 0 then ['0'] else digitsOnto x []

/-- `writeSIntText` for `Int64`: the minimum is written out, a negative value as `'-'` and the
    digits of its negation read unsigned. -/
def writeSIntText (x : Int64) : List Char :=
  if x = Int64.minValue then "-9223372036854775808".toList
  else if x < 0 then '-' :: writeUIntText (-x).toUInt64.toNat
  else writeUIntText x.toUInt64.toNat

/-! ## Names -/

/-- `checkChar`: consumes `c` when it is next; `false` (here `none`) otherwise. -/
def checkChar (c : Char) : List Char → Option (List Char)
  | d :: cs => if d = c then some cs else none
  | [] => none

/-- The new format's partition loop: characters up to the first `'_'`, which is consumed, or up
    to the end. -/
def readPartitionId : List Char → List Char × List Char
  | [] => ([], [])
  | c :: cs => if c = '_' then ([], cs) else ((c :: (readPartitionId cs).1), (readPartitionId cs).2)

/-- The part of `tryParsePartName` before the block numbers: the partition id and what is left,
    or `none` where the old format's dates do not parse. -/
def readPartitionPrefix (format_version : Nat) (dir_name : List Char) : Option (List Char × List Char) :=
  if format_version < MERGE_TREE_DATA_MIN_FORMAT_VERSION_WITH_CUSTOM_PARTITIONING then do
    let (min_yyyymmdd, in₁) ← readIntTextImpl 32 false dir_name
    let in₂ ← checkChar '_' in₁
    let (_max_yyyymmdd, in₃) ← readIntTextImpl 32 false in₂
    let in₄ ← checkChar '_' in₃
    -- `partition_id = toString(min_yyyymmdd / 100)`
    pure (writeUIntText (min_yyyymmdd.toNat / 100), in₄)
  else some (readPartitionId dir_name)

/-- `MergeTreePartInfo::tryParsePartName`: the info when the whole name parses. -/
def tryParsePartName (dir_name : List Char) (format_version : Nat) : Option MergeTreePartInfo := do
  let (partition_id, in₁) ← readPartitionPrefix format_version dir_name
  let (min_block_num, in₂) ← readIntTextImpl 64 true in₁
  let in₃ ← checkChar '_' in₂
  let (max_block_num, in₄) ← readIntTextImpl 64 true in₃
  let in₅ ← checkChar '_' in₄
  let (level, in₆) ← readIntTextImpl 32 false in₅
  -- `in.eof()`: nothing may follow the level
  if in₆ = [] then
    some ⟨partition_id, Int64.ofBitVec min_block_num, Int64.ofBitVec max_block_num, UInt32.ofBitVec level⟩
  else none

/-- `MergeTreePartInfo::fromPartName`: `tryParsePartName` or an exception. -/
def fromPartName (dir_name : List Char) (format_version : Nat) : Except String MergeTreePartInfo :=
  match tryParsePartName dir_name format_version with
  | some part_info => .ok part_info
  | none => .error ("Unexpected part name: " ++ String.ofList dir_name)

/-- `MergeTreePartInfo::getPartName`. -/
def getPartName (info : MergeTreePartInfo) : List Char :=
  info.partition_id ++ '_' :: writeSIntText info.min_block ++ '_' :: writeSIntText info.max_block ++
    '_' :: writeUIntText info.level.toNat

/-- `MergeTreePartInfo::getPartNameV0`, given the days `date_lut.toNumYYYYMMDD` makes of the left
    and right date. -/
def getPartNameV0 (info : MergeTreePartInfo) (left_date_id right_date_id : UInt32) : List Char :=
  writeUIntText left_date_id.toNat ++ '_' :: writeUIntText right_date_id.toNat ++
    '_' :: writeSIntText info.min_block ++ '_' :: writeSIntText info.max_block ++
    '_' :: writeUIntText info.level.toNat

/-! ## Decimal digits read back -/

/-- What may follow a number: nothing, or a character that ends `readIntTextImpl`'s loop. -/
def EndsNumber (r : List Char) : Prop := ∀ c cs, r = c :: cs → c.isDigit = false ∧ c ≠ '+' ∧ c ≠ '-'

theorem endsNumber_nil : EndsNumber [] := by
  intro c cs h
  cases h

theorem endsNumber_underscore (r : List Char) : EndsNumber ('_' :: r) := by
  intro c cs h
  cases h
  decide

theorem digit_char_all : ∀ d, d < 10 →
    (Char.ofNat ('0'.toNat + d)).isDigit = true ∧ (Char.ofNat ('0'.toNat + d)).toNat - '0'.toNat = d := by
  decide

theorem digitsOnto_zero (acc : List Char) : digitsOnto 0 acc = acc := by
  rw [digitsOnto, if_pos rfl]

theorem digitsOnto_of_ne {x : Nat} (acc : List Char) (h : x ≠ 0) :
    digitsOnto x acc = digitsOnto (x / 10) (Char.ofNat ('0'.toNat + x % 10) :: acc) := by
  rw [digitsOnto, if_neg h]

/-- The loop puts the digits of `x` in front of whatever the buffer holds after them. -/
theorem digitsOnto_append (x : Nat) (acc : List Char) : digitsOnto x acc = digitsOnto x [] ++ acc := by
  induction x using Nat.strong_induction_on generalizing acc with
  | _ x ih =>
    by_cases hx : x = 0
    · subst hx
      simp [digitsOnto_zero]
    · have hlt : x / 10 < x := by omega
      rw [digitsOnto_of_ne acc hx, digitsOnto_of_ne [] hx, ih _ hlt, ih _ hlt [_]]
      simp

theorem isDigit_of_mem_digitsOnto {x : Nat} {c : Char} (h : c ∈ digitsOnto x []) : c.isDigit = true := by
  induction x using Nat.strong_induction_on with
  | _ x ih =>
    by_cases hx : x = 0
    · subst hx
      simp [digitsOnto_zero] at h
    · rw [digitsOnto_of_ne [] hx, digitsOnto_append] at h
      rcases List.mem_append.mp h with h | h
      · exact ih (x / 10) (by omega) h
      · rw [List.mem_singleton.mp h]
        exact (digit_char_all (x % 10) (by omega)).1

theorem isDigit_of_mem_writeUIntText {x : Nat} {c : Char} (h : c ∈ writeUIntText x) : c.isDigit = true := by
  unfold writeUIntText at h
  split at h
  · rw [List.mem_singleton.mp h]
    decide
  · exact isDigit_of_mem_digitsOnto h

theorem writeUIntText_ne_nil (x : Nat) : writeUIntText x ≠ [] := by
  unfold writeUIntText
  split
  · simp
  · rename_i hx
    rw [digitsOnto_of_ne [] hx, digitsOnto_append]
    simp

section Words

variable {w : Nat}

/-- One digit of `readIntTextImpl`: `x *= 10; x += c - '0'`. -/
def digitStep (x : BitVec w) (c : Char) : BitVec w := x * 10 + BitVec.ofNat w (c.toNat - '0'.toNat)

theorem ofNat_mul_ten_add (a d : Nat) : BitVec.ofNat w (a * 10 + d) = BitVec.ofNat w a * 10 + BitVec.ofNat w d := by
  apply BitVec.eq_of_toNat_eq
  simp [BitVec.toNat_add, BitVec.toNat_mul]

/-- The digits of `x`, read one by one from zero, give `x` modulo the width. -/
theorem foldl_digitsOnto (x : Nat) : (digitsOnto x []).foldl digitStep (0 : BitVec w) = BitVec.ofNat w x := by
  induction x using Nat.strong_induction_on with
  | _ x ih =>
    by_cases hx : x = 0
    · subst hx
      simp [digitsOnto_zero]
    · have hd := (digit_char_all (x % 10) (by omega)).2
      rw [digitsOnto_of_ne [] hx, digitsOnto_append, List.foldl_append, ih (x / 10) (by omega)]
      simp only [List.foldl_cons, List.foldl_nil, digitStep, hd]
      rw [← ofNat_mul_ten_add]
      congr 1
      omega

theorem foldl_writeUIntText (x : Nat) : (writeUIntText x).foldl digitStep (0 : BitVec w) = BitVec.ofNat w x := by
  unfold writeUIntText
  split
  · rename_i hx
    subst hx
    simp [digitStep]
  · exact foldl_digitsOnto x

/-- A run of digits is read into the value as it goes. -/
theorem readIntTextLoop_digits (is_signed : Bool) {ds : List Char} (hds : ∀ c ∈ ds, c.isDigit = true)
    (rest : List Char) (x : BitVec w) (negative : Bool) :
    readIntTextLoop is_signed (ds ++ rest) x negative = readIntTextLoop is_signed rest (ds.foldl digitStep x) negative := by
  induction ds generalizing x with
  | nil => rfl
  | cons c ds ih =>
    have hc : c.isDigit = true := hds c List.mem_cons_self
    -- a digit is neither sign
    have hplus : c ≠ '+' := by rintro rfl; exact absurd hc (by decide)
    have hminus : c ≠ '-' := by rintro rfl; exact absurd hc (by decide)
    rw [List.cons_append, readIntTextLoop, if_neg hplus, if_neg hminus, if_pos hc, List.foldl_cons]
    exact ih (fun d hd => hds d (List.mem_cons_of_mem c hd)) _

theorem readIntTextLoop_end (is_signed : Bool) {rest : List Char} (hr : EndsNumber rest) (x : BitVec w)
    (negative : Bool) : readIntTextLoop is_signed rest x negative = some (if negative then -x else x, rest) := by
  cases rest with
  | nil => rfl
  | cons c cs =>
    obtain ⟨hd, hplus, hminus⟩ := hr c cs rfl
    rw [readIntTextLoop, if_neg hplus, if_neg hminus, if_neg (by simp [hd])]

/-- The digits `writeUIntText` prints read back as the number, modulo the width. -/
theorem readIntTextImpl_writeUIntText (is_signed : Bool) (x : Nat) {rest : List Char} (hr : EndsNumber rest) :
    readIntTextImpl w is_signed (writeUIntText x ++ rest) = some (BitVec.ofNat w x, rest) := by
  obtain ⟨c, cs, hcs⟩ := List.exists_cons_of_ne_nil (writeUIntText_ne_nil x)
  have hread : readIntTextImpl w is_signed (writeUIntText x ++ rest) =
      readIntTextLoop is_signed (writeUIntText x ++ rest) 0 false := by
    rw [hcs]
    rfl
  rw [hread, readIntTextLoop_digits is_signed (fun _ => isDigit_of_mem_writeUIntText), foldl_writeUIntText,
    readIntTextLoop_end is_signed hr]
  rfl

end Words

theorem readIntTextLoop_minus {w : Nat} (r : List Char) (x : BitVec w) (negative : Bool) :
    readIntTextLoop true ('-' :: r) x negative = readIntTextLoop true r x true := by
  rw [readIntTextLoop, if_neg (by decide), if_pos rfl, if_pos rfl]

/-- After a `'-'` a run of digits reads back as the negated value. -/
theorem readIntTextImpl_minus_digits {ds : List Char} (hds : ∀ c ∈ ds, c.isDigit = true) {rest : List Char}
    (hr : EndsNumber rest) :
    readIntTextImpl 64 true ('-' :: (ds ++ rest)) = some (-(ds.foldl digitStep 0), rest) := by
  rw [readIntTextImpl, readIntTextLoop_minus, readIntTextLoop_digits true hds, readIntTextLoop_end true hr]
  rfl

/-- Every `Int64`, its minimum included, reads back from its printed form. -/
theorem readIntTextImpl_writeSIntText (x : Int64) {rest : List Char} (hr : EndsNumber rest) :
    readIntTextImpl 64 true (writeSIntText x ++ rest) = some (x.toBitVec, rest) := by
  unfold writeSIntText
  split
  · -- the minimum is the digits of `2^63` after a `'-'`, which wrap to itself
    rename_i hmin
    have hlit : "-9223372036854775808".toList = '-' :: "9223372036854775808".toList := by decide
    have hdigits : ∀ c ∈ "9223372036854775808".toList, c.isDigit = true :=
      List.all_eq_true.mp (show "9223372036854775808".toList.all Char.isDigit = true by decide)
    have hval : -("9223372036854775808".toList.foldl digitStep (0 : BitVec 64)) = Int64.minValue.toBitVec := by
      decide
    rw [hmin, hlit, List.cons_append, readIntTextImpl_minus_digits hdigits hr, hval]
  · split
    · -- a negative value: the digits of its negation, read and negated
      have hbits : BitVec.ofNat 64 (-x).toUInt64.toNat = -x.toBitVec := by
        change BitVec.ofNat 64 (-x).toBitVec.toNat = _
        rw [BitVec.ofNat_toNat, BitVec.setWidth_eq, Int64.toBitVec_neg]
      rw [List.cons_append, readIntTextImpl_minus_digits (fun _ => isDigit_of_mem_writeUIntText) hr,
        foldl_writeUIntText, hbits, BitVec.neg_neg]
    · rw [readIntTextImpl_writeUIntText true _ hr]
      simp

/-! ## Names read back -/

theorem checkChar_cons (c : Char) (r : List Char) : checkChar c (c :: r) = some r := by
  simp [checkChar]

theorem readPartitionId_append {p : List Char} (hp : '_' ∉ p) (rest : List Char) :
    readPartitionId (p ++ '_' :: rest) = (p, rest) := by
  induction p with
  | nil => simp [readPartitionId]
  | cons c p ih =>
    have hc : c ≠ '_' := fun h => hp (h ▸ List.mem_cons_self)
    have ih' := ih (fun h => hp (List.mem_cons_of_mem c h))
    simp [readPartitionId, hc, ih']

theorem not_mem_readPartitionId (s : List Char) : '_' ∉ (readPartitionId s).1 := by
  induction s with
  | nil => simp [readPartitionId]
  | cons c s ih =>
    by_cases hc : c = '_'
    · simp [readPartitionId, hc]
    · simp only [readPartitionId, if_neg hc, List.mem_cons, not_or]
      exact ⟨Ne.symm hc, ih⟩

/-- The block numbers and the level after the partition: `min _ max _ level` reads back. -/
theorem readBlocks (info : MergeTreePartInfo) (partition_id : List Char) :
    (do
      let (min_block_num, in₂) ← readIntTextImpl 64 true
        (writeSIntText info.min_block ++ '_' :: (writeSIntText info.max_block ++ '_' :: writeUIntText info.level.toNat))
      let in₃ ← checkChar '_' in₂
      let (max_block_num, in₄) ← readIntTextImpl 64 true in₃
      let in₅ ← checkChar '_' in₄
      let (level, in₆) ← readIntTextImpl 32 false in₅
      if in₆ = [] then
        some (⟨partition_id, Int64.ofBitVec min_block_num, Int64.ofBitVec max_block_num, UInt32.ofBitVec level⟩ :
          MergeTreePartInfo)
      else none) = some { info with partition_id } := by
  have hlevel := readIntTextImpl_writeUIntText (w := 32) false info.level.toNat endsNumber_nil
  rw [List.append_nil] at hlevel
  simp [readIntTextImpl_writeSIntText _ (endsNumber_underscore _), checkChar_cons, hlevel]

theorem tryParsePartName_getPartName (format_version : Nat) (info : MergeTreePartInfo)
    (hfv : MERGE_TREE_DATA_MIN_FORMAT_VERSION_WITH_CUSTOM_PARTITIONING ≤ format_version)
    (hp : '_' ∉ info.partition_id) : tryParsePartName (getPartName info) format_version = some info := by
  have hpre : readPartitionPrefix format_version (getPartName info) =
      some (info.partition_id, writeSIntText info.min_block ++ '_' ::
        (writeSIntText info.max_block ++ '_' :: writeUIntText info.level.toNat)) := by
    rw [readPartitionPrefix, if_neg (by omega), getPartName]
    simp only [List.append_assoc, List.cons_append]
    rw [readPartitionId_append hp]
  simp only [tryParsePartName, hpre, Option.bind_eq_bind, Option.bind_some]
  exact readBlocks info info.partition_id

theorem tryParsePartName_getPartNameV0 (format_version : Nat) (info : MergeTreePartInfo)
    (left_date_id right_date_id : UInt32)
    (hfv : format_version < MERGE_TREE_DATA_MIN_FORMAT_VERSION_WITH_CUSTOM_PARTITIONING) :
    tryParsePartName (getPartNameV0 info left_date_id right_date_id) format_version =
      some { info with partition_id := writeUIntText (left_date_id.toNat / 100) } := by
  -- the two days read back as themselves; the first, divided by 100, names the partition
  have hpre : readPartitionPrefix format_version (getPartNameV0 info left_date_id right_date_id) =
      some (writeUIntText (left_date_id.toNat / 100), writeSIntText info.min_block ++ '_' ::
        (writeSIntText info.max_block ++ '_' :: writeUIntText info.level.toNat)) := by
    rw [readPartitionPrefix, if_pos hfv, getPartNameV0]
    simp only [List.append_assoc, List.cons_append]
    simp [readIntTextImpl_writeUIntText _ _ (endsNumber_underscore _), checkChar_cons]
  simp only [tryParsePartName, hpre, Option.bind_eq_bind, Option.bind_some]
  exact readBlocks info _

/-- A name the new format accepts has a partition id without `'_'`. -/
theorem partition_id_of_tryParsePartName {s : List Char} {format_version : Nat} {info : MergeTreePartInfo}
    (hfv : MERGE_TREE_DATA_MIN_FORMAT_VERSION_WITH_CUSTOM_PARTITIONING ≤ format_version)
    (h : tryParsePartName s format_version = some info) : '_' ∉ info.partition_id := by
  have hpre : readPartitionPrefix format_version s = some (readPartitionId s) := by
    rw [readPartitionPrefix, if_neg (by omega)]
  simp only [tryParsePartName, hpre, Option.bind_eq_bind, Option.bind_some, Option.bind_eq_some_iff] at h
  obtain ⟨_, -, _, -, _, -, _, -, _, -, hinfo⟩ := h
  split at hinfo
  · cases hinfo
    exact not_mem_readPartitionId s
  · cases hinfo

/-- The names `getPartName` prints parse back to their info; every name the parser accepts
    gives an info whose printed name parses to the same info; and an old-format name parses to
    the partition `YYYYMM` of its first day with the same blocks and level. -/
theorem part_name_round_trip :
    (∀ (format_version : Nat) (info : MergeTreePartInfo),
      MERGE_TREE_DATA_MIN_FORMAT_VERSION_WITH_CUSTOM_PARTITIONING ≤ format_version →
      '_' ∉ info.partition_id → tryParsePartName (getPartName info) format_version = some info) ∧
    (∀ (format_version : Nat) (s : List Char) (info : MergeTreePartInfo),
      MERGE_TREE_DATA_MIN_FORMAT_VERSION_WITH_CUSTOM_PARTITIONING ≤ format_version →
      tryParsePartName s format_version = some info →
      tryParsePartName (getPartName info) format_version = some info) ∧
    (∀ (format_version : Nat) (info : MergeTreePartInfo) (left_date_id right_date_id : UInt32),
      format_version < MERGE_TREE_DATA_MIN_FORMAT_VERSION_WITH_CUSTOM_PARTITIONING →
      tryParsePartName (getPartNameV0 info left_date_id right_date_id) format_version =
        some { info with partition_id := writeUIntText (left_date_id.toNat / 100) }) := by
  refine ⟨tryParsePartName_getPartName, ?_, tryParsePartName_getPartNameV0⟩
  intro format_version s info hfv h
  exact tryParsePartName_getPartName format_version info hfv (partition_id_of_tryParsePartName hfv h)

theorem part_name_round_trip_min_block :
    tryParsePartName (getPartName ⟨['2', '0', '1', '7', '0', '3'], Int64.minValue, -1, 3⟩) 1 =
      some ⟨['2', '0', '1', '7', '0', '3'], Int64.minValue, -1, 3⟩ :=
  part_name_round_trip.1 1 _ (by decide) (by decide)

/-- The parser accepts names the printer never produces: a leading zero or a `'+'` in a block
    number gives the info of `0_1_1_0`, so three directory names stand for one part. -/
theorem leading_zero_name_parses :
    tryParsePartName "0_01_1_0".toList 1 = some ⟨['0'], 1, 1, 0⟩ ∧
      tryParsePartName "0_+1_1_0".toList 1 = some ⟨['0'], 1, 1, 0⟩ ∧
      getPartName ⟨['0'], 1, 1, 0⟩ = "0_1_1_0".toList := by
  refine ⟨by decide, by decide, ?_⟩
  decide +kernel

/-! ## Containment and order -/

namespace MergeTreePartInfo

theorem contains_iff {p q : MergeTreePartInfo} : p.contains q = true ↔
    p.partition_id = q.partition_id ∧ p.min_block.toInt ≤ q.min_block.toInt ∧
      q.max_block.toInt ≤ p.max_block.toInt ∧ q.level.toNat ≤ p.level.toNat := by
  simp [contains, Int64.le_iff_toInt_le, UInt32.le_iff_toNat_le, and_assoc]

theorem isDisjoint_iff {p q : MergeTreePartInfo} : p.isDisjoint q = true ↔
    p.partition_id ≠ q.partition_id ∨ q.max_block.toInt < p.min_block.toInt ∨
      p.max_block.toInt < q.min_block.toInt := by
  simp [isDisjoint, Int64.lt_iff_toInt_lt, or_assoc]

theorem contains_refl (p : MergeTreePartInfo) : p.contains p = true := by
  simp [contains_iff]

theorem contains_trans {p q r : MergeTreePartInfo} (hpq : p.contains q = true) (hqr : q.contains r = true) :
    p.contains r = true := by
  rw [contains_iff] at hpq hqr ⊢
  refine ⟨hpq.1.trans hqr.1, ?_, ?_, ?_⟩ <;> omega

theorem eq_of_contains_of_contains {p q : MergeTreePartInfo} (hpq : p.contains q = true) (hqp : q.contains p = true) :
    p = q := by
  rw [contains_iff] at hpq hqp
  apply orderKey_injective
  simp only [orderKey, toLex_inj, Prod.mk.injEq]
  refine ⟨hpq.1, ?_, ?_, ?_⟩ <;> omega

theorem partition_le_of_le {p q : MergeTreePartInfo} (h : p ≤ q) : p.partition_id ≤ q.partition_id :=
  (Prod.Lex.toLex_le_toLex'.mp h).1

theorem min_le_of_le {p q : MergeTreePartInfo} (h : p ≤ q) (hpart : p.partition_id = q.partition_id) :
    p.min_block.toInt ≤ q.min_block.toInt :=
  (Prod.Lex.toLex_le_toLex'.mp ((Prod.Lex.toLex_le_toLex'.mp h).2 hpart)).1

end MergeTreePartInfo

end ClickHouseGpu.MergeTree.PartInfo
