import ClickHouseGpu.Lib.ByteBuffer

/-
  ClickHouseGpu.Common.CityHash — `CityHash_v1_0_2::CityHash64`
  (contrib/libcityhash/src/city.cc, with `Hash128to64` from include/city.h), the hash the CPU
  `uniqHLL12` takes of a string.

  The string is `len` bytes of memory from `p`. The build is little-endian, so `Fetch64` and
  `Fetch32` read the bytes as a little-endian word (`uint64_in_expected_order` is the identity).
  `uint64` and `uint32` are `UInt64` and `UInt32`, and `size_t` arithmetic is done in `UInt64`;
  lengths are naturals. The loop over 64-byte chunks is `chunkLoop`, one round per chunk:
  `len = (len - 1) & ~63` leaves `(len - 1) / 64` of them, and the `do`–`while` runs once per
  chunk.

  Proved:
  - `fetch64_congr`, `CityHash64_congr`: the hash reads only the `len` bytes from `p`, so two
    strings with the same bytes have the same hash wherever they lie.
-/

namespace ClickHouseGpu.CityHash_v1_0_2

open ByteBuffer

def Fetch64 (s : Nat → UInt8) (p : Nat) : UInt64 := UInt64.ofNat (leValue (load s p 8))

def Fetch32 (s : Nat → UInt8) (p : Nat) : UInt32 := UInt32.ofNat (leValue (load s p 4))

def k0 : UInt64 := 0xc3a5c85c97cb3127
def k1 : UInt64 := 0xb492b66fbe98f273
def k2 : UInt64 := 0x9ae16a3b2f90404f
def k3 : UInt64 := 0xc949d7c7509e6557

/-- Bitwise right rotate; a shift of 0 is the value itself. -/
def Rotate (val : UInt64) (shift : Nat) : UInt64 :=
  if shift = 0 then val else (val >>> shift.toUInt64) ||| (val <<< (64 - shift).toUInt64)

def RotateByAtLeast1 (val : UInt64) (shift : Nat) : UInt64 :=
  (val >>> shift.toUInt64) ||| (val <<< (64 - shift).toUInt64)

def ShiftMix (val : UInt64) : UInt64 := val ^^^ (val >>> 47)

/-- `Hash128to64` (city.h), on the pair `(low, high)`. -/
def Hash128to64 (x : UInt64 × UInt64) : UInt64 :=
  let kMul : UInt64 := 0x9ddfea08eb382d69
  let a := (x.1 ^^^ x.2) * kMul
  let a := a ^^^ (a >>> 47)
  let b := (x.2 ^^^ a) * kMul
  let b := b ^^^ (b >>> 47)
  b * kMul

def HashLen16 (u v : UInt64) : UInt64 := Hash128to64 (u, v)

def HashLen0to16 (s : Nat → UInt8) (p len : Nat) : UInt64 :=
  if len > 8 then
    let a := Fetch64 s p
    let b := Fetch64 s (p + len - 8)
    HashLen16 a (RotateByAtLeast1 (b + len.toUInt64) len) ^^^ b
  else if len ≥ 4 then
    let a : UInt64 := (Fetch32 s p).toUInt64
    HashLen16 (len.toUInt64 + (a <<< 3)) (Fetch32 s (p + len - 4)).toUInt64
  else if len > 0 then
    let a : UInt8 := s p
    let b : UInt8 := s (p + (len >>> 1))
    let c : UInt8 := s (p + len - 1)
    let y : UInt32 := a.toUInt32 + (b.toUInt32 <<< 8)
    let z : UInt32 := (len.toUInt64 + (c.toUInt32 <<< 2).toUInt64).toUInt32
    ShiftMix (y.toUInt64 * k2 ^^^ z.toUInt64 * k3) * k2
  else k2

def HashLen17to32 (s : Nat → UInt8) (p len : Nat) : UInt64 :=
  let a := Fetch64 s p * k1
  let b := Fetch64 s (p + 8)
  let c := Fetch64 s (p + len - 8) * k2
  let d := Fetch64 s (p + len - 16) * k0
  HashLen16 (Rotate (a - b) 43 + Rotate c 30 + d) (a + Rotate (b ^^^ k3) 20 - c + len.toUInt64)

/-- A 16-byte hash for 48 bytes. -/
def WeakHashLen32WithSeeds (w x y z a b : UInt64) : UInt64 × UInt64 :=
  let a := a + w
  let b := Rotate (b + a + z) 21
  let c := a
  let a := a + x
  let a := a + y
  let b := b + Rotate a 44
  (a + z, b + c)

/-- The overload of `WeakHashLen32WithSeeds` that reads the four words from `s + p`. -/
def WeakHashLen32WithSeedsAt (s : Nat → UInt8) (p : Nat) (a b : UInt64) : UInt64 × UInt64 :=
  WeakHashLen32WithSeeds (Fetch64 s p) (Fetch64 s (p + 8)) (Fetch64 s (p + 16)) (Fetch64 s (p + 24)) a b

def HashLen33to64 (s : Nat → UInt8) (p len : Nat) : UInt64 :=
  let z := Fetch64 s (p + 24)
  let a := Fetch64 s p + (len.toUInt64 + Fetch64 s (p + len - 16)) * k0
  let b := Rotate (a + z) 52
  let c := Rotate a 37
  let a := a + Fetch64 s (p + 8)
  let c := c + Rotate a 7
  let a := a + Fetch64 s (p + 16)
  let vf := a + z
  let vs := b + Rotate a 31 + c
  let a := Fetch64 s (p + 16) + Fetch64 s (p + len - 32)
  let z := Fetch64 s (p + len - 8)
  let b := Rotate (a + z) 52
  let c := Rotate a 37
  let a := a + Fetch64 s (p + len - 24)
  let c := c + Rotate a 7
  let a := a + Fetch64 s (p + len - 16)
  let wf := a + z
  let ws := b + Rotate a 31 + c
  let r := ShiftMix ((vf + ws) * k2 + (wf + vs) * k0)
  ShiftMix (r * k0 + vs) * k2

/-- The 56 bytes of state of the loop: `x, y, z, v, w`. -/
structure LoopState where
  x : UInt64
  y : UInt64
  z : UInt64
  v : UInt64 × UInt64
  w : UInt64 × UInt64

/-- One round of the loop, on the chunk at `s + q`. -/
def loopBody (s : Nat → UInt8) (q : Nat) (st : LoopState) : LoopState :=
  let x := Rotate (st.x + st.y + st.v.1 + Fetch64 s (q + 16)) 37 * k1
  let y := Rotate (st.y + st.v.2 + Fetch64 s (q + 48)) 42 * k1
  let x := x ^^^ st.w.2
  let y := y ^^^ st.v.1
  let z := Rotate (st.z ^^^ st.w.1) 33
  let v := WeakHashLen32WithSeedsAt s q (st.v.2 * k1) (x + st.w.1)
  let w := WeakHashLen32WithSeedsAt s (q + 32) (z + st.w.2) y
  -- `std::swap(z, x)`
  ⟨z, y, x, v, w⟩

/-- `n` rounds from the chunk at `s + q`. -/
def chunkLoop (s : Nat → UInt8) : Nat → Nat → LoopState → LoopState
  | _, 0, st => st
  | q, n + 1, st => chunkLoop s (q + 64) n (loopBody s q st)

def CityHash64 (s : Nat → UInt8) (p len : Nat) : UInt64 :=
  if len ≤ 32 then
    if len ≤ 16 then HashLen0to16 s p len else HashLen17to32 s p len
  else if len ≤ 64 then HashLen33to64 s p len
  else
    -- the end first, then 64-byte chunks from the start
    let x := Fetch64 s p
    let y := Fetch64 s (p + len - 16) ^^^ k1
    let z := Fetch64 s (p + len - 56) ^^^ k0
    let v := WeakHashLen32WithSeedsAt s (p + len - 64) len.toUInt64 y
    let w := WeakHashLen32WithSeedsAt s (p + len - 32) (len.toUInt64 * k1) k0
    let z := z + ShiftMix v.2 * k1
    let x := Rotate (z + x) 39 * k1
    let y := Rotate y 33 * k1
    let st := chunkLoop s p ((len - 1) / 64) ⟨x, y, z, v, w⟩
    HashLen16 (HashLen16 st.v.1 st.w.1 + ShiftMix st.y * k1 + st.z) (HashLen16 st.v.2 st.w.2 + st.x)

/-! ## The hash reads only its input -/

/-- `s` from `p` and `s'` from `p'` hold the same `len` bytes. -/
def Agree (s : Nat → UInt8) (p : Nat) (s' : Nat → UInt8) (p' len : Nat) : Prop :=
  ∀ k, k < len → s (p + k) = s' (p' + k)

section Agree

variable {s s' : Nat → UInt8} {p p' len : Nat}

theorem Agree.byte (h : Agree s p s' p' len) {o : Nat} (ho : o < len) : s (p + o) = s' (p' + o) := h o ho

theorem Agree.mono (h : Agree s p s' p' len) {o n : Nat} (ho : o + n ≤ len) : Agree s (p + o) s' (p' + o) n := by
  intro k hk
  rw [Nat.add_assoc, Nat.add_assoc]
  exact h (o + k) (by omega)

theorem Agree.load (h : Agree s p s' p' len) {o n : Nat} (ho : o + n ≤ len) :
    load s (p + o) n = load s' (p' + o) n :=
  load_eq_load_iff.mpr (h.mono ho)

theorem fetch64_congr (h : Agree s p s' p' len) {o : Nat} (ho : o + 8 ≤ len) :
    Fetch64 s (p + o) = Fetch64 s' (p' + o) := by
  rw [Fetch64, Fetch64, h.load ho]

theorem fetch32_congr (h : Agree s p s' p' len) {o : Nat} (ho : o + 4 ≤ len) :
    Fetch32 s (p + o) = Fetch32 s' (p' + o) := by
  rw [Fetch32, Fetch32, h.load ho]

theorem weakHashAt_congr (h : Agree s p s' p' len) {o : Nat} (ho : o + 32 ≤ len) :
    WeakHashLen32WithSeedsAt s (p + o) = WeakHashLen32WithSeedsAt s' (p' + o) := by
  funext a b
  unfold WeakHashLen32WithSeedsAt
  rw [fetch64_congr h (by omega), Nat.add_assoc, Nat.add_assoc p', fetch64_congr h (by omega),
    Nat.add_assoc p, Nat.add_assoc p', fetch64_congr h (by omega), Nat.add_assoc p, Nat.add_assoc p',
    fetch64_congr h (by omega)]

/-- An offset from the end, as an offset from the start. -/
theorem add_sub_eq {p len n : Nat} (hn : n ≤ len) : p + len - n = p + (len - n) := by omega

theorem hashLen0to16_congr (h : Agree s p s' p' len) (hlen : len ≤ 16) :
    HashLen0to16 s p len = HashLen0to16 s' p' len := by
  unfold HashLen0to16
  split
  · rw [add_sub_eq (by omega), add_sub_eq (p := p') (by omega), fetch64_congr h (by omega)]
    rw [show p = p + 0 from rfl, show p' = p' + 0 from rfl, fetch64_congr h (by omega)]
  · split
    · rw [add_sub_eq (by omega), add_sub_eq (p := p') (by omega), fetch32_congr h (by omega)]
      rw [show p = p + 0 from rfl, show p' = p' + 0 from rfl, fetch32_congr h (by omega)]
    · split
      · rw [add_sub_eq (by omega), add_sub_eq (p := p') (by omega), h.byte (o := len - 1) (by omega),
          h.byte (o := len >>> 1) (by omega)]
        rw [show p = p + 0 from rfl, show p' = p' + 0 from rfl, h.byte (o := 0) (by omega)]
      · rfl

theorem hashLen17to32_congr (h : Agree s p s' p' len) (hlo : 16 < len) (hhi : len ≤ 32) :
    HashLen17to32 s p len = HashLen17to32 s' p' len := by
  unfold HashLen17to32
  rw [add_sub_eq (by omega), add_sub_eq (p := p') (by omega), fetch64_congr h (by omega),
    add_sub_eq (by omega), add_sub_eq (p := p') (by omega), fetch64_congr h (by omega),
    fetch64_congr h (by omega), show p = p + 0 from rfl, show p' = p' + 0 from rfl, fetch64_congr h (by omega)]

theorem hashLen33to64_congr (h : Agree s p s' p' len) (hlo : 32 < len) (hhi : len ≤ 64) :
    HashLen33to64 s p len = HashLen33to64 s' p' len := by
  unfold HashLen33to64
  simp only [add_sub_eq (p := p) (show 8 ≤ len by omega), add_sub_eq (p := p') (show 8 ≤ len by omega),
    add_sub_eq (p := p) (show 16 ≤ len by omega), add_sub_eq (p := p') (show 16 ≤ len by omega),
    add_sub_eq (p := p) (show 24 ≤ len by omega), add_sub_eq (p := p') (show 24 ≤ len by omega),
    add_sub_eq (p := p) (show 32 ≤ len by omega), add_sub_eq (p := p') (show 32 ≤ len by omega)]
  rw [fetch64_congr h (o := 24) (by omega), fetch64_congr h (o := len - 16) (by omega),
    fetch64_congr h (o := 8) (by omega), fetch64_congr h (o := 16) (by omega),
    fetch64_congr h (o := len - 32) (by omega), fetch64_congr h (o := len - 8) (by omega),
    fetch64_congr h (o := len - 24) (by omega), show p = p + 0 from rfl, show p' = p' + 0 from rfl,
    fetch64_congr h (o := 0) (by omega)]

/-- Rounds over chunks inside the agreeing bytes read the same words. -/
theorem chunkLoop_congr (h : Agree s p s' p' len) :
    ∀ n o, o + 64 * n ≤ len → chunkLoop s (p + o) n = chunkLoop s' (p' + o) n
  | 0, _, _ => rfl
  | n + 1, o, hn => by
    funext st
    have hbody : loopBody s (p + o) st = loopBody s' (p' + o) st := by
      unfold loopBody
      rw [Nat.add_assoc p o 16, Nat.add_assoc p' o 16, fetch64_congr h (by omega), Nat.add_assoc p o 48,
        Nat.add_assoc p' o 48, fetch64_congr h (by omega), weakHashAt_congr h (o := o) (by omega),
        Nat.add_assoc p o 32, Nat.add_assoc p' o 32, weakHashAt_congr h (o := o + 32) (by omega)]
    rw [chunkLoop, chunkLoop, hbody, Nat.add_assoc, Nat.add_assoc p',
      chunkLoop_congr h n (o + 64) (by omega)]

/-- The hash of `len` bytes depends on those bytes only. -/
theorem CityHash64_congr (h : Agree s p s' p' len) : CityHash64 s p len = CityHash64 s' p' len := by
  unfold CityHash64
  split
  · split
    · exact hashLen0to16_congr h (by omega)
    · exact hashLen17to32_congr h (by omega) (by omega)
  · split
    · exact hashLen33to64_congr h (by omega) (by omega)
    · -- the chunks end at `64 * ((len - 1) / 64) ≤ len - 1`
      have hchunks : 0 + 64 * ((len - 1) / 64) ≤ len := by omega
      rw [add_sub_eq (p := p) (show 16 ≤ len by omega), add_sub_eq (p := p') (show 16 ≤ len by omega),
        add_sub_eq (p := p) (show 56 ≤ len by omega), add_sub_eq (p := p') (show 56 ≤ len by omega),
        add_sub_eq (p := p) (show 64 ≤ len by omega), add_sub_eq (p := p') (show 64 ≤ len by omega),
        add_sub_eq (p := p) (show 32 ≤ len by omega), add_sub_eq (p := p') (show 32 ≤ len by omega),
        fetch64_congr h (o := len - 16) (by omega), fetch64_congr h (o := len - 56) (by omega),
        weakHashAt_congr h (o := len - 64) (by omega), weakHashAt_congr h (o := len - 32) (by omega)]
      rw [show p = p + 0 from rfl, show p' = p' + 0 from rfl, fetch64_congr h (o := 0) (by omega),
        chunkLoop_congr h _ 0 hchunks]

end Agree

end ClickHouseGpu.CityHash_v1_0_2
