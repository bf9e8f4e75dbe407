import ClickHouseGpu.Common.CityHash

/-
  ClickHouseGpu.Cuda.CityHash — the device port `CityHash_v1_0_2_cuda::cudaCityHash64`
  (dbms/src/Common/Cuda/City_Hash/cudaCityHash.cuh) and the kernel `kerCalcHash` that hashes
  the rows of a `CudaColumnString` for `uniqHLL12` (dbms/src/Common/Cuda/cudaCalcCityHash64.cu).

  The port writes `uint128` as a struct of `first` and `second`, reads words with `memcpy`
  (the code assumes little-endian, as the host build is), names some intermediate values
  (`s_shifted`, `p_updated`, `a_t1`, `hhh`) and swaps `x` and `z` by hand. It is transcribed
  here as it stands, over the same memory model as the host code (`Common.CityHash`).

  A `CudaColumnString` after `calcLengths` holds row `i` at `offsets[i]` with `lens[i]` bytes,
  its terminating zero included. Each thread of `kerCalcHash` writes its own `res_hash[i]`.

  Proved:
  - `hashLen0to16_eq`, `hashLen17to32_eq`, `hashLen33to64_eq`, `chunkLoop_eq`: each part of
    the port computes what the host's does.
  - `cuda_city_hash_matches_host`: the port is `CityHash64` for every string, and the kernel
    writes for every row the host hash of the row without its zero, `2^64 - 1` becoming 0.
-/

namespace ClickHouseGpu.CityHash_v1_0_2_cuda

open ByteBuffer

/-- `uint128`: the struct that stands for `std::pair<uint64_t, uint64_t>`. -/
structure uint128 where
  first : UInt64
  second : UInt64

def k0 : UInt64 := 0xc3a5c85c97cb3127
def k1 : UInt64 := 0xb492b66fbe98f273
def k2 : UInt64 := 0x9ae16a3b2f90404f
def k3 : UInt64 := 0xc949d7c7509e6557

def Uint128Low64 (x : uint128) : UInt64 := x.first
def Uint128High64 (x : uint128) : UInt64 := x.second

/-- `memcpy(&result, p, 8)`, little-endian. -/
def Fetch64 (s : Nat → UInt8) (p : Nat) : UInt64 := UInt64.ofNat (leValue (load s p 8))

def Fetch32 (s : Nat → UInt8) (p : Nat) : UInt32 := UInt32.ofNat (leValue (load s p 4))

def Rotate (val : UInt64) (shift : Nat) : UInt64 :=
  if shift = 0 then val else (val >>> shift.toUInt64) ||| (val <<< (64 - shift).toUInt64)

def RotateByAtLeast1 (val : UInt64) (shift : Nat) : UInt64 :=
  (val >>> shift.toUInt64) ||| (val <<< (64 - shift).toUInt64)

def ShiftMix (val : UInt64) : UInt64 := val ^^^ (val >>> 47)

def Hash128to64 (x : uint128) : UInt64 :=
  let kMul : UInt64 := 0x9ddfea08eb382d69
  let a := (Uint128Low64 x ^^^ Uint128High64 x) * kMul
  let a := a ^^^ (a >>> 47)
  let b := (Uint128High64 x ^^^ a) * kMul
  let b := b ^^^ (b >>> 47)
  b * kMul

def HashLen16 (u v : UInt64) : UInt64 :=
  let hhh : uint128 := ⟨u, v⟩
  Hash128to64 hhh

def HashLen0to16 (s : Nat → UInt8) (p len : Nat) : UInt64 :=
  if len > 8 then
    let a := Fetch64 s p
    let s_shifted := p + len - 8
    let b := Fetch64 s s_shifted
    HashLen16 a (RotateByAtLeast1 (b + len.toUInt64) len) ^^^ b
  else if len ≥ 4 then
    let a : UInt64 := (Fetch32 s p).toUInt64
    let p_updated := p + len - 4
    let b : UInt64 := (Fetch32 s p_updated).toUInt64
    let c := len.toUInt64 + (a <<< 3)
    HashLen16 c b
  else if len > 0 then
    let a : UInt8 := s p
    let b : UInt8 := s (p + (len >>> 1))
    let c : UInt8 := s (p + len - 1)
    let y : UInt32 := a.toUInt32 + (b.toUInt32 <<< 8)
    let z : UInt32 := (len.toUInt64 + (c.toUInt32 <<< 2).toUInt64).toUInt32
    ShiftMix (y.toUInt64 * k2 ^^^ z.toUInt64 * k3) * k2
  else k2

def HashLen17to32 (s : Nat → UInt8) (p len : Nat) : UInt64 :=
  let a := Fetch64 s p * k1
  let b := Fetch64 s (p + 8)
  let c := Fetch64 s (p + len - 8) * k2
  let d := Fetch64 s (p + len - 16) * k0
  HashLen16 (Rotate (a - b) 43 + Rotate c 30 + d) (a + Rotate (b ^^^ k3) 20 - c + len.toUInt64)

def WeakHashLen32WithSeeds (w x y z a b : UInt64) : uint128 :=
  let a := a + w
  let b := Rotate (b + a + z) 21
  let c := a
  let a := a + x
  let a := a + y
  let b := b + Rotate a 44
  let ret : uint128 := ⟨a + z, b + c⟩
  ret

/-- The overload of `WeakHashLen32WithSeeds` that reads the four words from `s + p`. -/
def WeakHashLen32WithSeedsAt (s : Nat → UInt8) (p : Nat) (a b : UInt64) : uint128 :=
  WeakHashLen32WithSeeds (Fetch64 s p) (Fetch64 s (p + 8)) (Fetch64 s (p + 16)) (Fetch64 s (p + 24)) a b

def HashLen33to64 (s : Nat → UInt8) (p len : Nat) : UInt64 :=
  let z := Fetch64 s (p + 24)
  let a := Fetch64 s p
  let a_t1 := Fetch64 s (p + len - 16)
  let a := a + (len.toUInt64 + a_t1) * k0
  let b := Rotate (a + z) 52
  let c := Rotate a 37
  let a := a + Fetch64 s (p + 8)
  let c := c + Rotate a 7
  let a := a + Fetch64 s (p + 16)
  let vf := a + z
  let vs := b + Rotate a 31 + c
  let a := Fetch64 s (p + 16) + Fetch64 s (p + len - 32)
  let z := Fetch64 s (p + len - 8)
  let b := Rotate (a + z) 52
  let c := Rotate a 37
  let a := a + Fetch64 s (p + len - 24)
  let c := c + Rotate a 7
  let a := a + Fetch64 s (p + len - 16)
  let wf := a + z
  let ws := b + Rotate a 31 + c
  let r := ShiftMix ((vf + ws) * k2 + (wf + vs) * k0)
  ShiftMix (r * k0 + vs) * k2

structure LoopState where
  x : UInt64
  y : UInt64
  z : UInt64
  v : uint128
  w : uint128

/-- One round of the `do`–`while`, on the chunk at `s + q`. -/
def loopBody (s : Nat → UInt8) (q : Nat) (st : LoopState) : LoopState :=
  let x := Rotate (st.x + st.y + st.v.first + Fetch64 s (q + 16)) 37 * k1
  let y := Rotate (st.y + st.v.second + Fetch64 s (q + 48)) 42 * k1
  let x := x ^^^ st.w.second
  let y := y ^^^ st.v.first
  let z := Rotate (st.z ^^^ st.w.first) 33
  let v := WeakHashLen32WithSeedsAt s q (st.v.second * k1) (x + st.w.first)
  let w := WeakHashLen32WithSeedsAt s (q + 32) (z + st.w.second) y
  let temp := x
  let x := z
  let z := temp
  ⟨x, y, z, v, w⟩

def chunkLoop (s : Nat → UInt8) : Nat → Nat → LoopState → LoopState
  | _, 0, st => st
  | q, n + 1, st => chunkLoop s (q + 64) n (loopBody s q st)

def cudaCityHash64 (s : Nat → UInt8) (p len : Nat) : UInt64 :=
  if len ≤ 32 then
    if len ≤ 16 then HashLen0to16 s p len else HashLen17to32 s p len
  else if len ≤ 64 then HashLen33to64 s p len
  else
    let x := Fetch64 s p
    let y := Fetch64 s (p + len - 16) ^^^ k1
    let z := Fetch64 s (p + len - 56) ^^^ k0
    let v := WeakHashLen32WithSeedsAt s (p + len - 64) len.toUInt64 y
    let w := WeakHashLen32WithSeedsAt s (p + len - 32) (len.toUInt64 * k1) k0
    let z := z + ShiftMix v.second * k1
    let x := Rotate (z + x) 39 * k1
    let y := Rotate y 33 * k1
    let st := chunkLoop s p ((len - 1) / 64) ⟨x, y, z, v, w⟩
    HashLen16 (HashLen16 st.v.first st.w.first + ShiftMix st.y * k1 + st.z)
      (HashLen16 st.v.second st.w.second + st.x)

/-! ## The kernel -/

/-- The device arrays of a `CudaColumnString` after `calcLengths`: each row holds at least its
    terminating zero. -/
structure CudaColumnString where
  buf : Nat → UInt8
  str_num : UInt32
  lens : Nat → UInt32
  offsets : Nat → UInt32
  lens_pos : ∀ i, i < str_num.toNat → 1 ≤ (lens i).toNat

/-- What thread `i` of `kerCalcHash` writes to `res_hash[i]`; `none` for a thread past
    `str_num`, which returns. -/
def kerCalcHash (str_num : UInt32) (arr : Nat → UInt8) (begs : Nat → UInt32) (interpret_as_lengths : Bool)
    (lens : Nat → UInt32) (i : Nat) : Option UInt64 :=
  if ¬ i < str_num.toNat then none
  else
    let len := if interpret_as_lengths then lens i else lens i - 1
    let beg := begs i
    let h := cudaCityHash64 arr beg.toNat len.toNat
    some (if h = 0xFFFFFFFFFFFFFFFF then 0 else h)

/-- `cudaCalcCityHash64`: the launch of one thread per row, `offsets` passed as `begs`; the value
    at `res_hash[i]`. -/
def cudaCalcCityHash64 (str_num : UInt32) (buf : Nat → UInt8) (interpret_as_lengths : Bool) (lens offsets : Nat → UInt32)
    (i : Nat) : Option UInt64 :=
  kerCalcHash str_num buf offsets interpret_as_lengths lens i

/-! ## The port computes the host hash -/

/-- The host's value of the port's `uint128`. -/
def uint128.toPair (x : uint128) : UInt64 × UInt64 := (x.first, x.second)

/-- The host's loop state of the port's. -/
def LoopState.toHost (st : LoopState) : CityHash_v1_0_2.LoopState := ⟨st.x, st.y, st.z, st.v.toPair, st.w.toPair⟩

theorem hashLen0to16_eq (s : Nat → UInt8) (p len : Nat) :
    HashLen0to16 s p len = CityHash_v1_0_2.HashLen0to16 s p len := rfl

theorem hashLen17to32_eq (s : Nat → UInt8) (p len : Nat) :
    HashLen17to32 s p len = CityHash_v1_0_2.HashLen17to32 s p len := rfl

theorem weakHashAt_eq (s : Nat → UInt8) (p : Nat) (a b : UInt64) :
    (WeakHashLen32WithSeedsAt s p a b).toPair = CityHash_v1_0_2.WeakHashLen32WithSeedsAt s p a b := rfl

theorem hashLen33to64_eq (s : Nat → UInt8) (p len : Nat) :
    HashLen33to64 s p len = CityHash_v1_0_2.HashLen33to64 s p len := rfl

theorem loopBody_eq (s : Nat → UInt8) (q : Nat) (st : LoopState) :
    (loopBody s q st).toHost = CityHash_v1_0_2.loopBody s q st.toHost := rfl

/-- The rounds of the port and of the host stay in step. -/
theorem chunkLoop_eq (s : Nat → UInt8) :
    ∀ n q st, (chunkLoop s q n st).toHost = CityHash_v1_0_2.chunkLoop s q n st.toHost
  | 0, _, _ => rfl
  | n + 1, q, st => by
    rw [chunkLoop, CityHash_v1_0_2.chunkLoop, ← loopBody_eq]
    exact chunkLoop_eq s n (q + 64) (loopBody s q st)

/-- The last step, from the loop's state. -/
theorem finish_eq (st : LoopState) :
    HashLen16 (HashLen16 st.v.first st.w.first + ShiftMix st.y * k1 + st.z) (HashLen16 st.v.second st.w.second + st.x) =
      CityHash_v1_0_2.HashLen16
        (CityHash_v1_0_2.HashLen16 st.toHost.v.1 st.toHost.w.1 + CityHash_v1_0_2.ShiftMix st.toHost.y * CityHash_v1_0_2.k1 +
          st.toHost.z)
        (CityHash_v1_0_2.HashLen16 st.toHost.v.2 st.toHost.w.2 + st.toHost.x) := rfl

theorem cudaCityHash64_eq (s : Nat → UInt8) (p len : Nat) :
    cudaCityHash64 s p len = CityHash_v1_0_2.CityHash64 s p len := by
  unfold cudaCityHash64 CityHash_v1_0_2.CityHash64
  split
  · split
    · exact hashLen0to16_eq s p len
    · exact hashLen17to32_eq s p len
  · split
    · exact hashLen33to64_eq s p len
    · -- the setup is the host's word for word; the loop is `chunkLoop_eq`
      dsimp only
      rw [finish_eq, chunkLoop_eq]
      rfl

theorem cuda_city_hash_matches_host :
    (∀ (s : Nat → UInt8) (p len : Nat), cudaCityHash64 s p len = CityHash_v1_0_2.CityHash64 s p len) ∧
      ∀ (col : CudaColumnString) (i : Fin col.str_num.toNat),
        cudaCalcCityHash64 col.str_num col.buf false col.lens col.offsets i =
          let h := CityHash_v1_0_2.CityHash64 col.buf (col.offsets i).toNat ((col.lens i).toNat - 1)
          some (if h = 0xFFFFFFFFFFFFFFFF then 0 else h) := by
  refine ⟨cudaCityHash64_eq, ?_⟩
  intro col i
  have hlen : (col.lens i - 1).toNat = (col.lens i).toNat - 1 :=
    UInt32.toNat_sub_of_le _ _ (UInt32.le_iff_toNat_le.mpr (col.lens_pos i i.isLt))
  unfold cudaCalcCityHash64 kerCalcHash
  rw [if_neg (not_not.mpr i.isLt)]
  simp only [Bool.false_eq_true, if_false, hlen, cudaCityHash64_eq]

end ClickHouseGpu.CityHash_v1_0_2_cuda
