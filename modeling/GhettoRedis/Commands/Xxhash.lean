import GhettoRedis.Lib.Word

/-!
# The hash of a key

`hashmap_xxhash3` of the vendored `hashmap.c`, over the list of the key's bytes.
-/
namespace GhettoRedis.Commands

open Lib

def xxhPrime1 : Size := 11400714785074694791
def xxhPrime2 : Size := 14029467366897019727
def xxhPrime3 : Size := 1609587929392839161
def xxhPrime4 : Size := 9650029242287828579
def xxhPrime5 : Size := 2870177450012600261

/-- The `n` bytes at the front, the first one the lowest. -/
def xxhRead (n : ℕ) (p : Bytes) : Size :=
  (p.take n).foldr (fun b v => v * 256 + BitVec.ofNat 64 b.toNat) 0

def xxhRead64 (p : Bytes) : Size := xxhRead 8 p

def xxhRead32 (p : Bytes) : Size := xxhRead 4 p

def xxhRotl64 (x : Size) (r : ℕ) : Size := x <<< r ||| x >>> (64 - r)

/-- One accumulator of the loop over blocks of 32 bytes. -/
def xxhRound (v k : Size) : Size := xxhRotl64 (v + k * xxhPrime2) 31 * xxhPrime1

/-- `v1` to `v4` after the blocks at `p`, and what is left behind them. -/
def xxhBlocks : (blocks : ℕ) → Bytes → (v1 v2 v3 v4 : Size) → (Size × Size × Size × Size) × Bytes
  | 0, p, v1, v2, v3, v4 => ((v1, v2, v3, v4), p)
  | blocks + 1, p, v1, v2, v3, v4 =>
    xxhBlocks blocks (p.drop 32) (xxhRound v1 (xxhRead64 p)) (xxhRound v2 (xxhRead64 (p.drop 8)))
      (xxhRound v3 (xxhRead64 (p.drop 16))) (xxhRound v4 (xxhRead64 (p.drop 24)))

def xxhMergeRound (h64 v : Size) : Size :=
  (h64 ^^^ xxhRotl64 (v * xxhPrime2) 31 * xxhPrime1) * xxhPrime1 + xxhPrime4

/-- `while (p + 8 <= end)`, for the number of words that are left. -/
def xxhWords : (words : ℕ) → Bytes → Size → Size × Bytes
  | 0, p, h64 => (h64, p)
  | words + 1, p, h64 =>
    let k1 := xxhRotl64 (xxhRead64 p * xxhPrime2) 31 * xxhPrime1
    xxhWords words (p.drop 8) (xxhRotl64 (h64 ^^^ k1) 27 * xxhPrime1 + xxhPrime4)

/-- `while (p < end)` -/
def xxhBytes (p : Bytes) (h64 : Size) : Size :=
  p.foldl (fun h b => xxhRotl64 (h ^^^ BitVec.ofNat 64 b.toNat * xxhPrime5) 11 * xxhPrime1) h64

/-- `xxh3` -/
def xxh3 (data : Bytes) (seed : Size) : Size :=
  let len := BitVec.ofNat 64 data.length
  let (h64, p) :=
    if 32 ≤ data.length then
      let ((v1, v2, v3, v4), p) := xxhBlocks (data.length / 32) data
        (seed + xxhPrime1 + xxhPrime2) (seed + xxhPrime2) seed (seed - xxhPrime1)
      let h64 := xxhRotl64 v1 1 + xxhRotl64 v2 7 + xxhRotl64 v3 12 + xxhRotl64 v4 18
      (xxhMergeRound (xxhMergeRound (xxhMergeRound (xxhMergeRound h64 v1) v2) v3) v4, p)
    else (seed + xxhPrime5, data)
  let (h64, p) := xxhWords (p.length / 8) p (h64 + len)
  let (h64, p) :=
    if 4 ≤ p.length then
      (xxhRotl64 (h64 ^^^ xxhRead32 p * xxhPrime1) 23 * xxhPrime2 + xxhPrime3, p.drop 4)
    else (h64, p)
  let h64 := xxhBytes p h64
  let h64 := (h64 ^^^ h64 >>> 33) * xxhPrime2
  let h64 := (h64 ^^^ h64 >>> 29) * xxhPrime3
  h64 ^^^ h64 >>> 32

/-- The second seed is not used. -/
def hashmapXxhash3 (data : Bytes) (seed0 _seed1 : Size) : Size := xxh3 data seed0

/-- The value that the tests of `hashmap.c` check for `hello`. -/
example : hashmapXxhash3 [104, 101, 108, 108, 111] 1 2 = 2584346877953614258 := by decide +kernel

end GhettoRedis.Commands
