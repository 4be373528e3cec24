/-!
# Checksums of byte sequences

A 64-bit checksum. Two words of state absorb the bytes in blocks of sixteen by multiplying halves
of a block and folding the 128-bit product; the last bytes, which may overlap the last block, enter
at the end together with the length.
-/

namespace IncrementalGlr.Checksum

def fold (x y : UInt64) : UInt64 :=
  let product := x.toNat * y.toNat
  UInt64.ofNat product ^^^ UInt64.ofNat (product / UInt64.size)

def word (bytes : List UInt8) : UInt64 :=
  bytes.foldr (fun byte acc => acc <<< 8 ||| byte.toUInt64) 0

def seed₀ : UInt64 := 0x243f6a8885a308d3
def seed₁ : UInt64 := 0x13198a2e03707344
def blockSeed : UInt64 := 0xa4093822299f31d0
def spread : UInt64 := 0xf1357aea2e62a9c5

def absorb : Nat → List UInt8 → UInt64 × UInt64 → UInt64 × UInt64
  | 0, _, state => state
  | count + 1, bytes, (s₀, s₁) =>
    let block := fold (s₀ ^^^ word (bytes.take 8)) (blockSeed ^^^ word ((bytes.drop 8).take 8))
    absorb count (bytes.drop 16) (s₁, block)

def state (bytes : List UInt8) : UInt64 × UInt64 :=
  let n := bytes.length
  if n > 16 then
    let (s₀, s₁) := absorb ((n - 1) / 16) bytes (seed₀, seed₁)
    let tail := bytes.drop (n - 16)
    (s₀ ^^^ word (tail.take 8), s₁ ^^^ word (tail.drop 8))
  else if n ≥ 8 then
    (seed₀ ^^^ word (bytes.take 8), seed₁ ^^^ word (bytes.drop (n - 8)))
  else if n ≥ 4 then
    (seed₀ ^^^ word (bytes.take 4), seed₁ ^^^ word (bytes.drop (n - 4)))
  else if n ≥ 1 then
    let byteAt (i : Nat) : UInt64 := (bytes.getD i 0).toUInt64
    (seed₀ ^^^ byteAt 0, seed₁ ^^^ (byteAt (n - 1) <<< 8 ||| byteAt (n / 2)))
  else (seed₀, seed₁)

def rotateLeft (x : UInt64) (count : UInt64) : UInt64 :=
  x <<< count ||| x >>> (64 - count)

def ofBytes (bytes : List UInt8) : UInt64 :=
  let (s₀, s₁) := state bytes
  rotateLeft ((fold s₀ s₁ ^^^ UInt64.ofNat bytes.length) * spread) 26

def display (sum : UInt64) : String :=
  let digits := Nat.toDigits 16 sum.toNat
  "0x" ++ String.ofList (List.replicate (16 - digits.length) '0' ++ digits)

end IncrementalGlr.Checksum
