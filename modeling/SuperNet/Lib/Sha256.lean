import Mathlib.Data.UInt
import SuperNet.Lib.IteratedHash

/-! SHA-256 by its definition: eight words that move on by one place in each round. -/
namespace SuperNet.Lib.Sha256
open SuperNet.Lib.IteratedHash

def rotr (n : Nat) (x : UInt32) : UInt32 := ⟨x.toBitVec.rotateRight n⟩

def ch (x y z : UInt32) : UInt32 := (x &&& y) ^^^ (~~~x &&& z)

def maj (x y z : UInt32) : UInt32 := (x &&& y) ^^^ (x &&& z) ^^^ (y &&& z)

def bigSigma0 (x : UInt32) : UInt32 := rotr 2 x ^^^ rotr 13 x ^^^ rotr 22 x

def bigSigma1 (x : UInt32) : UInt32 := rotr 6 x ^^^ rotr 11 x ^^^ rotr 25 x

def smallSigma0 (x : UInt32) : UInt32 := rotr 7 x ^^^ rotr 18 x ^^^ x >>> 3

def smallSigma1 (x : UInt32) : UInt32 := rotr 17 x ^^^ rotr 19 x ^^^ x >>> 10

def constants : List UInt32 := [
    0x428a2f98, 0x71374491, 0xb5c0fbcf, 0xe9b5dba5, 0x3956c25b, 0x59f111f1, 0x923f82a4, 0xab1c5ed5,
    0xd807aa98, 0x12835b01, 0x243185be, 0x550c7dc3, 0x72be5d74, 0x80deb1fe, 0x9bdc06a7, 0xc19bf174,
    0xe49b69c1, 0xefbe4786, 0x0fc19dc6, 0x240ca1cc, 0x2de92c6f, 0x4a7484aa, 0x5cb0a9dc, 0x76f988da,
    0x983e5152, 0xa831c66d, 0xb00327c8, 0xbf597fc7, 0xc6e00bf3, 0xd5a79147, 0x06ca6351, 0x14292967,
    0x27b70a85, 0x2e1b2138, 0x4d2c6dfc, 0x53380d13, 0x650a7354, 0x766a0abb, 0x81c2c92e, 0x92722c85,
    0xa2bfe8a1, 0xa81a664b, 0xc24b8b70, 0xc76c51a3, 0xd192e819, 0xd6990624, 0xf40e3585, 0x106aa070,
    0x19a4c116, 0x1e376c08, 0x2748774c, 0x34b0bcb5, 0x391c0cb3, 0x4ed8aa4a, 0x5b9cca4f, 0x682e6ff3,
    0x748f82ee, 0x78a5636f, 0x84c87814, 0x8cc70208, 0x90befffa, 0xa4506ceb, 0xbef9a3f7, 0xc67178f2]

def initial : List UInt32 := [0x6A09E667, 0xBB67AE85, 0x3C6EF372, 0xA54FF53A, 0x510E527F, 0x9B05688C, 0x1F83D9AB, 0x5BE0CD19]

/-- The message schedule from the words of a block on. -/
def word (block : Nat → UInt32) (t : Nat) : UInt32 :=
  if t < 16 then block t
  else smallSigma1 (word block (t - 2)) + word block (t - 7) + smallSigma0 (word block (t - 15)) + word block (t - 16)
termination_by t

theorem word_add (block : Nat → UInt32) (n : Nat) :
    word block (n + 16) = smallSigma1 (word block (n + 14)) + word block (n + 9) +
      smallSigma0 (word block (n + 1)) + word block n := by
  rw [word, if_neg (by omega)]
  rfl

/-- The eight working variables. -/
structure Registers where
  a : UInt32
  b : UInt32
  c : UInt32
  d : UInt32
  e : UInt32
  f : UInt32
  g : UInt32
  h : UInt32

def Registers.toList (R : Registers) : List UInt32 := [R.a, R.b, R.c, R.d, R.e, R.f, R.g, R.h]

def Registers.ofList (l : List UInt32) : Registers :=
  ⟨l.getD 0 0, l.getD 1 0, l.getD 2 0, l.getD 3 0, l.getD 4 0, l.getD 5 0, l.getD 6 0, l.getD 7 0⟩

def step (R : Registers) (k w : UInt32) : Registers :=
  let t₁ := R.h + bigSigma1 R.e + ch R.e R.f R.g + k + w
  let t₂ := bigSigma0 R.a + maj R.a R.b R.c
  ⟨t₁ + t₂, R.a, R.b, R.c, R.d + t₁, R.e, R.f, R.g⟩

def rounds (block : Nat → UInt32) (n : Nat) (R : Registers) : Registers :=
  (List.range n).foldl (fun R t => step R (constants.getD t 0) (word block t)) R

/-- The word of four bytes, the highest first. -/
def beWord (bytes : List UInt8) : UInt32 :=
  UInt32.ofNat (2^24 * (bytes.getD 0 0).toNat + 2^16 * (bytes.getD 1 0).toNat + 2^8 * (bytes.getD 2 0).toNat + (bytes.getD 3 0).toNat)

def compress (state : List UInt32) (block : List UInt8) : List UInt32 :=
  let R := Registers.ofList state
  List.zipWith (· + ·) R.toList (rounds (fun t => beWord (block.drop (4 * t))) 64 R).toList

/-- The lowest `w` bytes of a number, the highest first. -/
def beBytes (w x : Nat) : List UInt8 := ((List.range w).map fun i => UInt8.ofNat (x / 256^i)).reverse

/-- A one, as few zeros as fill the last block up to eight bytes, and the number of bits. -/
def pad (bytes : List UInt8) : List UInt8 :=
  bytes ++ 0x80 :: List.replicate ((119 - bytes.length % 64) % 64) 0 ++ beBytes 8 (8 * bytes.length)

def sha256 (bytes : List UInt8) : List UInt8 :=
  (iterated compress 64 initial (pad bytes)).flatMap fun w => beBytes 4 w.toNat

theorem length_beBytes (w x : Nat) : (beBytes w x).length = w := by rw [beBytes, List.length_reverse, List.length_map, List.length_range]

end SuperNet.Lib.Sha256
