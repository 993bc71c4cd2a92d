import SuperNet.Lib.Sha256
import SuperNet.Utils.Vsha256

/-! The compression of curve25519.c, and the hashes that it finishes. -/
namespace SuperNet.Utils.Vsha256
open SuperNet.Lib SuperNet.Lib.IteratedHash

def load32H (y : List UInt8) : UInt32 :=
  (y.getD 0 0).toUInt32 <<< 24 ||| (y.getD 1 0).toUInt32 <<< 16 ||| (y.getD 2 0).toUInt32 <<< 8 ||| (y.getD 3 0).toUInt32

def store32H (x : UInt32) : List UInt8 := [(x >>> 24).toUInt8, (x >>> 16).toUInt8, (x >>> 8).toUInt8, x.toUInt8]

def store64H (x : UInt64) : List UInt8 :=
  [(x >>> 56).toUInt8, (x >>> 48).toUInt8, (x >>> 40).toUInt8, (x >>> 32).toUInt8, (x >>> 24).toUInt8, (x >>> 16).toUInt8,
    (x >>> 8).toUInt8, x.toUInt8]

def rorc (x y : UInt32) : UInt32 := x >>> (y &&& 31) ||| x <<< (32 - (y &&& 31))

def ch (x y z : UInt32) : UInt32 := z ^^^ (x &&& (y ^^^ z))

def maj (x y z : UInt32) : UInt32 := (x ||| y) &&& z ||| x &&& y

def sigma0 (x : UInt32) : UInt32 := rorc x 2 ^^^ rorc x 13 ^^^ rorc x 22

def sigma1 (x : UInt32) : UInt32 := rorc x 6 ^^^ rorc x 11 ^^^ rorc x 25

def gamma0 (x : UInt32) : UInt32 := rorc x 7 ^^^ rorc x 18 ^^^ x >>> 3

def gamma1 (x : UInt32) : UInt32 := rorc x 17 ^^^ rorc x 19 ^^^ x >>> 10

/-- `W[0]` to `W[n + 15]`. -/
def fillW (buf : List UInt8) : Nat → List UInt32
  | 0 => (List.range 16).map fun i => load32H (buf.drop (4 * i))
  | n + 1 =>
    let W := fillW buf n
    let i := n + 16
    W ++ [gamma1 (W.getD (i - 2) 0) + W.getD (i - 7) 0 + gamma0 (W.getD (i - 15) 0) + W.getD (i - 16) 0]

def roundKeys : List UInt32 := [
    0x428a2f98, 0x71374491, 0xb5c0fbcf, 0xe9b5dba5, 0x3956c25b, 0x59f111f1, 0x923f82a4, 0xab1c5ed5,
    0xd807aa98, 0x12835b01, 0x243185be, 0x550c7dc3, 0x72be5d74, 0x80deb1fe, 0x9bdc06a7, 0xc19bf174,
    0xe49b69c1, 0xefbe4786, 0x0fc19dc6, 0x240ca1cc, 0x2de92c6f, 0x4a7484aa, 0x5cb0a9dc, 0x76f988da,
    0x983e5152, 0xa831c66d, 0xb00327c8, 0xbf597fc7, 0xc6e00bf3, 0xd5a79147, 0x06ca6351, 0x14292967,
    0x27b70a85, 0x2e1b2138, 0x4d2c6dfc, 0x53380d13, 0x650a7354, 0x766a0abb, 0x81c2c92e, 0x92722c85,
    0xa2bfe8a1, 0xa81a664b, 0xc24b8b70, 0xc76c51a3, 0xd192e819, 0xd6990624, 0xf40e3585, 0x106aa070,
    0x19a4c116, 0x1e376c08, 0x2748774c, 0x34b0bcb5, 0x391c0cb3, 0x4ed8aa4a, 0x5b9cca4f, 0x682e6ff3,
    0x748f82ee, 0x78a5636f, 0x84c87814, 0x8cc70208, 0x90befffa, 0xa4506ceb, 0xbef9a3f7, 0xc67178f2]

/-- The macro `RND`: what becomes of `d` and `h`. -/
def rnd (a b c d e f g h wi ki : UInt32) : UInt32 × UInt32 :=
  let t0 := h + sigma1 e + ch e f g + ki + wi
  let t1 := sigma0 a + maj a b c
  (d + t0, t0 + t1)

/-- The calls of `RND` with the indices `i` to `i + 7`, after which the names are back at their registers. -/
def rndEight (W : List UInt32) (S : Sha256.Registers) (i : Nat) : Sha256.Registers :=
  let ⟨S0, S1, S2, S3, S4, S5, S6, S7⟩ := S
  let (S3, S7) := rnd S0 S1 S2 S3 S4 S5 S6 S7 (W.getD i 0) (roundKeys.getD i 0)
  let (S2, S6) := rnd S7 S0 S1 S2 S3 S4 S5 S6 (W.getD (i + 1) 0) (roundKeys.getD (i + 1) 0)
  let (S1, S5) := rnd S6 S7 S0 S1 S2 S3 S4 S5 (W.getD (i + 2) 0) (roundKeys.getD (i + 2) 0)
  let (S0, S4) := rnd S5 S6 S7 S0 S1 S2 S3 S4 (W.getD (i + 3) 0) (roundKeys.getD (i + 3) 0)
  let (S7, S3) := rnd S4 S5 S6 S7 S0 S1 S2 S3 (W.getD (i + 4) 0) (roundKeys.getD (i + 4) 0)
  let (S6, S2) := rnd S3 S4 S5 S6 S7 S0 S1 S2 (W.getD (i + 5) 0) (roundKeys.getD (i + 5) 0)
  let (S5, S1) := rnd S2 S3 S4 S5 S6 S7 S0 S1 (W.getD (i + 6) 0) (roundKeys.getD (i + 6) 0)
  let (S4, S0) := rnd S1 S2 S3 S4 S5 S6 S7 S0 (W.getD (i + 7) 0) (roundKeys.getD (i + 7) 0)
  ⟨S0, S1, S2, S3, S4, S5, S6, S7⟩

def vcompress (state : List UInt32) (buf : List UInt8) : List UInt32 :=
  let W := fillW buf 48
  let S := (List.range 8).foldl (fun S k => rndEight W S (8 * k)) (Sha256.Registers.ofList state)
  (List.range 8).map fun i => state.getD i 0 + S.toList.getD i 0

/-- `sha256_vdone`: the state it ends with, and the bytes that it writes, none when the buffer is full. -/
def vdone (md : Vstate) : Option (List UInt8) :=
  if md.curlen ≥ 64 then none
  else
    let length := md.length + UInt64.ofNat (md.curlen * 8)
    let buf := md.buf.set md.curlen 0x80
    let curlen := md.curlen + 1
    let (state, buf, curlen) :=
      if curlen > 56 then
        let buf := buf.take curlen ++ List.replicate (64 - curlen) 0
        (vcompress md.state buf, buf, 0)
      else (md.state, buf, curlen)
    let buf := buf.take curlen ++ List.replicate (56 - curlen) 0 ++ store64H length
    some ((vcompress state buf).flatMap store32H)

def vcalcSha256 (src : List UInt8) : List UInt8 := (vdone (vprocess vcompress vinit src)).getD []

/-- `vupdate_sha256`: the hash so far and the state to go on from. -/
def vupdateSha256 (state : Vstate) (src : Option (List UInt8)) : List UInt8 × Vstate :=
  let md := match src with
    | some src => vprocess vcompress state src
    | none => vinit
  ((vdone md).getD [], md)

end SuperNet.Utils.Vsha256
