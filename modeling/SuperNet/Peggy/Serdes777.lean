import SuperNet.Lib.Bytes
import SuperNet.Utils.Hex
import SuperNet.Utils.HuffstreamBits
import SuperNet.Utils.Utils777

/-! The field codecs of serdes777.c. The walkers of the source take a `rwflag`;
here `Put` holds their write side, as the `hputbit` calls they make, and `Get` their read side. -/
namespace SuperNet.Peggy.Serdes777
open Lib.Words Lib.Bytes Lib.BitCodec Utils.Huffstream Utils.Hex
open Utils.Utils777 (unbase32)

abbrev Rd := StateT Huff Option

/-- What `serdes777_rwstr` finds in its uninitialised locals: the upper three bytes of `len`,
of which `serdes777_rwchar` stores only the lowest, and the bytes of `buf`. -/
structure Stack where
  len : Nat
  buf : Nat → UInt8

def bufsize : Nat := 4096*2 + 1

/-- The token sizes of the codec tables: negative ones are `raw`, the others pick a
`serdes777_rwsizebits`. Strings (size 0, 16, 32) go through `rwstr`. -/
inductive Size where
  | raw (bytes : Nat)
  | char
  | short
  | int
  | long
  deriving DecidableEq, Repr

def Size.bits : Size → Nat
  | .raw n => 8 * n
  | .char => 8
  | .short => 16
  | .int => 32
  | .long => 64

/-- Bits of the 64-bit value up to its highest set one, 1 for zero. -/
def hcalcBitsize (x : Nat) : Nat := if x = 0 then 1 else Nat.size x

namespace Put

def rwbits (len x : Nat) : List Call := (leBits len x).map fun b => ⟨b, true⟩

/-- `hputbit` calls whose result is dropped. -/
def untested (bs : List Bool) : List Call := bs.map fun b => ⟨b, false⟩

def rwsizebits (sizebits xval : Nat) : Option (List Call) :=
  if sizebits = 3 then
    if xval = 0 then some (untested [false])
    else if xval < 3 then some (untested [true, decide (xval % 2 = 1), decide (xval / 2 % 2 = 1)])
    else some (untested [true, true, true] ++ rwbits 8 xval)
  else if 2^sizebits ≤ hcalcBitsize xval - 1 then none
  else some (rwbits sizebits (hcalcBitsize xval - 1) ++ rwbits (hcalcBitsize xval - 1 + 1) xval)

def rw : Size → Nat → Option (List Call)
  | .raw n, x => some (rwbits (8 * n) x)
  | .char, x => rwsizebits 3 x
  | .short, x => rwsizebits 4 x
  | .int, x => rwsizebits 5 x
  | .long, x => rwsizebits 6 x

def codec : List (Size × Nat) → Option (List Call)
  | [] => some []
  | (size, x) :: tokens => do
    let cs ← rw size x
    let rest ← codec tokens
    some (cs ++ rest)

end Put

namespace Get

/-- A bit whose absence ends the walk. -/
def bit : Rd Bool := do
  match ← getbit with
  | some b => pure b
  | none => fun _ => none

def rwbits : Nat → Rd Nat
  | 0 => pure 0
  | n+1 => do
    let b ← bit
    let x ← rwbits n
    pure (b.toNat + 2 * x)

/-- `hgetbit` as a number; -1 past the end. -/
def bitval : Option Bool → Int
  | some b => b.toNat
  | none => -1

/-- `serdes777_rwsizebits` with `sizebits` 3: the byte and the bits consumed. The two calls in
`hgetbit(hp) + (hgetbit(hp) << 1)` are taken left to right. -/
def rwchar : Rd (Nat × Nat) := do
  let flag ← getbit
  if bitval flag = 0 then pure (0, 1)
  else
    let lo ← getbit
    let hi ← getbit
    if bitval lo + 2 * bitval hi < 3 then pure (u8 (bitval lo + 2 * bitval hi), 3)
    else
      let x ← rwbits 8
      pure (x, 11)

def rwsizebits (sizebits : Nat) : Rd (Nat × Nat) := do
  let numbits ← rwbits sizebits
  let x ← rwbits (numbits + 1)
  pure (x, numbits + 1 + sizebits)

/-- The field is zero before it is read, since `serdes777_deserialize` clears the transaction. -/
def rw : Size → Rd (Nat × Nat)
  | .raw n => do
    let x ← rwbits (8 * n)
    pure (x, 8 * n)
  | .char => rwchar
  | .short => rwsizebits 4
  | .int => rwsizebits 5
  | .long => rwsizebits 6

def codec : List Size → Rd (List Nat × Nat)
  | [] => pure ([], 0)
  | size :: tokens => do
    let x ← rw size
    let rest ← codec tokens
    pure (x.1 :: rest.1, x.2 + rest.2)

end Get

/-! Strings. A C string is read in the array that holds it; running past its end is a failure. -/

def toChar (b : UInt8) : Char := Char.ofNat b.toNat
def ofChar (c : Char) : UInt8 := UInt8.ofNat c.toNat

def strlen (data : List UInt8) : Option Nat := data.findIdx? (· == 0)

/-- The array `buf` with its first bytes replaced. -/
def overlay (bytes : List UInt8) (buf : Nat → UInt8) (i : Nat) : UInt8 := (bytes[i]?).getD (buf i)

/-- `decode_base32`: the bits it has written. Its loop header `j=val5=0` clears the digit
before the bits are copied, so every one of them is 0. -/
def decodeBase32 (tokenstr : List UInt8) : Option Nat :=
  if tokenstr.all fun c => (unbase32 c).isSome then some (8 * ((5 * tokenstr.length + 7) / 8)) else none

/-- Such are the bits that the loops leave in an array with room for them. -/
theorem decodeBase32_clears {tokenstr token : List UInt8} {n : Nat} (h : decodeBase32 tokenstr = some n)
    (hroom : n ≤ 8 * token.length) (hlt : n < 2^31) : ∃ token', Utils.Utils777.decodeBase32 tokenstr 0 token = some ((n : Int), token') ∧
      Utils.Utils777.Clears token 0 n token' := by
  rw [decodeBase32] at h
  split at h
  case isFalse => cases h
  case isTrue hall =>
    have hn : Utils.Utils777.padded (0 + 5 * tokenstr.length) = n := by
      rw [← Option.some.inj h, Utils.Utils777.padded]
      omega
    rw [← hn] at hlt ⊢
    exact Utils.Utils777.decodeBase32_eq (List.all_eq_true.mp hall) (by rw [Utils.Utils777.padded] at hn; omega) hlt

/-- `base32byte` stored in a `char`. -/
def base32byte (val : Int) : UInt8 := UInt8.ofNat (u8 (Utils.Utils777.base32byte val))

/-- `init_base32`. Its `SETBIT(&val5,offset)` does not restart at each digit; past bit 31 it
would write behind `val5`. -/
def initBase32 (token : Nat → UInt8) (len : Nat) : Option (List UInt8) :=
  let bit (k : Nat) : Bool := (token (k / 8)).toNat.testBit (k % 8)
  if (List.range (5 * len)).any fun k => decide (32 ≤ k) && bit k then none
  else some ((List.range len).map (fun i =>
    base32byte (signed 32 (((List.range 5).map fun j => if bit (5*i+j) then 2^(5*i+j) else 0).sum : Nat))) ++ [0])

namespace Put

/-- `serdes777_convstr` with a positive encoding: the length it reports, in bits, and `buf`. -/
def convstr (stack : Stack) (encoding : Nat) (src : List UInt8) : Option (Nat × (Nat → UInt8)) :=
  if encoding = 16 then
    some (8 * (src.length / 2), overlay (decodeHex (src.length / 2) (src.map toChar)) stack.buf)
  else if encoding = 32 then
    (decodeBase32 src).map fun n => (n, overlay (List.replicate (n / 8) 0) stack.buf)
  else none

def rwvarstr (data : Nat → UInt8) (len : Nat) : Option (List Call) := do
  let head ← rwsizebits 3 (len % 256)
  let body ← (List.range len).mapM fun i => rwsizebits 3 (data i).toNat
  some (head ++ body.flatten)

def rwstr (stack : Stack) (data : List UInt8) (encoding : Nat) : Option (List Call) := do
  let len ← strlen data
  if encoding = 0 then rwvarstr (fun i => data.getD i 0) len
  else
    let conv ← convstr stack encoding (data.take len)
    if conv.1 % 8 ≠ 0 then none else rwvarstr conv.2 conv.1

end Put

namespace Get

/-- `serdes777_rwvarstr` into an array of `room` bytes; `len` is an `int32_t` whose lowest byte is read. -/
def rwvarstr (stack : Stack) (room : Nat) : Rd (List UInt8 × Nat) := do
  let c ← rwchar
  let n := (signed 32 (256 * stack.len + c.1 % 256 : Nat)).toNat
  if room < n then fun _ => none
  else
    let xs ← times rwchar n
    pure (xs.map fun x => UInt8.ofNat x.1, c.2 + (xs.map Prod.snd).sum)

/-- `serdes777_convstr` with a negative encoding into an array of `room` bytes. -/
def convstr (encoding : Nat) (src : Nat → UInt8) (len room : Nat) : Option (List UInt8 × Nat) :=
  if encoding = 16 then
    if bufsize < len ∨ room < 2 * len + 1 then none
    else some ((initHexbytesNoT ((List.range len).map src)).map ofChar ++ [0], 8 * (2 * len + 1))
  else if encoding = 32 then
    if room < len + 1 then none else (initBase32 src len).map fun s => (s, len)
  else none

def rwstr (stack : Stack) (room encoding : Nat) : Rd (List UInt8 × Nat) :=
  if encoding = 0 then rwvarstr stack room
  else do
    let data ← rwvarstr stack bufsize
    match convstr encoding (overlay data.1 stack.buf) data.2 room with
    | some r => pure r
    | none => fun _ => none

end Get

end SuperNet.Peggy.Serdes777
