import SuperNet.Utils.Huffstream

/-! The adaptive arithmetic coder of ramcoder.c. Encoder and decoder share the
coder record; each side adds the `HUFF` it writes to or reads from. -/
namespace SuperNet.Utils.Ramcoder
open Lib.Words Huffstream

def ramcoderMaxsymbols : Nat := 0x100

/-- `struct ramcoder`; `ranges` is its flexible array. -/
structure Coder where
  cumulativeProb : Nat
  lower : Nat
  upper : Nat
  code : Nat
  underflowBits : Nat
  lastsymbol : Nat
  upperLastsymbol : Nat
  counter : Nat
  ranges : Nat → Nat

def rammaskBit (x : Nat) : Nat := 1 <<< (8 * 2 - (1 + x))

/-- The array written by the first loop of `init_ramcoder`. The bound
`sizeof(seed)*8` is the size of a pointer, so only 64 seed bits are used. -/
def initRanges (seed : BitVec 256) : Nat → Nat
  | 0 => 0
  | i+1 => u16 (initRanges seed i + 1 + 256 * (if i + 1 ≤ 64 then (seed.getLsbD i).toNat else 0))

/-- The second loop of `init_ramcoder` and the last statement of the rescaling loop. -/
def sumRanges (ranges : Nat → Nat) : Nat → Nat
  | 0 => 0
  | i+1 => u32 (sumRanges ranges i + ((ranges (i+1) : Int) - ranges i))

/-- `init_ramcoder` on a zeroed coder, before the code register is loaded. -/
def initRamcoder (seed : BitVec 256) : Coder where
  cumulativeProb := sumRanges (initRanges seed) (ramcoderMaxsymbols + 1)
  lower := 0
  upper := 2^16 - 1
  code := 0
  underflowBits := 0
  lastsymbol := ramcoderMaxsymbols
  upperLastsymbol := ramcoderMaxsymbols + 1
  counter := 0
  ranges := initRanges seed

/-- The return values 0, 1 and -1 of `ramcoder_state`. -/
inductive NormState where
  | msbsMatch | underflow | done
  deriving DecidableEq, Repr

def ramcoderState (c : Coder) : NormState :=
  if c.upper &&& rammaskBit 0 = c.lower &&& rammaskBit 0 then .msbsMatch
  else if c.lower &&& rammaskBit 1 ≠ 0 ∧ c.upper &&& rammaskBit 1 = 0 then .underflow
  else .done

def ramcoderNormalize (c : Coder) : Coder :=
  { c with lower := c.lower &&& (0xffff ^^^ (rammaskBit 0 ||| rammaskBit 1))
           upper := c.upper ||| rammaskBit 1 }

def ramcoderShiftbits (c : Coder) : Coder :=
  { c with lower := u16 (c.lower * 2), upper := u16 (c.upper * 2) ||| 1 }

/-- What the rescaling loop makes of one weight. -/
def halfWeight (delta : Nat) : Nat := if delta ≤ 2 then 1 else delta / 2

/-- The rescaling loop; `original` holds the old entry before the current one. -/
def rescaleRanges (ranges : Nat → Nat) : Nat → Nat
  | 0 => ranges 0
  | i+1 =>
    let original := if i = 0 then 0 else ranges i
    let delta := u16 ((ranges (i+1) : Int) - original)
    u16 (rescaleRanges ranges i + halfWeight delta)

/-- The adaptive part of `ramcoder_update`. -/
def ramcoderAdapt (symbol : Nat) (c : Coder) : Coder :=
  let cumulativeProb := u32 (c.cumulativeProb + 1)
  let ranges := fun i => if symbol + 1 ≤ i ∧ i ≤ c.upperLastsymbol then u16 (c.ranges i + 1) else c.ranges i
  let counter := u16 (c.counter + 1)
  if cumulativeProb ≥ 1 <<< (8 * 2 - 2) then
    let scaled := fun i => if i ≤ c.upperLastsymbol then rescaleRanges ranges i else ranges i
    { c with cumulativeProb := sumRanges scaled c.upperLastsymbol, ranges := scaled, counter := counter }
  else { c with cumulativeProb := cumulativeProb, ranges := ranges, counter := counter }

/-- The interval part of `ramcoder_update`. -/
def ramcoderNarrow (symbol : Nat) (c : Coder) : Coder :=
  let range := u32 (u32 ((c.upper : Int) - c.lower) + 1)
  { c with
      upper := u16 ((c.lower : Int) + u16 (u32 (c.ranges (symbol+1) * range) / c.cumulativeProb : Nat) - 1)
      lower := u16 ((c.lower : Int) + u16 (u32 (c.ranges symbol * range) / c.cumulativeProb : Nat)) }

/-- `ramcoder_update` up to the bit transfer at its end. -/
def ramcoderUpdate (symbol : Nat) (updateprobs : Int) (c : Coder) : Coder :=
  let c := ramcoderNarrow symbol c
  if updateprobs ≠ 0 then ramcoderAdapt symbol c else c

/-- The encoder's side. The code drops the return values of `hputbit` and lets
the `uint16_t` counter of pending bits wrap; `full` and `wrapped` record that
one of these has happened. -/
structure Sink where
  coder : Coder
  hp : Huff
  full : Bool
  wrapped : Bool

def Sink.put (st : Sink) (bit : Bool) : Sink :=
  { st with hp := (hputbit st.hp bit).1, full := st.full || decide ((hputbit st.hp bit).2 ≠ 0) }

def Sink.addUnderflow (st : Sink) : Sink :=
  { st with coder := { st.coder with underflowBits := u16 (st.coder.underflowBits + 1) }
            wrapped := st.wrapped || decide (2^16 ≤ st.coder.underflowBits + 1) }

/-- The loops that write one bit per pending underflow. -/
def Sink.drain (bit : Bool) : Nat → Sink → Sink
  | 0, st => st
  | n+1, st =>
    let st := st.put bit
    Sink.drain bit n { st with coder := { st.coder with underflowBits := st.coder.underflowBits - 1 } }

/-- The flush at the end of `ramcoder_putbits`. -/
def Sink.flush (st : Sink) : Sink :=
  let bit : Bool := st.coder.lower &&& rammaskBit 1 ≠ 0
  let st := (st.put bit).addUnderflow
  st.drain (!bit) st.coder.underflowBits

/-- `ramcoder_putbits`; `none` when the loop has not ended after `fuel` rounds. -/
def ramcoderPutbits (flushflag : Bool) : Nat → Sink → Option Sink
  | 0, _ => none
  | fuel+1, st =>
    match ramcoderState st.coder with
    | .underflow =>
      let st := st.addUnderflow
      ramcoderPutbits flushflag fuel { st with coder := ramcoderShiftbits (ramcoderNormalize st.coder) }
    | .msbsMatch =>
      let msb : Bool := st.coder.upper &&& rammaskBit 0 ≠ 0
      let st := st.put msb
      let st := st.drain (!msb) st.coder.underflowBits
      ramcoderPutbits flushflag fuel { st with coder := ramcoderShiftbits st.coder }
    | .done => some (if flushflag then st.flush else st)

/-- `ramcoder_update` with `RAMCODER_PUTBITS`, and `RAMCODER_FINALIZE` when `flushflag`. -/
def ramcoderEncode (fuel : Nat) (symbol : Nat) (updateprobs : Int) (flushflag : Bool) (st : Sink) : Option Sink :=
  ramcoderPutbits flushflag fuel { st with coder := ramcoderUpdate symbol updateprobs st.coder }

def ramcoderEmit (fuel : Nat) (updateprobs : Int) : List UInt8 → Sink → Option Sink
  | [], st => some st
  | b :: buf, st => ramcoderEncode fuel b.toNat updateprobs false st >>= ramcoderEmit fuel updateprobs buf

/-- `ramcoder_encoder` with a null coder: the whole message, the end symbol twice
and the flush, from the start of the `HUFF`. -/
def ramcoderEncoder (fuel : Nat) (updateprobs : Int) (buf : List UInt8) (hp : Huff) (seed : BitVec 256) :
    Option Sink := do
  let st : Sink := ⟨initRamcoder seed, hrewind hp, false, false⟩
  let st ← ramcoderEmit fuel updateprobs buf st
  let st ← ramcoderEncode fuel st.coder.lastsymbol updateprobs false st
  ramcoderEncode fuel st.coder.lastsymbol updateprobs true st

/-- The decoder's side; `eof` records that a read went past the end. -/
structure Source where
  coder : Coder
  hp : Huff
  eof : Bool

/-- The loop of `init_ramcoder` that loads the code register. A read past the
end ORs -1 into it. -/
def loadCode : Nat → Source → Source
  | 0, st => st
  | n+1, st =>
    let code := u16 (st.coder.code * 2)
    match hgetbit st.hp with
    | (hp, some bit) => loadCode n ⟨{ st.coder with code := code ||| bit.toNat }, hp, st.eof⟩
    | (hp, none) => loadCode n ⟨{ st.coder with code := 0xffff }, hp, true⟩

/-- The end of a round of `ramcoder_getbits`: shift, read the next bit, go on. -/
def getbitsShift (loop : Source → Option Source) (st : Source) : Option Source :=
  let c := ramcoderShiftbits st.coder
  let code := u16 (c.code * 2)
  match hgetbit st.hp with
  | (hp, some bit) => loop ⟨{ c with code := code ||| bit.toNat }, hp, st.eof⟩
  | (hp, none) => some ⟨{ c with code := code }, hp, true⟩

def ramcoderGetbits : Nat → Source → Option Source
  | 0, _ => none
  | fuel+1, st =>
    match ramcoderState st.coder with
    | .msbsMatch => getbitsShift (ramcoderGetbits fuel) st
    | .underflow =>
      let c := ramcoderNormalize st.coder
      getbitsShift (ramcoderGetbits fuel) { st with coder := { c with code := c.code ^^^ rammaskBit 1 } }
    | .done => some st

/-- The loop of `ramdecoder_bsearch`; `none` is its return value -1. -/
def ramdecoderBsearch (probability : Nat) (c : Coder) : Nat → Int → Int → Option Nat
  | 0, _, _ => none
  | fuel+1, first, last =>
    if last ≥ first then
      let middle := first + (last - first) / 2
      if probability < c.ranges middle.toNat then ramdecoderBsearch probability c fuel first (middle - 1)
      else if probability ≥ c.ranges (middle + 1).toNat then ramdecoderBsearch probability c fuel (middle + 1) last
      else some middle.toNat
    else none

/-- `RAMDECODER_UNSCALED`, truncated to the `uint16_t` parameter it is passed to. -/
def ramdecoderUnscaled (c : Coder) : Nat :=
  u16 (u32 ((u32 (u32 ((c.code : Int) - c.lower) + 1) * c.cumulativeProb : Nat) - 1) /
    u32 (u32 ((c.upper : Int) - c.lower) + 1) : Nat)

/-- `ramcoder_decode`: the inner `none` is its return value -1. -/
def ramcoderDecode (fuel : Nat) (updateprobs : Int) (st : Source) : Option (Source × Option Nat) :=
  match ramdecoderBsearch (ramdecoderUnscaled st.coder) st.coder (st.coder.upperLastsymbol + 2)
      0 st.coder.upperLastsymbol with
  | none => some (st, none)
  | some ind =>
    if ind = st.coder.lastsymbol then some (st, none)
    else do
      let st ← ramcoderGetbits fuel { st with coder := ramcoderUpdate ind updateprobs st.coder }
      some (st, some ind)

/-- The loop of `ramcoder_decoder` with `n` places left in `buf`. -/
def decodeLoop (fuel : Nat) (updateprobs : Int) : Nat → Source → List UInt8 → Option (Source × List UInt8)
  | 0, st, buf => some (st, buf)
  | n+1, st, buf => do
    match ← ramcoderDecode fuel updateprobs st with
    | (st, none) => some (st, buf)
    | (st, some val) => decodeLoop fuel updateprobs n st (buf ++ [UInt8.ofNat val])

/-- `ramcoder_decoder` with a null coder. The return value is the length of the list. -/
def ramcoderDecoder (fuel : Nat) (updateprobs : Int) (maxlen : Nat) (hp : Huff) (seed : BitVec 256) :
    Option (Source × List UInt8) :=
  decodeLoop fuel updateprobs maxlen (loadCode 16 ⟨initRamcoder seed, hrewind hp, false⟩) []

end SuperNet.Utils.Ramcoder
