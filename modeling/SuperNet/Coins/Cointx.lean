import SuperNet.Lib.AccessLog
import SuperNet.Lib.Bytes
import SuperNet.Utils.Hex

/-! Raw transactions as cointx.c emits and decodes them. The decoder runs over the
memory around its buffer `data` and logs every byte it reads there and every
string it stores in a field of the transaction. -/
namespace SuperNet.Coins.Cointx
open Lib.AccessLog Lib.Bytes Utils.Hex

def maxCointxInputs : Nat := 256
def maxCointxOutputs : Nat := 256
def sizeofTxidstr : Nat := 128
def sizeofSigs : Nat := 4096
def sizeofScript : Nat := 2048
def sizeofData : Nat := 8192

/-- `struct cointx_input`, with the fields of its `struct rawvin`. -/
structure CointxInput where
  txidstr : List Char
  vout : UInt16
  sigs : List Char
  sequence : UInt32
  deriving DecidableEq, Repr

structure Rawvout where
  value : UInt64
  script : List Char
  deriving DecidableEq, Repr

/-- `struct cointx_info`; `numinputs` and `numoutputs` are the lengths of the lists. -/
structure CointxInfo where
  version : UInt32
  timestamp : UInt32
  inputs : List CointxInput
  outputs : List Rawvout
  nlocktime : UInt32
  deriving DecidableEq, Repr

def varintField (data : Memory) (offset len : Int) (w : Nat) : Logged (Nat × Int) :=
  if offset + w > len then pure (0, -1)
  else do
    let val ← readBytes data offset w
    pure (leValue val, offset + w)

/-- `hdecode_varint`: the value and the next offset. -/
def hdecodeVarint (data : Memory) (offset len : Int) : Logged (Nat × Int) :=
  if offset < 0 ∨ offset ≥ len then pure (0, -1)
  else do
    let c ← readByte data offset
    if c = 0xfd then varintField data (offset + 1) len 2
    else if c = 0xfe then varintField data (offset + 1) len 4
    else if c = 0xff then varintField data (offset + 1) len 8
    else pure (c.toNat, offset + 1)

def hcalcVarint (x : Nat) : List UInt8 :=
  if x < 0xfd then [UInt8.ofNat (x &&& 0xff)]
  else if x ≤ 0xffff then 0xfd :: leBytes 2 x
  else if x ≤ 0xffffffff then 0xfe :: leBytes 4 x
  else 0xff :: leBytes 8 x

def emitUint32 (x : UInt32) : List UInt8 := leBytes 4 x.toNat

/-- `_decode_uint32`; the offset is checked only after the bytes were read. -/
def decodeUint32 (data : Memory) (offset len : Int) : Logged (UInt32 × Int) := do
  let b3 ← readByte data (offset + 3)
  let b2 ← readByte data (offset + 2)
  let b1 ← readByte data (offset + 1)
  let b0 ← readByte data (offset + 0)
  let x := ((b3.toNat <<< 8 ||| b2.toNat) <<< 8 ||| b1.toNat) <<< 8 ||| b0.toNat
  pure (UInt32.ofNat x, if offset + 4 > len then -1 else offset + 4)

def storeHex (room : Nat) (bytes : List UInt8) : Logged (List Char) := do
  logStore (2 * bytes.length + 1) room
  pure (initHexbytesNoT bytes)

/-- `_decode_vin`; `none` is its return value -1. -/
def decodeVin (data : Memory) (offset len : Int) : Logged (Option (CointxInput × Int)) := do
  let bytes ← readBytes data offset 32
  let txidstr ← storeHex sizeofTxidstr bytes.reverse
  let (vout, offset) ← decodeUint32 data (offset + 32) len
  if offset < 0 then pure none
  else
    let (siglen, offset) ← hdecodeVarint data offset len
    if offset < 0 ∨ siglen > sizeofSigs then pure none
    else
      let sig ← readBytes data offset siglen
      let sigs ← storeHex sizeofSigs sig
      let (sequence, offset) ← decodeUint32 data (offset + siglen) len
      if offset < 0 then pure none
      else pure (some (⟨txidstr, vout.toUInt16, sigs, sequence⟩, offset))

def emitCointxInput (vin : CointxInput) : List UInt8 :=
  let siglen := vin.sigs.length >>> 1
  ((decodeHex 32 vin.txidstr).take 32).reverse ++ emitUint32 vin.vout.toUInt32 ++ hcalcVarint siglen ++
    (if siglen ≠ 0 then (decodeHex siglen vin.sigs).take siglen else []) ++ emitUint32 vin.sequence

def emitCointxOutput (vout : Rawvout) : List UInt8 :=
  let scriptlen := vout.script.length >>> 1
  emitUint32 vout.value.toUInt32 ++ emitUint32 (vout.value >>> 32).toUInt32 ++ hcalcVarint scriptlen ++
    (if scriptlen ≠ 0 then (decodeHex scriptlen vout.script).take scriptlen else [])

/-- `_decode_vout`; `none` is its return value -1. -/
def decodeVout (data : Memory) (offset len : Int) : Logged (Option (Rawvout × Int)) := do
  let (low, offset) ← decodeUint32 data offset len
  if offset < 0 then pure none
  else
    let (high, offset) ← decodeUint32 data offset len
    if offset < 0 then pure none
    else
      let (scriptlen, offset) ← hdecodeVarint data offset len
      if offset < 0 ∨ scriptlen > sizeofScript then pure none
      else
        let bytes ← readBytes data offset scriptlen
        let script ← storeHex sizeofScript bytes
        pure (some (⟨high.toUInt64 <<< 32 ||| low.toUInt64, script⟩, offset + scriptlen))

/-- A loop of `emit_cointxdata`: `none` when an item ends past `maxlen`. -/
def emitItems {α : Type} (emit : α → List UInt8) (maxlen : Nat) : List α → List UInt8 → Option (List UInt8)
  | [], data => some data
  | item :: items, data =>
    if (data ++ emit item).length > maxlen then none else emitItems emit maxlen items (data ++ emit item)

/-- `emit_cointxdata`: the bytes up to its offset; `none` is its return value -1. -/
def emitCointxdata (maxlen : Nat) (cointx : CointxInfo) (oldtx : Int) : Option (List UInt8) := do
  let data := emitUint32 cointx.version ++ if oldtx = 0 then emitUint32 cointx.timestamp else []
  let data ← emitItems emitCointxInput maxlen cointx.inputs (data ++ hcalcVarint cointx.inputs.length)
  let data ← emitItems emitCointxOutput maxlen cointx.outputs (data ++ hcalcVarint cointx.outputs.length)
  some (data ++ emitUint32 cointx.nlocktime)

/-- `_emit_cointx`: the string it leaves in `hexstr`. When `emit_cointxdata` fails the
code ends the string at index -2, so nothing is known of `hexstr`. -/
def emitCointx (len : Nat) (cointx : CointxInfo) (oldtx : Int) : Option (List Char) :=
  match emitCointxdata len cointx oldtx with
  | none => none
  | some data => if (data.length : Int) < (len / 2 : Nat) - 1 then some (initHexbytesNoT data) else some []

/-- `_validate_decoderawtransaction`: what it leaves in `hexstr`. -/
def validateDecoderawtransaction (hexstr : List Char) (cointx : CointxInfo) (oldtx : Int) : List Char :=
  let checkstr := (emitCointx (hexstr.length * 2) cointx oldtx).getD []
  let hlen := hexstr.length
  if checkstr ≠ hexstr ∧ checkstr.length + 2 = hlen ∧ charAt hexstr (hlen-1) = charAt hexstr (hlen-2) ∧
    charAt hexstr (hlen-1) = '0' then hexstr.take (hlen-2)
  else hexstr

/-- A loop of `_decode_rawtransaction` over `n` items; `none` when an item fails. -/
def decodeItems {α : Type} (decode : Int → Logged (Option (α × Int))) : Nat → Int → Logged (Option (List α × Int))
  | 0, offset => pure (some ([], offset))
  | n+1, offset => do
    match ← decode offset with
    | none => pure none
    | some (item, offset) =>
      match ← decodeItems decode n offset with
      | none => pure none
      | some (items, offset) => pure (some (item :: items, offset))

/-- A returned transaction, with the offset the decoder compares with `len` and
the caller's string afterwards. -/
structure Decoded where
  cointx : CointxInfo
  offset : Int
  hexstr : List Char

def decodeRest (data : Memory) (len : Nat) (hexstr : List Char) (oldtx : Int) (version timestamp : UInt32)
    (inputs : List CointxInput) (offset : Int) : Logged (Option Decoded) := do
  let (numoutputs, offset) ← hdecodeVarint data offset len
  if numoutputs > maxCointxOutputs then pure none
  else
    match ← decodeItems (decodeVout data · len) numoutputs offset with
    | none => pure none
    | some (outputs, offset) =>
      let (nlocktime, offset) ← decodeUint32 data offset len
      let cointx := ⟨version, timestamp, inputs, outputs, nlocktime⟩
      pure (some ⟨cointx, offset, validateDecoderawtransaction hexstr cointx oldtx⟩)

/-- `_decode_rawtransaction` over the `len` bytes in `data`. The message about too
many inputs prints an `int` read at the current offset. -/
def decodeData (data : Memory) (len : Nat) (hexstr : List Char) (oldtx : Int) : Logged (Option Decoded) := do
  let (version, offset) ← decodeUint32 data 0 len
  let (timestamp, offset) ← if oldtx = 0 then decodeUint32 data offset len else pure (0, offset)
  let (numinputs, offset) ← hdecodeVarint data offset len
  if numinputs > maxCointxInputs then do
    let _ ← readBytes data offset 4
    pure none
  else
    match ← decodeItems (decodeVin data · len) numinputs offset with
    | none => pure none
    | some (inputs, offset) => decodeRest data len hexstr oldtx version timestamp inputs offset

def refused (hexstr : List Char) : Bool :=
  decide (hexstr.length ≥ sizeofData * 2 - 1) || !isHexstr hexstr || decide (hexstr.length &&& 1 ≠ 0)

/-- `_decode_rawtransaction` with whatever `junk` lies around the decoded bytes. -/
def decodeRawtransaction (junk : Memory) (hexstr : List Char) (oldtx : Int) : Logged (Option Decoded) :=
  if refused hexstr then pure none
  else
    let len := hexstr.length >>> 1
    decodeData (memory (decodeHex len hexstr) junk) len hexstr oldtx

end SuperNet.Coins.Cointx
