import Mathlib.Data.UInt
import SuperNet.Lib.Bytes
import SuperNet.Lib.RecordLog
import SuperNet.Utils.Vsha256

/-! The transaction log of txind777.c: a log file, an index file of one word an item, and a file of headers. -/
namespace SuperNet.Common.Txind777
open SuperNet.Lib.Bytes SuperNet.Lib.RecordLog SuperNet.Utils.Vsha256

/-- What the running hash takes from the hash function. -/
structure Sha where
  vcompress : List UInt32 → List UInt8 → List UInt32
  vdone : Vstate → List UInt8

structure Hdr where
  num : Nat
  nextpos : Nat
  blocknum : Nat
  timestamp : Nat
  firstblocknum : Nat
  lastblocknum : Nat
  state : Vstate
  sha256 : List UInt8
  deriving DecidableEq, Repr

/-- A header of zero bytes. -/
def Hdr.cleared : Hdr := ⟨0, 0, 0, 0, 0, 0, ⟨0, List.replicate 8 0, 0, List.replicate 64 0⟩, List.replicate 32 0⟩

/-- `struct txinds777_info` with the files it has open. -/
structure Info where
  H : Hdr
  txlog : List UInt8
  index : List Nat
  fp : List Hdr
  curitem : Nat
  blockitems : Option (List Nat)
  deriving DecidableEq, Repr

/-- The files that a process finds. -/
structure Files where
  hdr : Option (List Hdr)
  log : Option (List UInt8)
  index : Option (List Nat)

/-- The block table: the blocks that it spans and its entries. -/
structure Blocks where
  first : Nat
  last : Nat
  items : Option (List Nat)
  deriving DecidableEq, Repr

def Info.blocks (txinds : Info) : Blocks := ⟨txinds.H.firstblocknum, txinds.H.lastblocknum, txinds.blockitems⟩

def Info.setBlocks (txinds : Info) (b : Blocks) : Info :=
  { txinds with H := { txinds.H with firstblocknum := b.first, lastblocknum := b.last }, blockitems := b.items }

def txinds777Seek (txinds : Info) (blocknum : Nat) : Info :=
  match txinds.blockitems with
  | some items =>
    if txinds.H.firstblocknum ≤ blocknum ∧ blocknum ≤ txinds.H.lastblocknum then
      { txinds with curitem := items.getD (blocknum - txinds.H.firstblocknum) 0 }
    else { txinds with curitem := 0 }
  | none => { txinds with curitem := 0 }

/-- `txinds777_read`; `none` is a null pointer. -/
def txinds777Read (txinds : Info) : Option (List UInt8) :=
  match txinds.index[txinds.curitem]? with
  | none => none
  | some txind =>
    let len := txind % 2^16
    let fpos := txind >>> 16
    if fpos + len ≤ txinds.H.nextpos ∧ 12 < len ∧ fpos + len ≤ txinds.txlog.length then
      some ((txinds.txlog.drop (fpos + 12)).take (len - 12))
    else none

/-- Entry `j` of memory that held `w`, after `memset` has cleared `n` bytes from entry 0 on. -/
def memset0 (n j w : Nat) : Nat := w - w % 256^(min 8 (n - 8 * j))

/-- The entries that `realloc` adds to the table, made of what the memory held before. -/
def grown (junk : Nat → UInt64) (oldrange newrange : Nat) : List Nat :=
  (List.range (newrange - oldrange)).map fun j =>
    if newrange > oldrange + 1 then memset0 (newrange - oldrange) j (junk (oldrange + j)).toNat
    else (junk (oldrange + j)).toNat

/-- `txinds777_ensure` on the table; `none` is a write through a null pointer, which `realloc` returns for a
range that is negative as an `int32_t`, or a write in front of the table. -/
def Blocks.ensure (junk : Nat → UInt64) (b : Blocks) (blocknum curitem : Nat) : Option Blocks :=
  match b.items with
  | none => some ⟨blocknum, blocknum, some [curitem]⟩
  | some items =>
    if blocknum > b.last then
      let oldrange := b.last - b.first + 1
      let newrange := blocknum - b.first + 1
      if newrange < 2^31 then
        some ⟨b.first, blocknum, some ((items ++ grown junk oldrange newrange).set (blocknum - b.first) curitem)⟩
      else none
    else if b.first ≤ blocknum then some { b with items := some (items.set (blocknum - b.first) curitem) }
    else none

def txinds777Ensure (junk : Nat → UInt64) (txinds : Info) (blocknum curitem : Nat) : Option Info := do
  let b ← txinds.blocks.ensure junk blocknum curitem
  some (txinds.setBlocks b)

def triplet (len blocknum timestamp : Nat) : List UInt8 := leBytes 4 len ++ leBytes 4 blocknum ++ leBytes 4 timestamp

/-- `txind777_create` of the `len` bytes at `txdata`, and what it returns; `none` is a shift out of the
64 bits of the index word, or the crash of `txinds777_ensure`. -/
def txind777Create (sha : Sha) (junk : Nat → UInt64) (txinds : Info) (blocknum timestamp : Nat) (txdata : List UInt8) :
    Option (Info × Int) :=
  if txdata = [] then some (txinds, -1)
  else if 2^47 ≤ txinds.H.nextpos then none
  else do
    let len := txdata.length
    let txind := (txinds.H.nextpos <<< 16) ||| (len + 12)
    let txlog := overwrite txinds.txlog txinds.H.nextpos (triplet len blocknum timestamp ++ txdata)
    let txinds ← txinds777Ensure junk { txinds with txlog := txlog } blocknum txinds.H.num
    let num := txinds.H.num
    let state := vprocess sha.vcompress txinds.H.state txdata
    some ({ txinds with
      index := txinds.index.take num ++ txind :: txinds.index.drop (num + 1)
      H := { txinds.H with num := num + 1, nextpos := txinds.H.nextpos + (len + 12), state := state, sha256 := sha.vdone state } },
      txind)

/-- `txinds777_flush`: the header goes behind the others and over the first of them. -/
def txinds777Flush (txinds : Info) (blocknum blocktimestamp : Nat) : Info :=
  let H := { txinds.H with blocknum := blocknum, timestamp := blocktimestamp }
  { txinds with H := H, fp := (txinds.fp ++ [H]).set 0 H }

/-- The last header that the sizes of the other files allow. -/
def goodHdr (indexfpos logfpos : Nat) : Hdr → List Hdr → Hdr
  | goodH, [] => goodH
  | goodH, H :: hdrs => if H.num * 8 > indexfpos ∨ H.nextpos > logfpos then goodH else goodHdr indexfpos logfpos H hdrs

/-- The loop of `txinds777_init` over the words left in the index file, with the position in the log. -/
def verify (junk : Nat → UInt64) : List Nat → Nat → Info → Option Info
  | [], _, txinds => some txinds
  | txind :: words, logfpos, txinds =>
    if txinds.curitem < txinds.H.num then
      if logfpos + 12 ≤ txinds.txlog.length then
        let len := leValue ((txinds.txlog.drop logfpos).take 4)
        let blocknum := leValue ((txinds.txlog.drop (logfpos + 4)).take 4)
        if len + logfpos > txinds.H.nextpos then some txinds
        else if (logfpos <<< 16) ||| (len + 12) ≠ txind then
          some { txinds with H := { txinds.H with num := txinds.curitem, nextpos := logfpos } }
        else
          match txinds777Ensure junk txinds blocknum txinds.curitem with
          | none => none
          | some txinds => verify junk words (logfpos + (len + 12)) { txinds with curitem := txinds.curitem + 1 }
      else verify junk words txinds.txlog.length txinds
    else some txinds

/-- A log that nothing was restored for. -/
def Info.fresh (sha : Sha) (files : Files) (fp : List Hdr) : Info where
  H := { Hdr.cleared with state := vinit, sha256 := sha.vdone vinit }
  txlog := files.log.getD []
  index := files.index.getD []
  fp := fp
  curitem := 0
  blockitems := none

/-- `txinds777_init`. A file that is there is positioned where the first header has its end; one that is
not is opened empty. -/
def txinds777Init (sha : Sha) (junk : Nat → UInt64) (files : Files) : Option Info :=
  match files.hdr with
  | none => some (Info.fresh sha files [Hdr.cleared])
  | some [] => some (Info.fresh sha files [])
  | some (H :: hdrs) =>
    let logfpos := if files.log.isSome then H.nextpos else 0
    let indexfpos := if files.index.isSome then H.num * 8 else 0
    let goodH := goodHdr indexfpos logfpos Hdr.cleared hdrs
    let txinds : Info := ⟨goodH, files.log.getD [], files.index.getD [], H :: hdrs, 0, none⟩
    if goodH.nextpos > 0 then verify junk txinds.index 0 txinds else some txinds

inductive Call where
  | create (blocknum timestamp : Nat) (txdata : List UInt8)
  | flush (blocknum blocktimestamp : Nat)

def step (sha : Sha) (junk : Nat → UInt64) (txinds : Info) : Call → Option Info
  | .create blocknum timestamp txdata => (txind777Create sha junk txinds blocknum timestamp txdata).map Prod.fst
  | .flush blocknum blocktimestamp => some (txinds777Flush txinds blocknum blocktimestamp)

def run (sha : Sha) (junk : Nat → UInt64) (txinds : Info) (calls : List Call) : Option Info := calls.foldlM (step sha junk) txinds

/-- The log in an empty directory. -/
def opened (sha : Sha) : Info := Info.fresh sha ⟨none, none, none⟩ [Hdr.cleared]

end SuperNet.Common.Txind777
