import SuperNet.Lib.Words
import SuperNet.Lib.Bytes
import SuperNet.Utils.Hex
import Mathlib.Data.UInt

/-! The tables of a ramchain and the functions of coins777.c that read them or move the outputs of an address.
A memory mapped table is a map from its index, and a running hash is the list of the bytes it was fed. -/
namespace SuperNet.Coins.Coin777
open Lib.Words Lib.Bytes Utils.Hex

inductive Table
  | addrinfos | blocks | txoffsets | txidbits | unspents | spends | ledger | addrtx | txids | addrs | scripts
  deriving DecidableEq, Repr

structure UnspentInfo where
  value : UInt64
  addrind : Nat
  rawindOrBlocknum : Nat
  isblocknum : Bool
  deriving DecidableEq, Repr

structure SpendInfo where
  unspentind : Nat
  addrind : Nat
  spendingTxidind : Nat
  spendingVin : Nat
  deriving DecidableEq, Repr

/-- `struct addrtx_info`. A `struct addrtx_linkptr` is written over one, its fields in the same order. -/
structure AddrtxInfo where
  unspentind : Nat
  spendind : Nat
  deriving DecidableEq, Repr

/-- `struct coin777_Lentry`, with the bits of the signed balance. -/
structure Lentry where
  balance : UInt64
  firstAddrtxi : Nat
  numaddrtx : Nat
  maxaddrtx : Nat
  insideA : Bool
  deriving DecidableEq, Repr

/-- `struct coin777_addrinfo`: the address, its embedded script and the outputs behind them. -/
structure Addrinfo where
  rootAddrtxi : Nat
  firstblocknum : Nat
  coinaddr : List Char
  script : List UInt8
  slots : Nat → AddrtxInfo

structure CoinOffsets where
  blockhash : List UInt8
  merkleroot : List UInt8
  credits : UInt64
  debits : UInt64
  timestamp : Nat
  txidind : Nat
  unspentind : Nat
  numspends : Nat
  addrind : Nat
  scriptind : Nat
  totaladdrtx : Nat
  check : List UInt8
  deriving DecidableEq, Repr

def AddrtxInfo.zero : AddrtxInfo := ⟨0, 0⟩

def Addrinfo.zero : Addrinfo := ⟨0, 0, [], [], fun _ => AddrtxInfo.zero⟩

def CoinOffsets.zero : CoinOffsets :=
  ⟨List.replicate 32 0, List.replicate 32 0, 0, 0, 0, 0, 0, 0, 0, 0, 0, List.replicate 16 0⟩

/-- The ramchain of a `struct coin777`, with the variables that `coin777_parse` and `parse_block` count in. -/
structure Coin where
  fed : Table → List UInt8
  txidDB : List UInt8 → Option Nat
  addrDB : List Char → Option Nat
  scriptDB : List UInt8 → Option (List UInt8)
  addrinfos : Nat → Addrinfo
  blocks : Nat → CoinOffsets
  txoffsets : Nat → Nat × Nat
  txidbits : Nat → List UInt8
  unspents : Nat → UnspentInfo
  spends : Nat → SpendInfo
  ledger : Nat → Lentry
  addrtx : Nat → AddrtxInfo
  latest : CoinOffsets
  credits : UInt64
  debits : UInt64
  txidind : Nat
  unspentind : Nat
  numspends : Nat
  addrind : Nat
  scriptind : Nat
  totaladdrtx : Nat
  firstvout : Nat
  firstvin : Nat

/-- The ramchain before the first block: empty tables, and every index at 1. -/
def Coin.genesis : Coin where
  fed _ := []
  txidDB _ := none
  addrDB _ := none
  scriptDB _ := none
  addrinfos _ := Addrinfo.zero
  blocks _ := CoinOffsets.zero
  txoffsets _ := (0, 0)
  txidbits _ := []
  unspents _ := ⟨0, 0, 0, false⟩
  spends _ := ⟨0, 0, 0, 0⟩
  ledger _ := ⟨0, 0, 0, 0, false⟩
  addrtx _ := AddrtxInfo.zero
  latest := CoinOffsets.zero
  credits := 0
  debits := 0
  txidind := 1
  unspentind := 1
  numspends := 1
  addrind := 1
  scriptind := 1
  totaladdrtx := 1
  firstvout := 1
  firstvin := 1

def Coin.vupdate (coin : Coin) (t : Table) (bytes : List UInt8) : Coin :=
  { coin with fed := Function.update coin.fed t (coin.fed t ++ bytes) }

def charBytes (s : List Char) : List UInt8 := s.map fun c => UInt8.ofNat c.toNat

/-- The bytes of a string with its end mark. -/
def stringBytes (s : List Char) : List UInt8 := charBytes s ++ [0]

def UnspentInfo.bytes (U : UnspentInfo) : List UInt8 :=
  leBytes 8 U.value.toNat ++ leBytes 4 U.addrind ++ leBytes 4 (U.rawindOrBlocknum + 2^31 * U.isblocknum.toNat)

/-- The two bytes behind `spending_vin` are padding. -/
def SpendInfo.bytes (S : SpendInfo) : List UInt8 :=
  leBytes 4 S.unspentind ++ leBytes 4 S.addrind ++ leBytes 4 S.spendingTxidind ++ leBytes 2 S.spendingVin ++ [0, 0]

def AddrtxInfo.bytes (atx : AddrtxInfo) : List UInt8 := leBytes 4 atx.unspentind ++ leBytes 4 atx.spendind

def ledgerBytes (value : UInt64) (addrind blocknum : Nat) : List UInt8 :=
  leBytes 8 value.toNat ++ leBytes 4 addrind ++ leBytes 4 blocknum

def Coin.uvalue (coin : Coin) (unspentind : Nat) : UInt64 := (coin.unspents unspentind).value

def decodeScript (scriptstr : List Char) : List UInt8 :=
  (decodeHex (scriptstr.length / 2) scriptstr).take (scriptstr.length / 2)

def decodeTxid (txidstr : List Char) : List UInt8 := decodeHex 32 txidstr

/-- `coin777_script0`: whether the script is the one in the record of the address. -/
def Coin.script0 (coin : Coin) (addrind : Nat) (script : List UInt8) : Bool :=
  (coin.addrinfos addrind).script ≠ [] ∧ (coin.addrinfos addrind).script = script

/-- The index that `coin777_getDB` finds in the scripts under a key, 0 for none. -/
def Coin.scriptDBind (coin : Coin) (script : List UInt8) : Nat :=
  ((coin.scriptDB script).map fun value => leValue (value.take 4)).getD 0

def Coin.scriptstr (coin : Coin) (max scriptind addrind : Nat) : List Char :=
  if scriptind ≠ 0 then match coin.scriptDB (leBytes 4 scriptind) with
    | some script => if script.length < max then initHexbytesNoT script else []
    | none => []
  else initHexbytesNoT (coin.addrinfos addrind).script

/-- `sizeof(struct coin777_addrinfo)`, the offset of its `coinaddr` and the size of that. -/
def addrinfoSize : Nat := 168
def coinaddrOffset : Nat := 11
def coinaddrSize : Nat := 156

/-- `sizeof(struct addrtx_info)`. -/
def addrtxSize : Nat := 8

/-- Whether an entry of an embedded list lies in the record of its address. -/
def Lentry.embeds (L : Lentry) (addrtxi : Nat) : Bool := L.firstAddrtxi + addrtxSize * (addrtxi + 1) ≤ addrinfoSize

/-- Whether an entry lies in the addrtx table or in the record of the address. -/
def Lentry.holds (L : Lentry) (addrtxi : Nat) : Bool := !L.insideA || L.embeds addrtxi

/-- `coin777_RWaddrtx` with `writeflag` 0. It reads the entries of a record from a copy, behind which there is
nothing of the table. -/
def Coin.readAddrtx (coin : Coin) (addrind : Nat) (L : Lentry) (addrtxi : Nat) : AddrtxInfo :=
  if L.insideA then
    if L.embeds addrtxi then (coin.addrinfos addrind).slots addrtxi else AddrtxInfo.zero
  else coin.addrtx (L.firstAddrtxi + addrtxi)

def Addrinfo.setSlot (A : Addrinfo) (addrtxi : Nat) (atx : AddrtxInfo) : Addrinfo :=
  { A with slots := Function.update A.slots addrtxi atx }

/-- `coin777_RWaddrtx` with another `writeflag`. -/
def Coin.writeAddrtx (coin : Coin) (addrind : Nat) (atx : AddrtxInfo) (L : Lentry) (addrtxi : Nat) : Coin :=
  if L.insideA then
    if L.embeds addrtxi then
      { coin with addrinfos := Function.update coin.addrinfos addrind ((coin.addrinfos addrind).setSlot addrtxi atx) }
    else coin
  else { coin with addrtx := Function.update coin.addrtx (L.firstAddrtxi + addrtxi) atx }

def Coin.setLedger (coin : Coin) (addrind : Nat) (L : Lentry) : Coin :=
  { coin with ledger := Function.update coin.ledger addrind L }

/-- `coin777_addrtxalloc`, which clears `newmax + 1` entries. -/
def Coin.addrtxalloc (coin : Coin) (L : Lentry) (newmax : Nat) : Coin × Lentry :=
  ({ coin with
      addrtx := fun i => if coin.totaladdrtx ≤ i ∧ i ≤ coin.totaladdrtx + newmax then AddrtxInfo.zero else coin.addrtx i
      totaladdrtx := coin.totaladdrtx + (newmax + 1) },
    { L with firstAddrtxi := coin.totaladdrtx, maxaddrtx := newmax, insideA := false })

def Coin.entries (coin : Coin) (addrind : Nat) (L : Lentry) : List AddrtxInfo :=
  (List.range L.numaddrtx).map (coin.readAddrtx addrind L)

def Coin.unspentSum (coin : Coin) (atxs : List AddrtxInfo) : UInt64 :=
  ((atxs.filter fun atx => atx.spendind = 0).map fun atx => coin.uvalue atx.unspentind).sum

def Coin.compact (coin : Coin) (compactflag : Bool) (addrind : Nat) (L : Lentry) : List AddrtxInfo × UInt64 :=
  let actives := (coin.entries addrind L).filter fun atx => !compactflag || atx.spendind = 0
  (actives, coin.unspentSum actives)

/-- The loop of `coin777_add_addrtx` that copies the entries into their new place. -/
def Coin.copyActives (coin : Coin) (addrind : Nat) (L : Lentry) (actives : List AddrtxInfo) : Coin :=
  (List.range actives.length).foldl
    (fun coin i => coin.writeAddrtx addrind (actives.getD i AddrtxInfo.zero) L i) coin

/-- The part of `coin777_add_addrtx` that moves a full list into a new block. -/
def Coin.growAddrtx (coin : Coin) (addrind : Nat) (oldL : Lentry) (maxunspentind : Nat) : Coin × Lentry :=
  let incr := if 2 * oldL.maxaddrtx > 16 then 2 * oldL.maxaddrtx else 16
  let coin := if oldL.firstAddrtxi ≠ 0 then
      coin.writeAddrtx addrind ⟨coin.totaladdrtx, maxunspentind⟩ oldL oldL.maxaddrtx
    else coin
  let (coin, L) := coin.addrtxalloc oldL incr
  if oldL.numaddrtx > 0 then
    let (actives, balance) := coin.compact false addrind oldL
    let L := { L with numaddrtx := actives.length }
    if balance ≠ L.balance then (coin, { L with balance := balance })
    else (coin.copyActives addrind L actives, L)
  else (coin, { L with numaddrtx := 0 })

def Coin.addAddrtx (coin : Coin) (addrind : Nat) (atx : AddrtxInfo) (L : Lentry) (maxunspentind : Nat) : Coin :=
  let (coin, L) := if L.numaddrtx ≥ L.maxaddrtx then coin.growAddrtx addrind L maxunspentind else (coin, L)
  let coin := coin.writeAddrtx addrind atx L L.numaddrtx
  let value := coin.uvalue atx.unspentind
  let coin := coin.setLedger addrind { L with numaddrtx := L.numaddrtx + 1, balance := L.balance + value }
  (coin.vupdate .ledger (ledgerBytes value addrind maxunspentind)).vupdate .addrtx atx.bytes

/-- The loop of `coin777_bsearch` with `n` probes to go: the entry, or the bounds where it stopped. -/
def bsearchLoop (read : Nat → AddrtxInfo) (uvalue : Nat → UInt64) (unspentind : Nat) (value : UInt64) :
    Nat → Nat → Nat → Option Nat → Nat ⊕ (Nat × Nat)
  | 0, floor, ceiling, _ => .inr (floor, ceiling)
  | n + 1, floor, ceiling, lastprobe =>
    if floor < ceiling then
      let middle := (floor + ceiling) / 2
      let probe := if some middle = lastprobe then middle + 1 else middle
      if unspentind < (read probe).unspentind then
        bsearchLoop read uvalue unspentind value n floor probe (some probe)
      else if unspentind > (read probe).unspentind then
        bsearchLoop read uvalue unspentind value n probe ceiling (some probe)
      else if uvalue (read probe).unspentind = value then .inl probe
      else .inr (floor, ceiling)
    else .inr (floor, ceiling)

def linearSearch (read : Nat → AddrtxInfo) (uvalue : Nat → UInt64) (unspentind : Nat) (value : UInt64) :
    Nat → Nat → Option Nat
  | 0, _ => none
  | n + 1, start =>
    if unspentind = (read start).unspentind then
      if uvalue (read start).unspentind ≠ value then none else some start
    else linearSearch read uvalue unspentind value n (start + 1)

/-- `coin777_bsearch`: the number of the entry. -/
def Coin.bsearch (coin : Coin) (addrind : Nat) (L : Lentry) (unspentind : Nat) (value : UInt64) : Option Nat :=
  if L.numaddrtx = 0 then none
  else match bsearchLoop (coin.readAddrtx addrind L) coin.uvalue unspentind value 30 0 (L.numaddrtx - 1) none with
    | .inl i => some i
    | .inr (floor, ceiling) =>
      (linearSearch (coin.readAddrtx addrind L) coin.uvalue unspentind value (ceiling + 1 - floor) floor).or
        (linearSearch (coin.readAddrtx addrind L) coin.uvalue unspentind value L.numaddrtx 0)

/-- The loop of `coin777_recalc_addrinfo`, which stops at an output from `maxunspentind` on. -/
def recalcLoop (uvalue : Nat → UInt64) (maxunspentind maxspendind : Nat) : List AddrtxInfo → UInt64 → UInt64
  | [], balance => balance
  | atx :: rest, balance =>
    if atx.unspentind < maxunspentind then
      recalcLoop uvalue maxunspentind maxspendind rest
        (if atx.unspentind ≠ 0 ∧ (atx.spendind = 0 ∨ atx.spendind ≥ maxspendind) then balance + uvalue atx.unspentind
          else balance)
    else balance

def Coin.recalcAddrinfo (coin : Coin) (addrind maxunspentind maxspendind : Nat) : UInt64 :=
  recalcLoop coin.uvalue maxunspentind maxspendind (coin.entries addrind (coin.ledger addrind)) 0

/-- `coin777_update_addrinfo`; `none` is `debugstop`, or a store behind the copy of a record: of an entry, or of the link
that a full list gets. -/
def Coin.updateAddrinfo (coin : Coin) (addrind unspentind : Nat) (value : UInt64) (spendind maxunspentind : Nat) :
    Option Coin :=
  let L := coin.ledger addrind
  if value = 0 then some coin
  else if spendind ≠ 0 then match coin.bsearch addrind L unspentind value with
    | some i =>
      let atx := { coin.readAddrtx addrind L i with spendind := spendind }
      if L.holds i then some ((coin.writeAddrtx addrind atx L i).setLedger addrind { L with balance := L.balance - value })
      else none
    | none => none
  else if L.holds (min L.numaddrtx L.maxaddrtx) then some (coin.addAddrtx addrind ⟨unspentind, 0⟩ L maxunspentind)
  else none

end SuperNet.Coins.Coin777
