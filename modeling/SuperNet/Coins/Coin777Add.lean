import SuperNet.Coins.Coin777

/-! The functions of coins777.c that parse_block calls for a transaction: coin777_addvout, coin777_addvin and
coin777_addtx. -/
namespace SuperNet.Coins.Coin777
open Lib.Words Lib.Bytes Utils.Hex

def scriptFits (coinaddr : List Char) (script : List UInt8) : Bool :=
  script.length + (coinaddr.length + 1) + addrtxSize * 3 ≤ coinaddrSize

/-- The embedded entries of an address whose string and script take `len` bytes: where they start, and the
room for them in the 31 bits of `maxaddrtx`. -/
def embeddedRoom (len : Nat) : Nat × Nat :=
  let offset := coinaddrOffset + len
  if offset % 4 ≠ 0 then (offset + (4 - offset % 4), (2^64 + coinaddrSize - (len + 4)) % 2^64 / addrtxSize % 2^31)
  else (offset, (2^64 + coinaddrSize - len) % 2^64 / addrtxSize % 2^31)

def Coin.addAddrinfo (coin : Coin) (addrind : Nat) (coinaddr : List Char) (script : List UInt8) (blocknum : Nat) :
    Coin × Bool :=
  let coin := coin.vupdate .addrinfos (leBytes 4 blocknum ++ stringBytes coinaddr ++ script)
  let kept := if scriptFits coinaddr script then script else []
  let (offset, max) := embeddedRoom (coinaddr.length + 1 + kept.length)
  let L : Lentry := ⟨0, offset, 0, max, true⟩
  let (coin, L, root) := if max > 0 then (coin, L, 0)
    else
      let (moved, L) := coin.addrtxalloc L 16
      (moved, L, coin.totaladdrtx)
  ({ coin.setLedger addrind L with
      addrinfos := Function.update coin.addrinfos addrind
        ⟨root, blocknum, coinaddr, kept, fun _ => AddrtxInfo.zero⟩ }, kept ≠ [])

def Coin.addscript (coin : Coin) (script : List UInt8) : Coin × Nat :=
  let scriptDB := Function.update coin.scriptDB script (some (leBytes 4 coin.scriptind))
  ({ coin with
      scriptDB := Function.update scriptDB (leBytes 4 coin.scriptind) (some script)
      scriptind := coin.scriptind + 1 }, coin.scriptind)

def Coin.newAddr (coin : Coin) (coinaddr : List Char) : Coin :=
  { coin.vupdate .addrs (stringBytes coinaddr) with
    addrDB := Function.update coin.addrDB coinaddr (some coin.addrind)
    addrind := coin.addrind + 1 }

/-- The index of the address in `coin777_addvout` and whether it is new; `none` is `debugstop`. -/
def Coin.addAddr (coin : Coin) (coinaddr : List Char) : Option (Coin × Nat × Bool) :=
  let addrind := (coin.addrDB coinaddr).getD 0
  if addrind = 0 then some (coin.newAddr coinaddr, coin.addrind, true)
  else if addrind = coin.addrind then
    some ({ coin.vupdate .addrs (stringBytes coinaddr) with addrind := coin.addrind + 1 }, addrind, true)
  else if addrind > coin.addrind then none
  else some (coin, addrind, false)

/-- The record that `coin777_addvout` makes for a new address, and `script0flag`. -/
def Coin.addRecord (coin : Coin) (addrind : Nat) (newflag : Bool) (coinaddr : List Char) (script : List UInt8)
    (blocknum : Nat) : Coin × Bool :=
  if newflag then
    let (coin, script0flag) := coin.addAddrinfo addrind coinaddr script blocknum
    if script0flag then (coin, true) else ((coin.addscript script).1, false)
  else (coin, false)

/-- The index of a script that is not in the record of its address; `none` is `debugstop`, or a value with more than the
four bytes of an index, all of which `coin777_getDB` copies: a script that is stored under an index. -/
def Coin.indexScript (coin : Coin) (script : List UInt8) : Option (Coin × Nat) :=
  let scriptind := coin.scriptDBind script
  if (coin.scriptDB script).any fun value => 4 < value.length then none
  else if scriptind = 0 then some (coin.addscript script)
  else if scriptind = coin.scriptind then some ({ coin with scriptind := coin.scriptind + 1 }, scriptind)
  else if scriptind > coin.scriptind then none
  else some (coin, scriptind)

def unspentRecord (value : UInt64) (addrind : Nat) (script0flag : Bool) (scriptind blocknum : Nat) : UnspentInfo :=
  if script0flag then ⟨value, addrind, scriptind, false⟩ else ⟨value, addrind, blocknum % 2^31, true⟩

def Coin.setUnspent (coin : Coin) (unspentind : Nat) (U : UnspentInfo) : Coin :=
  { coin.vupdate .unspents U.bytes with unspents := Function.update coin.unspents unspentind U }

/-- The credits and the hash of the script string at the start of `coin777_addvout`. -/
def Coin.credit (coin : Coin) (scriptstr : List Char) (value : UInt64) : Coin :=
  { coin.vupdate .scripts (charBytes (scriptstr.take (2 * (decodeScript scriptstr).length))) with
    credits := coin.credits + value }

/-- The first part of `coin777_addvout`: the credits, the address, and the record of a new one. -/
def Coin.voutAddr (coin : Coin) (blocknum : Nat) (coinaddr scriptstr : List Char) (value : UInt64) :
    Option (Coin × Nat × Bool) := do
  let (coin, addrind, newflag) ← (coin.credit scriptstr value).addAddr coinaddr
  let (coin, script0flag) := coin.addRecord addrind newflag coinaddr (decodeScript scriptstr) blocknum
  some (coin, addrind, script0flag)

def Coin.voutScript (coin : Coin) (blocknum addrind : Nat) (script0flag : Bool) (script : List UInt8)
    (value : UInt64) : Option Coin := do
  let script0flag := script0flag || coin.script0 addrind script
  let (coin, scriptind) ← if script0flag then some (coin, 0) else coin.indexScript script
  some (coin.setUnspent coin.unspentind (unspentRecord value addrind script0flag scriptind blocknum))

/-- `coin777_addvout`; `none` is `debugstop` or a store out of bounds. -/
def Coin.addvout (coin : Coin) (blocknum : Nat) (coinaddr scriptstr : List Char) (value : UInt64) : Option Coin := do
  let (coin, addrind, script0flag) ← coin.voutAddr blocknum coinaddr scriptstr value
  let coin ← coin.voutScript blocknum addrind script0flag (decodeScript scriptstr) value
  coin.updateAddrinfo addrind coin.unspentind value 0 blocknum

def Coin.setSpend (coin : Coin) (spendind : Nat) (S : SpendInfo) : Coin :=
  { coin.vupdate .spends S.bytes with spends := Function.update coin.spends spendind S }

/-- The unspent that `coin777_value` reads. Its `vout` is a signed 16-bit number. -/
def Coin.spentInd (coin : Coin) (txidind vout : Nat) : Nat :=
  unsigned 32 ((coin.txoffsets txidind).1 + signed 16 vout)

/-- `coin777_addvin`; `none` is `debugstop` or a store out of bounds. -/
def Coin.addvin (coin : Coin) (blocknum : Nat) (spentTxidstr : List Char) (spentVout : Nat) : Option Coin :=
  let spentTxidind := (coin.txidDB (decodeTxid spentTxidstr)).getD 0
  if spentTxidind = 0 then none
  else if spentTxidind > coin.txidind then none
  else
    let unspentind := coin.spentInd spentTxidind spentVout
    let U := coin.unspents unspentind
    if U.value = 0 then some coin
    else
      let vin := (coin.numspends - coin.firstvin) % 2^16
      let coin := { coin.setSpend coin.numspends ⟨unspentind, U.addrind, coin.txidind, vin⟩ with
        debits := coin.debits + U.value }
      coin.updateAddrinfo U.addrind unspentind U.value coin.numspends blocknum

def Coin.addtx (coin : Coin) (txidstr : List Char) (numvouts numvins : Nat) : Coin :=
  let txid := decodeTxid txidstr
  let fed := ((coin.vupdate .txidbits txid).vupdate .txids (charBytes (txidstr.take 64))).vupdate .txoffsets
    (leBytes 4 coin.firstvout ++ leBytes 4 coin.firstvin)
  { fed with
    txidbits := Function.update coin.txidbits coin.txidind txid
    txidDB := Function.update coin.txidDB txid (some coin.txidind)
    txoffsets := Function.update (Function.update coin.txoffsets coin.txidind (coin.firstvout, coin.firstvin))
      (coin.txidind + 1) (coin.firstvout + numvouts, coin.firstvin + numvins) }

/-- A call that `parse_block` makes for a transaction. Its outputs come first, then its inputs, and a coinbase
has none. -/
inductive Call
  | vout (coinaddr scriptstr : List Char) (value : UInt64)
  | vin (txidstr : List Char) (vout : Nat)
  | tx (txidstr : List Char)
  deriving DecidableEq, Repr

/-- A call, with the counting of `parse_voutsobj`, `parse_vinsobj` and `parse_block` behind it. -/
def Coin.call (blocknum : Nat) (coin : Coin) : Call → Option Coin
  | .vout coinaddr scriptstr value => do
    let coin ← coin.addvout blocknum coinaddr scriptstr value
    some { coin with unspentind := coin.unspentind + 1 }
  | .vin txidstr vout => do
    let coin ← coin.addvin blocknum txidstr vout
    some { coin with numspends := coin.numspends + 1 }
  | .tx txidstr =>
    let coin := coin.addtx txidstr ((coin.unspentind - coin.firstvout) % 2^16) ((coin.numspends - coin.firstvin) % 2^16)
    some { coin with txidind := coin.txidind + 1, firstvout := coin.unspentind, firstvin := coin.numspends }

/-- A run of calls, each with the number of its block. -/
def Coin.calls (coin : Coin) (calls : List (Nat × Call)) : Option Coin :=
  calls.foldlM (fun coin c => coin.call c.1 c.2) coin

end SuperNet.Coins.Coin777
