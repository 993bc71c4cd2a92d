import SuperNet.Coins.Cointx

/-! The scripts, the signer and the funding transaction of subatomic.h. The outer `none` of a result stands for
undefined behaviour (a write past an array, a read of memory that was never written), an inner one for a null pointer. -/
namespace SuperNet.InstantDEX.Subatomic
open Lib.AccessLog Lib.Bytes Utils.Hex Coins.Cointx

abbrev Text := List Char

def SIGHASH_ALL : UInt8 := 1

/-- `struct subatomic_unspent_tx`, as far as `gather_unspents` fills it. -/
structure Unspent where
  amount : UInt64
  vout : UInt32
  confirmations : UInt32
  txid : Text
  address : Text
  scriptPubKey : Text

/-- `struct subatomic_rawtransaction`; the destinations carry their amounts and their number is `numoutputs`. -/
structure Rawtransaction where
  dests : List (Text × UInt64)
  amount : UInt64
  change : UInt64
  inputsum : UInt64
  rawtransaction : Text
  signedtransaction : Text
  txid : Text
  inputs : List Unspent

/-- The structure after `memset`. -/
def Rawtransaction.clear : Rawtransaction := ⟨[], 0, 0, 0, [], [], [], []⟩

structure CoinConf where
  addrtype : UInt8
  p2shtype : UInt8
  usep2sh : Bool
  oldtxFormat : Int
  txfee : UInt64
  donationaddress : Text
  changeaddr : Text

structure Coin777 extends CoinConf where
  funding : Rawtransaction
  refundtx : Option Text
  signedrefund : Option Text

/-- The functions of the libraries below: hashes, `bp_key`, and the txid a node reads from a transaction. -/
structure Library (η κ ρ : Type) where
  calcOpHash160 : Text → List UInt8
  calcSha256Twice : List UInt8 → η
  btcSetprivkey : Text → κ
  btcGetpubkey : κ → Option Text
  bpPubkeySet : List UInt8 → Option ρ
  bpSign : κ → η → Option (List UInt8)
  bpVerify : ρ → η → List UInt8 → Bool
  decodetxid : Text → Option Text

/-- The answers of a coin's node, of base58 and of the clock during one call, and the memory under and around the
buffers of that call: `mycoinaddr` is what lies in the array of that name before anything was written to it. -/
structure Node where
  time : UInt32
  RTblocknum : UInt32
  unspents : List Unspent
  createrawtransaction : List Unspent → List (Text × UInt64) → Option Text
  signrawtransaction : List Unspent → Text → Option Text
  dumpprivkey : Text → Option Text
  base58EncodeCheck : UInt8 → List UInt8 → Option Text
  mycoinaddr : Text
  memory : Memory
  stray : UInt8

variable {η κ ρ : Type} (L : Library η κ ρ)

def decodeInto (room n : Nat) (hex : Text) : Option (List UInt8) :=
  if (decodeHex n hex).length > room then none else some ((decodeHex n hex).take n)

/-- The script with the keys of a refund and the hash of a spend. -/
def atomicScript (pubkeyA pubkeyB hash160 : List UInt8) : List UInt8 :=
  [0x63, 0x52, 33] ++ pubkeyA ++ [33] ++ pubkeyB ++ [0x52, 0xae, 0x67, 0x76, 0xa9, 20] ++ hash160 ++ [0x88, 0xac, 0x68]

def createAtomictxScripts (pubkeyA pubkeyB hash160str : Text) : Option Text := do
  let pubkeyA ← decodeInto 33 33 pubkeyA
  let pubkeyB ← decodeInto 33 33 pubkeyB
  let hash160 ← decodeInto 20 20 hash160str
  some (initHexbytesNoT (atomicScript pubkeyA pubkeyB hash160))

def p2shaddr (node : Node) (addrtype : UInt8) (redeemscript : Text) : Text :=
  match node.base58EncodeCheck addrtype (L.calcOpHash160 redeemscript) with
  | some addr => if addr.length < 36 then addr else []
  | none => []

/-- `btc_convrmd160`: the value returned and what is in `coinaddr` then. -/
def btcConvrmd160 (node : Node) (coinaddr : Text) (addrtype : UInt8) (rmd160 : List UInt8) : Int × Text :=
  match node.base58EncodeCheck addrtype rmd160 with
  | some addr => (0, addr)
  | none => (-1, coinaddr)

def btcCoinaddr (node : Node) (coinaddr : Text) (addrtype : UInt8) (pubkeystr : Text) : Int × Text :=
  btcConvrmd160 node coinaddr addrtype (L.calcOpHash160 pubkeystr)

/-- `subatomic_signp2sh` up to `emit_cointx`; `none` when the block height is not known. -/
def toSign (node : Node) (refT : CointxInfo) (msigflag : Bool) (lockblocks : UInt32) (redeemi : Nat)
    (redeemscript : Text) : Option CointxInfo :=
  let vin := refT.inputs.getD redeemi ⟨[], 0, [], 0⟩
  let inputs := fun (sequence : UInt32) => (refT.inputs.map fun vin => { vin with sigs := ['0', '0'] }).set redeemi
    { vin with sigs := redeemscript, sequence := sequence }
  if !msigflag then some { refT with inputs := inputs 0xffffffff, nlocktime := 0 }
  else
    let sequence := if vin.sequence = 0 then node.time else vin.sequence
    if refT.nlocktime = 0 ∧ lockblocks ≠ 0 then
      if node.RTblocknum = 0 then none
      else some { refT with inputs := inputs sequence, nlocktime := lockblocks + node.RTblocknum }
    else some { refT with inputs := inputs sequence }

def sighash (T : CointxInfo) (oldtx : Int) : Option η :=
  match emitCointxdata 4096 T oldtx with
  | some data =>
    if data.length + 4 ≤ 4096 then some (L.calcSha256Twice (data ++ emitUint32 SIGHASH_ALL.toUInt32)) else none
  | none => none

/-- The tests of `subatomic_signp2sh` on the signature of the other side: refused, or whether it verifies. -/
def checkOthersig (hash2 : η) (stray : UInt8) (othersig otherpubkey : Text) : Option (Option Bool) := do
  let key ← decodeInto 4096 (otherpubkey.length >>> 1) otherpubkey
  match L.bpPubkeySet key with
  | none => some none
  | some keyV =>
    let n := othersig.length >>> 1
    let data ← decodeInto 4096 n othersig
    -- with no byte at all `data[n-1]` is the byte before the array
    if (stray :: data).getD n 0 ≠ SIGHASH_ALL then some none
    else some (some (n ≠ 0 && L.bpVerify keyV hash2 (data.take (n - 1))))

/-- The signatures of `subatomic_signp2sh` for the refund. -/
def refundSigs (hash2 : η) (stray : UInt8) (privkeystr : Option Text) (privkeyind : Nat) (other : Option (Text × Text)) :
    Option (Option Text) := do
  let checked ← match other with
    | none => some (some true)
    | some (othersig, otherpubkey) => checkOthersig L hash2 stray othersig otherpubkey
  match checked, privkeystr with
  | none, _ => some none
  -- a signature that does not verify is reported in the log only: the `return(0)` is commented out
  | some _verified, none => some (some [])
  | some _verified, some privkeystr =>
    match L.bpSign (L.btcSetprivkey privkeystr) hash2 with
    | none => some none
    | some sig =>
      let hexstr := initHexbytesNoT (sig ++ [SIGHASH_ALL])
      let othersig := (other.map Prod.fst).getD []
      let (sig0, sig1) := if privkeyind = 0 then (hexstr, othersig) else (othersig, hexstr)
      some (some (['0', '0'] ++ hex02 (sig0.length >>> 1) ++ sig0 ++ hex02 (sig1.length >>> 1) ++ sig1 ++ ['5', '1']))

/-- The signatures of `subatomic_signp2sh` for the spend; the script stays when there is none. -/
def spendSigs (hash2 : η) (privkeystr : Option Text) (redeemscript : Text) : Option Text := do
  let key := L.btcSetprivkey (← privkeystr)
  match L.bpSign key hash2, L.btcGetpubkey key with
  | some sig, some pubP =>
    let sig := sig ++ [SIGHASH_ALL]
    some (hex02 sig.length ++ initHexbytesNoT sig ++ hex02 (pubP.length / 2) ++ pubP ++ ['0', '0'])
  | _, _ => some redeemscript

/-- `subatomic_signp2sh`; `checkprivkey` only changes what is printed. -/
def subatomicSignp2sh (node : Node) (oldtx : Int) (refT : CointxInfo) (msigflag : Bool) (lockblocks : UInt32)
    (redeemi : Nat) (redeemscript : Text) (p2shflag : Bool) (privkeystr : Option Text) (privkeyind : Nat)
    (other : Option (Text × Text)) : Option (Option Text) :=
  match toSign node refT msigflag lockblocks redeemi redeemscript with
  | none => some none
  | some T => do
    let hash2 ← sighash L T oldtx
    let sigs ← if msigflag then refundSigs L hash2 node.stray privkeystr privkeyind other
      else (spendSigs L hash2 privkeystr redeemscript).map some
    match sigs with
    | none => some none
    | some sigs =>
      let sigs := if sigs = [] then [] else
        sigs ++ (if p2shflag then ['4', 'c'] ++ hex02 (redeemscript.length / 2) else []) ++ redeemscript
      if sigs.length ≥ sizeofSigs then none
      else
        let hexstr ← emitCointx 1024 { T with inputs := T.inputs.modify redeemi fun vin => { vin with sigs } } oldtx
        some (some hexstr)

/-- `subatomic_bestfit` with mode 0, from the entries it has kept so far. -/
def bestfitLoop (value : UInt64) : Option Unspent → Option Unspent → List Unspent → Option Unspent
  | abovevin, belowvin, [] => abovevin.or belowvin
  | abovevin, belowvin, vin :: unspents =>
    if vin.amount = value then some vin
    else if vin.amount > value then
      bestfitLoop value (if abovevin.all fun a => vin.amount - value < a.amount - value then some vin else abovevin)
        belowvin unspents
    else
      bestfitLoop value abovevin
        (if belowvin.all fun b => value - vin.amount < value - b.amount then some vin else belowvin) unspents

/-- `subatomic_calc_rawinputs`; its loop ends after the first entry. -/
def subatomicCalcRawinputs (coin : Coin777) (rp : Rawtransaction) (amount : UInt64) (ups : List Unspent)
    (donation : UInt64) : UInt64 × Rawtransaction :=
  let rp := { rp with inputsum := 0, inputs := [] }
  let total := amount + (coin.txfee + donation)
  match bestfitLoop total none none ups with
  | none => (0, rp)
  | some up =>
    let rp := { rp with inputs := [up] }
    if up.amount ≥ total then
      (up.amount, { rp with amount := total - coin.txfee - donation, change := up.amount - total, inputsum := up.amount })
    else (0, rp)

def subatomicDonation (coin : Coin777) (amount : UInt64) : UInt64 :=
  if coin.donationaddress ≠ [] then
    if amount >>> 11 < coin.txfee then coin.txfee else amount >>> 11
  else 0

/-- The destinations that `subatomic_fundingtx` writes; `false` when there is no address for the change. -/
def fundingDests (coin : Coin777) (funding : Rawtransaction) (amount donation : UInt64) (p2shaddr : Text) :
    Rawtransaction × Bool :=
  let funding := if funding.amount = amount ∧ funding.change = funding.inputsum - amount - coin.txfee - donation then
      { funding with dests := [(p2shaddr.take 63, amount)] } else funding
  let funding := if donation ≠ 0 then
      if coin.donationaddress ≠ [] then
        { funding with dests := funding.dests ++ [(coin.donationaddress.take 63, donation)] }
      else { funding with change := funding.change + donation }
    else funding
  if funding.change ≠ 0 then
    if coin.changeaddr = [] then (funding, false)
    else ({ funding with dests := funding.dests ++ [(coin.changeaddr.take 63, funding.change)] }, true)
  else (funding, true)

/-- `subatomic_signtx`. Of a transaction that fills its field the end mark falls on the txid, which is then written. -/
def subatomicSigntx (node : Node) (rp : Rawtransaction) (rawbytes : Text) : Rawtransaction × Option Text :=
  let rp := { rp with txid := [], signedtransaction := [] }
  match node.signrawtransaction rp.inputs rawbytes with
  | none => (rp, none)
  | some deststr =>
    if deststr.length > 1024 then (rp, none)
    else
      match L.decodetxid deststr with
      | none => ({ rp with signedtransaction := deststr }, none)
      | some txid =>
        let txid := txid.take 127
        let signedtransaction := if deststr.length = 1024 then deststr ++ txid else deststr
        ({ rp with txid := txid, signedtransaction := signedtransaction }, some txid)

/-- The part of `subatomic_gen_rawtransaction` that puts its own values into the node's transaction. -/
def spliceRawtransaction (node : Node) (oldtx : Int) (raw : Text) (locktime vin0sequenceid : UInt32)
    (redeem0script : Option Text) : Text :=
  match (decodeRawtransaction node.memory raw oldtx).value with
  | none => raw
  | some decoded =>
    let cointx : CointxInfo := { decoded.cointx with
      nlocktime := locktime
      inputs := decoded.cointx.inputs.modify 0 fun vin => { vin with sequence := vin0sequenceid }
      outputs := decoded.cointx.outputs.modify 0 fun vout => { vout with script := redeem0script.getD vout.script } }
    validateDecoderawtransaction ((emitCointx 1024 cointx oldtx).getD decoded.hexstr) cointx oldtx

def subatomicGenRawtransaction (node : Node) (coin : Coin777) (rp : Rawtransaction) (locktime vin0sequenceid : UInt32)
    (redeem0script : Option Text) : Rawtransaction × Option Text :=
  match node.createrawtransaction rp.inputs rp.dests with
  | none | some [] => (rp, none)
  | some retstr =>
    let raw := retstr.take 1023
    if raw.length < 8 then ({ rp with rawtransaction := raw }, none)
    else
      let raw := if locktime ≠ 0 ∨ redeem0script.isSome then
          spliceRawtransaction node coin.oldtxFormat raw locktime vin0sequenceid redeem0script else raw
      subatomicSigntx L node { rp with rawtransaction := raw } raw

def gatherUnspents (node : Node) (coin : Coin777) : Coin777 :=
  match node.unspents with
  | up :: _ => if coin.changeaddr = [] then { coin with changeaddr := up.address } else coin
  | [] => coin

def refundTemplate (node : Node) (coin : Coin777) (funding : Rawtransaction) (txid mypubkey : Text) : CointxInfo where
  version := 1
  timestamp := node.time
  inputs := [⟨txid, 0, [], 0⟩]
  outputs := [⟨(funding.dests.headD ([], 0)).2 - coin.txfee,
    ['7', '6', 'a', '9', '1', '4'] ++ initHexbytesNoT (L.calcOpHash160 mypubkey) ++ ['8', '8', 'a', 'c']⟩]
  nlocktime := 0

/-- `subatomic_fundingtx`: the coin, its redeem script and the refund that is returned. -/
def subatomicFundingtx (node : Node) (coin : Coin777) (mypubkey otherpubkey pkhash : Text) (amount : UInt64)
    (lockblocks : UInt32) : Option (Coin777 × Text × Option Text) := do
  let coin := { coin with funding := .clear }
  let redeemscript ← createAtomictxScripts mypubkey otherpubkey pkhash
  let (ret, mycoinaddr) := btcCoinaddr L node node.mycoinaddr coin.addrtype mypubkey
  if ret = 0 then some (coin, redeemscript, none)
  else
    let coin := gatherUnspents node coin
    if node.unspents.isEmpty then some (coin, redeemscript, none)
    else
      let donation := subatomicDonation coin amount
      let (inputsum, funding) := subatomicCalcRawinputs coin coin.funding amount node.unspents donation
      if inputsum < amount then some ({ coin with funding }, redeemscript, none)
      else
        let (funding, complete) := fundingDests coin funding amount donation (p2shaddr L node coin.p2shtype redeemscript)
        if !complete then some ({ coin with funding }, redeemscript, none)
        else
          let (funding, txid) := subatomicGenRawtransaction L node coin funding 0 0xffffffff
            (if coin.usep2sh then none else some redeemscript)
          match txid with
          | none => some ({ coin with funding }, redeemscript, none)
          | some txid =>
            if mycoinaddr = [] then some ({ coin with funding }, redeemscript, none)
            else if mycoinaddr.length ≥ 64 then none
            else
              let refundtx ← subatomicSignp2sh L node coin.oldtxFormat (refundTemplate L node coin funding txid mypubkey)
                true (if lockblocks = 0 then 10 else lockblocks) 0 redeemscript coin.usep2sh none 0 none
              some ({ coin with funding }, redeemscript, refundtx)

def subatomicValidate (node : Node) (coin : Coin777) (pubA pubB pkhash refundtx refundsig : Text) :
    Option (Option Text) :=
  match (decodeRawtransaction node.memory refundtx coin.oldtxFormat).value with
  | none => some none
  | some refundT =>
    let (ret, mycoinaddr) := btcCoinaddr L node node.mycoinaddr coin.addrtype pubA
    if ret = 0 then some none
    else if mycoinaddr.length ≥ 64 then none
    else
      match node.dumpprivkey mycoinaddr with
      | none => some none
      | some privkeystr => do
        let redeemscript ← createAtomictxScripts pubA pubB pkhash
        subatomicSignp2sh L node coin.oldtxFormat refundT.cointx true 0 0 redeemscript true (some privkeystr) 0
          (some (refundsig, pubB))

end SuperNet.InstantDEX.Subatomic
