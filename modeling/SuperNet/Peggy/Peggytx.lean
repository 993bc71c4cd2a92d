import SuperNet.Peggy.PeggyBank
import SuperNet.Peggy.Serdes777Records

/-! The transactions of peggytx.c. A function that the source lets change the bank and return an
`int64_t` gives both here. It gives `none` where the source follows a null pointer to a table, and where
a balance overflows. Writes to the log file succeed, and the conversion of a coin address does too. -/
namespace SuperNet.Peggy.Peggy777
open Lib.Words Lib.Bytes Serdes777 Accts777

/-- The block a transaction is processed in. -/
structure Block where
  blocknum : Nat
  now : Nat

/-- `txind777_create`: nothing is logged for a length of zero. -/
def txind777Create (s : PeggyInfo) (len : Nat) : PeggyInfo × Int :=
  if u16 len = 0 then (s, -1)
  else
    ({ s with accts := { s.accts with nextpos := s.accts.nextpos + (u16 len + 12) } },
      ((s.accts.nextpos <<< 16) ||| (u16 len + 12) : Nat))

/-- `numtx * sizeof(*txinds)`, with the 792 bytes of a `struct txinds777_info`. -/
def txind777Bundle (s : PeggyInfo) (numtx : Nat) : PeggyInfo × Int := txind777Create s (numtx * 792)

def accts777Create (accts : AcctsInfo) (table : Table) (key : Nat) (b : Block) : AcctsInfo :=
  match accts.addrkvs table key with
  | none => ramkv777Write accts table key ⟨b.blocknum, b.now, 0⟩
  | some _ => accts

/-- The tables of types 7 and more are null pointers or lie behind the array, and those of created units,
units and public keys are the pointer `hashaddrs`. -/
def nullTable (accts : AcctsInfo) (type : BitVec 8) : Bool :=
  7 ≤ type.toNat ∨ accts.indexed = false ∧ (type = 1 ∨ type = 3 ∨ type = 4)

/-- `acct777_pay` without a source account, as `peggy_txind_send` calls it. -/
def acct777Pay (accts : AcctsInfo) (table : Table) (key : Nat) (value : Int) : Option AcctsInfo :=
  match accts.addrkvs table key with
  | none => none
  | some acct =>
    if -2^63 ≤ acct.balance + value ∧ acct.balance + value < 2^63 then
      some (ramkv777Write accts table key { acct with balance := acct.balance + value })
    else none

/-- A negative payment takes one off the queue, and the first there is: `queue_delete` compares each item
with itself. -/
def opreturnsQueuePayment (accts : AcctsInfo) (coinaddr : PeggyAddr) (value : Int) : Option AcctsInfo :=
  if value < 0 then
    match accts.paymentsQ with
    | [] => none
    | _ :: paymentsQ => some { accts with paymentsQ }
  else some { accts with paymentsQ := accts.paymentsQ ++ [⟨coinaddr, value⟩] }

def peggyOnesigner (tx : PeggyTx) : BitVec 64 :=
  if (tx.sigs.getD 0 default).signer64bits ≠ 0 ∧ (tx.sigs.getD 1 default).signer64bits = 0 then
    (tx.sigs.getD 0 default).signer64bits
  else 0

def peggyTwosigners (tx : PeggyTx) : Bool :=
  (tx.sigs.getD 0 default).signer64bits ≠ 0 ∧ (tx.sigs.getD 1 default).signer64bits ≠ 0 ∧
    (tx.sigs.getD 2 default).signer64bits = 0

def txIns (tx : PeggyTx) : List PeggyInput := used tx.numinputs.toNat tx.inputs

def txOuts (tx : PeggyTx) : List PeggyOutput := used tx.numoutputs.toNat tx.outputs

section
variable (acct777Lockhash : BitVec 256 → BitVec 16 → BitVec 8 → BitVec 256)

/-- The redemption behind a public key input with lock days. It is read only, since `amount` is still 0. -/
def lockedInput (s : PeggyInfo) (b : Block) (inp : PeggyInput) : Redemption where
  now := b.now
  readonly := true
  assetbits := (s.contracts inp.src.newlock.peg.toInt.natAbs).assetbits
  polarity := if inp.src.newlock.peg.toInt < 0 then -1 else 1
  pubkey := inp.src.sha256
  lockdays := inp.src.newlock.minlockdays
  chainlen := 1

/-- The comparison is unsigned. -/
def Covers (s : PeggyInfo) (inp : PeggyInput) : Prop := inp.amount.toNat ≤ u64 (acct777Balance s.accts inp.src inp.type)

instance (s : PeggyInfo) (inp : PeggyInput) : Decidable (Covers s inp) := inferInstanceAs (Decidable (_ ≤ _))

/-- The value that an input gives one output, `none` when the output is refused. -/
def inputValue (s : PeggyInfo) (b : Block) (inp : PeggyInput) (ratio : Nat) (outtype : BitVec 8) : Option Int :=
  match inp.type.toNat with
  | 2 => if Covers s inp then some (i64 inp.amount.toNat) else none
  | 5 => if Covers s inp then some (i64 inp.amount.toNat) else none
  | 4 =>
    if inp.src.newlock.minlockdays ≠ 0 then
      if ratio ≠ priceResolution then none
      else some (peggyRedeem acct777Lockhash s (lockedInput s b inp)).2
    else if Covers s inp then some (i64 inp.amount.toNat)
    else some 0
  | 3 => if ratio ≠ priceResolution ∨ outtype ≠ 1 ∧ outtype ≠ 3 then none else some 0
  | _ => none

/-- A unit to be created pays its deposit, or its margin. -/
def sendCreate (s : PeggyInfo) (b : Block) (value : Int) (len : Nat) (addr : PeggyAddr) : PeggyInfo × Int :=
  let lock := addr.newlock
  if 0 < value then
    let amount := if lock.margin = 0 then value.toNat else 0
    let marginamount := if lock.margin = 0 then 0 else value.toNat
    let s := (peggyCreateunit s b.now false s.accts.peggyhash none addr.sha256 lock amount marginamount).1
    txind777Create s (len + 14)
  else (s, signed 32 (peggyCreateunit s b.now true s.accts.peggyhash none addr.sha256 lock 0 0).2)

/-- `peggy_swap` finds no units in `hashaddrs`, for the reason `peggyMatch` gives. -/
def peggySwap : Int := -1

/-- The output once its value is known. -/
def sendValue (s : PeggyInfo) (b : Block) (isUnit : Bool) (value : Int) (len : Nat) (table : Table) (key : Nat)
    (out : PeggyOutput) : Option (PeggyInfo × Int) :=
  if out.type = 0 then
    match opreturnsQueuePayment s.accts out.dest value with
    | none => some (s, -1)
    | some accts => some (txind777Create { s with accts } len)
  else if out.type = 1 then some (sendCreate s b value len out.dest)
  else if isUnit then some (s, peggySwap)
  else (acct777Pay s.accts table key value).map fun accts => txind777Create { s with accts } len

/-- The input is a public key whose account is looked up in a table that is not there. -/
def readsNull (accts : AcctsInfo) (inp : PeggyInput) : Bool :=
  inp.type = 4 ∧ inp.src.newlock.minlockdays = 0 ∧ nullTable accts inp.type

/-- The output's account is opened before its input is looked at. -/
def peggyTxindSend (s : PeggyInfo) (b : Block) (fundedvalue : Int) (inp : Option PeggyInput) (ratio len : Nat)
    (out : PeggyOutput) : Option (PeggyInfo × Int) := do
  if nullTable s.accts out.type then none
  let (table, key) ← accts777Key out.dest out.type
  let s := { s with accts := accts777Create s.accts table key b }
  match inp with
  | none => sendValue s b false fundedvalue (len + 4) table key out
  | some inp =>
    if readsNull s.accts inp then none
    match inputValue acct777Lockhash s b inp ratio out.type with
    | none => some (s, -1)
    | some value => sendValue s b (inp.type = 3) value (len + 4) table key out

/-- What the outputs draw of input `vin`. -/
def vinsum (tx : PeggyTx) (vin : Nat) : Nat :=
  (((txOuts tx).filter fun out => out.vin.toNat = vin).map fun out => out.ratio.toNat).sum

/-- The balances of the inputs in order, up to the first that is negative. -/
def checkBalances (accts : AcctsInfo) : List PeggyInput → Option Bool
  | [] => some true
  | inp :: inps =>
    if inp.type.toNat < 7 ∧ nullTable accts inp.type then none
    else if acct777Balance accts inp.src inp.type < 0 then some false
    else checkBalances accts inps

def peggyChecktx (s : PeggyInfo) (tx : PeggyTx) : Option Bool :=
  if tx.numoutputs = 0 ∧ tx.numinputs = 0 then some true
  else if tx.numinputs = 0 then some false
  else if (txOuts tx).all (fun out => out.vin.toNat < tx.numinputs.toNat ∧ out.ratio.toNat ≤ priceResolution) &&
      (List.range tx.numinputs.toNat).all (fun vin => vinsum tx vin = priceResolution) then
    checkBalances s.accts (txIns tx)
  else some false

/-- The loop over the outputs of one input, up to the first that is refused. -/
def sendOutputs (b : Block) (inp : PeggyInput) (len : Nat) :
    List (Nat × PeggyOutput) → PeggyInfo → Option (PeggyInfo × Bool)
  | [], s => some (s, true)
  | (ratio, out) :: outs, s => do
    let (t, txind) ← peggyTxindSend acct777Lockhash s b 0 (some inp) ratio len out
    if txind < 0 then some (t, false) else sendOutputs b inp len outs t

/-- Output `i` of a single input gets `vinsums[i]` for its ratio, the sum of the input of that number. -/
def ratedOuts (tx : PeggyTx) : List (Nat × PeggyOutput) :=
  (List.range tx.numoutputs.toNat).map fun i => (vinsum tx i, tx.outputs.getD i default)

/-- The outputs of the first input, and the bundle of them when all have gone through. -/
def sendBundle (b : Block) (tx : PeggyTx) (outs : List (Nat × PeggyOutput)) (numtx : Nat) (s : PeggyInfo) :
    Option (PeggyInfo × Int) := do
  let (t, sent) ← sendOutputs acct777Lockhash b (tx.inputs.getD 0 default) 21 outs s
  some (if sent then txind777Bundle t numtx else (t, -1))

/-- One signer, one input. -/
def txindSpend (s : PeggyInfo) (b : Block) (actionflag : Int) (tx : PeggyTx) : Option (PeggyInfo × Int) := do
  let legal ← peggyChecktx s tx
  if legal = false then some (s, -3)
  else if actionflag = 0 then some (s, 0)
  else sendBundle acct777Lockhash b tx (ratedOuts tx) tx.numoutputs.toNat s

/-- One signer, several inputs and one output: the loop is over the outputs, so only the first input is used. -/
def txindMerge (s : PeggyInfo) (b : Block) (actionflag : Int) (tx : PeggyTx) : Option (PeggyInfo × Int) :=
  let out := tx.outputs.getD 0 default
  if out.ratio.toNat ≠ priceResolution then some (s, -1)
  else if actionflag = 0 then some (s, 0)
  else sendBundle acct777Lockhash b tx [(out.ratio.toNat, out)] tx.numinputs.toNat s

/-- One signer, no input: the funding goes to the only output, and the result is dropped. -/
def txindFund (s : PeggyInfo) (b : Block) (actionflag : Int) (tx : PeggyTx) : Option (PeggyInfo × Int) :=
  if tx.numoutputs = 1 then
    (peggyTxindSend acct777Lockhash s b (i64 (actionflag * tx.funding.amount.toNat)) none priceResolution (21 + 8 + 28)
      (tx.outputs.getD 0 default)).map fun (t, _) => (t, -1)
  else some (s, -2)

def txindTwo (s : PeggyInfo) (b : Block) (actionflag : Int) (tx : PeggyTx) : Option (PeggyInfo × Int) :=
  if tx.numoutputs ≠ 1 ∨ tx.numinputs ≠ 1 then some (s, -1)
  else if actionflag = 0 then some (s, 0)
  else
    (peggyTxindSend acct777Lockhash s b 0 (some (tx.inputs.getD 0 default)) priceResolution 29 (tx.outputs.getD 0 default)).map
      fun (t, txind) => (t, if txind < 0 then -1 else txind)

def txindNormal (s : PeggyInfo) (b : Block) (actionflag : Int) (tx : PeggyTx) : Option (PeggyInfo × Int) :=
  if peggyOnesigner tx ≠ 0 then
    if tx.numinputs = 0 then txindFund acct777Lockhash s b actionflag tx
    else if tx.numinputs = 1 then
      if tx.numoutputs = 0 then some (s, -1) else txindSpend acct777Lockhash s b actionflag tx
    else if tx.numoutputs = 1 then txindMerge acct777Lockhash s b actionflag tx
    else some (s, -1)
  else if peggyTwosigners tx then txindTwo acct777Lockhash s b actionflag tx
  else some (s, -1)

/-- Price feeds are taken from a staked block, or under one signature. -/
def peggyTxindPrices (s : PeggyInfo) (b : Block) (actionflag : Int) (tx : PeggyTx) (stakedblock : Nat) : PeggyInfo × Int :=
  if tx.numoutputs ≠ 0 ∨ tx.numinputs ≠ 0 ∨ actionflag = 0 then (s, -1)
  else if stakedblock ≠ 0 ∨ peggyOnesigner tx ≠ 0 then
    let feed := used tx.details.price.num.toNat tx.details.price.feed
    let pricefeeds := Function.update s.accts.pricefeeds b.blocknum (some feed)
    txind777Create { s with accts := { s.accts with pricefeeds } } (12 + 4 * feed.length)
  else (s, -1)

/-- A bet is only logged; the entry of each has length 0, and the result of the bundle is dropped. -/
def peggyTxindBets (s : PeggyInfo) (actionflag : Int) (tx : PeggyTx) : PeggyInfo × Int :=
  if tx.numoutputs ≠ 0 ∨ tx.numinputs ≠ 0 ∨ peggyOnesigner tx = 0 then (s, -1)
  else if actionflag = 0 then (s, 0)
  else ((txind777Bundle s tx.numdetails.toNat).1, 0)

def micropayAllowed (tx : PeggyTx) : Bool :=
  let pay (i : Nat) := tx.details.micropays.getD i default
  if peggyOnesigner tx ≠ 0 then
    tx.numoutputs = 1 ∧ tx.numinputs = 1 ∧ (pay 0).vin = 0 ∧ (pay 0).vout = 0 ∧ tx.numdetails = 1
  else if peggyTwosigners tx then
    tx.numoutputs = 2 ∧ tx.numinputs = 2 ∧ tx.numdetails = 2 ∧ (pay 0).vin = 0 ∧ (pay 0).vout = 0 ∧ (pay 1).vin = 1 ∧
      (pay 1).vout = 1
  else true

/-- `peggy_create_micropay` and `peggy_create_micropair` do nothing yet. -/
def peggyTxindMicropay (s : PeggyInfo) (tx : PeggyTx) : PeggyInfo × Int :=
  if micropayAllowed tx then txind777Create s 12 else (s, -1)

def peggyTxind (s : PeggyInfo) (b : Block) (actionflag : Int) (tx : PeggyTx) (stakedblock : Nat) :
    Option (PeggyInfo × Int) :=
  if actionflag < 0 then some (s, -1)
  else if tx.txtype = 0 then txindNormal acct777Lockhash s b actionflag tx
  else if tx.txtype = 2 then some (peggyTxindPrices s b actionflag tx stakedblock)
  else do
    let legal ← peggyChecktx s tx
    some (if legal = false then (s, -1)
      else if tx.txtype = 1 then peggyTxindBets s actionflag tx
      else if tx.txtype = 4 then peggyTxindMicropay s tx
      else (s, 0))

end

/-- `peggy_assetbits` of a name: its number if it is one, else its first eight characters. -/
def peggyAssetbits (name : List UInt8) : Nat :=
  if name ≠ [] ∧ name.all (fun c => 48 ≤ c ∧ c ≤ 57) then
    u64 (name.foldl (fun n c => 10 * n + (c.toNat - 48)) 0 : Nat)
  else leValue (name.take 8)

/-- Unknown names are taken for contract 0. -/
def peggyPegstr (s : PeggyInfo) (peg : BitVec 120) : Nat :=
  (peggyFindpair s (peggyAssetbits ((leBytes 15 peg.toNat).takeWhile (· ≠ 0)))).getD 0

/-- The table `tunefuncs`, in its order. -/
def tunefuncs (PEG : PeggyContract) (val valB : BitVec 64) : List PeggyContract :=
  [{ PEG with enabled := signed 8 val.toNat },
    { PEG with maxdailyrate := u32 val.toNat },
    { PEG with pool := { PEG.pool with quorum := val.toNat } },
    { PEG with pool := { PEG.pool with decisionthreshold := val.toNat } },
    { PEG with maxnetbalance := i64 val.toNat },
    { PEG with maxsupply := i64 val.toNat },
    { PEG with lockparms := { PEG.lockparms with minlockdays := val.setWidth 16, maxlockdays := valB.setWidth 16 } },
    { PEG with lockparms := { PEG.lockparms with clonesmear := val.setWidth 16 } },
    { PEG with lockparms := { PEG.lockparms with mixrange := val.setWidth 16 } },
    { PEG with lockparms := { PEG.lockparms with redemptiongapdays := val.setWidth 16 } },
    { PEG with lockparms := { PEG.lockparms with extralockdays := val.setWidth 8 } },
    { PEG with lockparms := { PEG.lockparms with margin := val.setWidth 8 } },
    { PEG with mindenomination := i64 val.toNat },
    { PEG with spread := i64 val.toNat }]

/-- The bytes of `B` in order. -/
def peggyFees (s : PeggyInfo) (B : BitVec 64) : PeggyInfo :=
  { s with
    interesttenths := (B.extractLsb' 0 8).toNat, posboost := (B.extractLsb' 8 8).toNat
    negpenalty := (B.extractLsb' 16 8).toNat, feediv := (B.extractLsb' 24 8).toNat, feemult := (B.extractLsb' 32 8).toNat }

/-- The loop over the entries from number `i` on. Entry `i` is tuned by the function of that number and by the
values of the first entry. `none` where there is no such function. -/
def tuneEntries (actionflag : Int) (val valB : BitVec 64) : Nat → List TxTune → PeggyInfo → Option (PeggyInfo × Bool)
  | _, [], s => some (s, true)
  | i, tune :: tunes, s =>
    let peg := peggyPegstr s tune.peg
    if s.numpegs ≤ peg then some (s, false)
    else if actionflag ≤ 0 then tuneEntries actionflag val valB (i + 1) tunes s
    else
      let s := if tune.type = 77 then peggyFees s tune.B else s
      if 14 ≤ tune.type.toNat then some (s, false)
      else do
        let PEG ← (tunefuncs (s.contracts peg) val valB)[i]?
        let s := { s with contracts := Function.update s.contracts peg PEG }
        tuneEntries actionflag val valB (i + 1) tunes (txind777Create s 32).1

/-- `tuners` are the four accounts that may tune. -/
def peggyTxindTune (tuners : List (BitVec 64)) (s : PeggyInfo) (actionflag : Int) (tx : PeggyTx) : Option (PeggyInfo × Int) :=
  if tx.numoutputs ≠ 0 ∨ tx.numinputs ≠ 0 ∨ peggyOnesigner tx = 0 ∨ peggyOnesigner tx ∉ tuners then some (s, -1)
  else
    let tunes := used tx.numdetails.toNat tx.details.tune
    let first := tunes.headD default
    match tuneEntries actionflag first.val first.B 0 tunes s with
    | none => none
    | some (t, false) => some (t, -1)
    | some (t, true) => some (if tunes.length = 0 then (t, 0) else txind777Bundle t tunes.length)

end SuperNet.Peggy.Peggy777
