import SuperNet.Lib.Ledger
import SuperNet.Lib.Runs
import SuperNet.Peggy.Peggy777

/-! The operations of the peg bank: creating and redeeming units, margin calls, and `peggy_changereserve`,
through which all of them book. -/
namespace SuperNet.Peggy.Peggy777
open Lib.Words Lib.Ledger Lib.Runs Lib.SwapRemove Serdes777 Accts777

/-- `&PEGS->basereserves[id].funds` updated. -/
def bookReserve (reserves : Nat → PeggyMargin) (id : Nat) (satoshis : Int) (margin : Nat) (amount : Int) :
    Nat → PeggyMargin :=
  Function.update reserves id (peggyUpdatemargin (reserves id) satoshis margin amount)

def addLiability (liability : PeggyUnits) (polarity units : Int) : PeggyUnits :=
  if polarity < 0 then { liability with numoppo := liability.numoppo + units }
  else { liability with num := liability.num + units }

/-- The branch of `peggy_changereserve` that shares the fee out instead of replenishing the pool. -/
def Funded (s : PeggyInfo) (peg : Nat) : Prop := 0 < (s.contracts peg).pool.funds.deposits ∧ 0 < s.bank.funds.deposits

instance (s : PeggyInfo) (peg : Nat) : Decidable (Funded s peg) := inferInstanceAs (Decidable (_ ∧ _))

def replenish (s : PeggyInfo) (peg : Nat) (entry : PeggyEntry) : Nat := if Funded s peg then 0 else u64 entry.fee

def royaltyFee (s : PeggyInfo) (peg : Nat) (entry : PeggyEntry) : Nat :=
  if Funded s peg ∧ 0 ≤ s.bank.aprfund then u64 (u64 (entry.fee.tdiv s.feediv) * s.feemult) else 0

/-- `dir` reaches the reserves and the liability, not the funds of the pool and the bank. -/
def peggyChangereserve (s : PeggyInfo) (peg : Nat) (dir : Int) (entry : PeggyEntry) (satoshis : Int) (margin : Nat)
    (marginamount : Int) : PeggyInfo :=
  let PEG := s.contracts peg
  let fee := royaltyFee s peg entry
  let aprfund :=
    if Funded s peg then
      if s.bank.aprfund < 0 then s.bank.aprfund + entry.fee
      else i64 (s.bank.aprfund + ((entry.fee - fee) - entry.interestpaid))
    else s.bank.aprfund
  let paid := i64 (satoshis + replenish s peg entry)
  { s with
    bank :=
      { funds := peggyUpdatemargin s.bank.funds paid margin marginamount
        crypto777Royalty := s.bank.crypto777Royalty + i64 (entry.royalty + fee)
        aprfund
        aprfundReserved := s.bank.aprfundReserved + (entry.estimatedInterest - entry.interestUnlocked) }
    contracts := Function.update s.contracts peg
      { PEG with
        pool :=
          { PEG.pool with
            funds := peggyUpdatemargin PEG.pool.funds paid margin marginamount
            liability := addLiability PEG.pool.liability entry.polarity (dir * entry.denomination) } }
    basereserves :=
      bookReserve (bookReserve s.basereserves entry.baseid (dir * satoshis) margin (dir * marginamount)) entry.relid
        (-dir * satoshis) margin (-dir * marginamount) }

/-- `int16_t denom = -denom` where the source makes a denomination positive. -/
def denomAbs (denom : BitVec 16) : BitVec 16 := if denom.toInt < 0 then -denom else denom

def denomSign (denom : BitVec 16) : Int := if denom.toInt < 0 then -1 else 1

/-- The lock that `peggy_setunit` stores in the unit, unless its margin is refused. -/
def lockTerms (entry : PeggyEntry) (PEG : PeggyContract) (peg : Nat) (seed : Nat) (lock : PeggyLock) : Option PeggyLock :=
  let parms := PEG.lockparms
  let denom := (denomAbs lock.denom).toInt
  if lock.margin ≠ 0 ∧ (peggyMarginlockdays < lock.maxlockdays.toNat ∨ parms.margin < lock.margin ∨
      denom < lock.margin.toNat ∨ entry.supply.numoppo < denom + entry.supply.num) then none
  else
    let maxlockdays := if lock.maxlockdays ≤ parms.maxlockdays then parms.maxlockdays else lock.maxlockdays
    let minlockdays := if parms.minlockdays ≤ lock.minlockdays then parms.minlockdays else lock.minlockdays
    some
      { peg := BitVec.ofInt 16 (peg * denomSign lock.denom)
        denom := lock.denom
        minlockdays := if maxlockdays < minlockdays then maxlockdays else minlockdays
        maxlockdays
        clonesmear := if parms.clonesmear < lock.clonesmear then parms.clonesmear else lock.clonesmear
        mixrange := if parms.mixrange < lock.mixrange then parms.mixrange else lock.mixrange
        redemptiongapdays := if lock.margin ≠ 0 then BitVec.ofNat 16 peggyMargingapdays else parms.redemptiongapdays
        extralockdays := BitVec.ofNat 8 (peggyMinextradays + seed % parms.extralockdays.toNat)
        margin := lock.margin }

/-- The unit, the entry and the price; `none` where the source returns 0 with an error. -/
def peggySetunit (entry : PeggyEntry) (s : PeggyInfo) (now : Nat) (peg : Nat) (seed : Nat) (lock : PeggyLock) :
    Option (PeggyUnit × PeggyEntry × Int) := do
  let PEG := s.contracts peg
  let polarity := denomSign lock.denom
  let denom := (denomAbs lock.denom).toInt
  if priceResolutionMaxunits ≤ denom then none
  let terms ← lockTerms entry PEG peg seed lock
  let price := PEG.dayprice
  let oppoprice := peggyShortprice PEG price
  let spread := peggyCalcspread PEG.spread (terms.minlockdays.toNat + terms.extralockdays.toNat)
  let entry := peggyPoolmainunits { entry with price, oppoprice } 1 polarity price oppoprice spread
    PEG.pool.mainunitsize denom
  let lockdays := if 0 < polarity then terms.maxlockdays else terms.minlockdays
  let (entry, legal) := peggyIslegalAmount entry s peg entry.total (lockdays.toNat + PEG.lockparms.extralockdays.toNat)
    terms.margin.toNat price
  let U : PeggyUnit :=
    { estimatedInterest := 0, costbasis := entry.costbasis, amount := 0, marginamount := 0, timestamp := now
      dailyrate := 0, baseid := entry.baseid, relid := entry.relid, lock := terms, lockhash := 0 }
  some (U, entry, if legal then entry.total else 0)

/-- The contract and the direction of a new unit: by name, or else by the signed peg of its lock. -/
def createdPeg (s : PeggyInfo) (name : Option Nat) (lock : PeggyLock) : Option (Nat × Int) := do
  let polarity := denomSign lock.denom
  match name with
  | some assetbits =>
    let peg ← peggyFindpair s assetbits
    some (peg, polarity)
  | none =>
    let peg := lock.peg.toInt
    if s.numpegs ≤ peg.natAbs then none
    let found ← peggyFindpair s (s.contracts peg.natAbs).assetbits
    some (found, if peg < 0 then -polarity else polarity)

/-- The unit as `peggy_createunit` stores it, the entry it books, and its price. -/
def createdUnit (s : PeggyInfo) (now seed : Nat) (name : Option Nat) (lock : PeggyLock) (amount marginamount : Nat) :
    Option (Nat × PeggyUnit × PeggyEntry × Int) := do
  if priceResolutionMaxunits ≤ (denomAbs lock.denom).toInt then none
  let (peg, polarity) ← createdPeg s name lock
  let (U, entry, satoshis) ← peggySetunit (peggyFound (s.contracts peg) polarity) s now peg seed lock
  some (peg, { U with estimatedInterest := entry.estimatedInterest, amount := i64 amount, marginamount := i64 marginamount },
    entry, satoshis)

/-- The comparisons are unsigned. -/
def Enough (lock : PeggyLock) (amount marginamount : Nat) (satoshis : Int) : Prop :=
  lock.margin = 0 ∧ u64 satoshis ≤ amount ∨ u64 satoshis ≤ u64 (marginamount * lock.margin.toNat)

instance (lock : PeggyLock) (amount marginamount : Nat) (satoshis : Int) : Decidable (Enough lock amount marginamount satoshis) :=
  inferInstanceAs (Decidable (_ ∨ _))

/-- With `readU` the unit is only priced. -/
def peggyCreateunit (s : PeggyInfo) (now : Nat) (readU : Bool) (seed : Nat) (name : Option Nat) (lockhash : BitVec 256)
    (lock : PeggyLock) (amount marginamount : Nat) : PeggyInfo × Int :=
  match createdUnit s now seed name lock amount marginamount with
  | none => (s, 0)
  | some (peg, U, entry, satoshis) =>
    if satoshis = 0 ∨ readU then (s, satoshis)
    else if Enough lock amount marginamount satoshis then
      let s' := peggyChangereserve s peg 1 entry entry.costbasis lock.margin.toNat (i64 marginamount)
      ({ s' with accts := peggyAddunit s'.accts U lockhash }, satoshis)
    else (s, 0)

/-- Days since the unit was created. -/
def elapsed (now : Nat) (U : PeggyUnit) : Nat := u32 (now - U.timestamp) / peggyDayticks

def holdingDays (U : PeggyUnit) (lockdays : BitVec 16) : Nat := lockdays.toNat + U.lock.extralockdays.toNat

def Redeemable (now : Nat) (U : PeggyUnit) (lockdays : BitVec 16) : Prop :=
  holdingDays U lockdays ≤ elapsed now U ∧ elapsed now U ≤ holdingDays U lockdays + U.lock.redemptiongapdays.toNat

instance (now : Nat) (U : PeggyUnit) (lockdays : BitVec 16) : Decidable (Redeemable now U lockdays) :=
  inferInstanceAs (Decidable (_ ∧ _))

/-- The price around the day the lock ends, averaged over more days for a larger unit. -/
def redeemPrice (PEG : PeggyContract) (U : PeggyUnit) (days : Nat) : Int :=
  let n := signed 32 (U.costbasis.tdiv PEG.unitincr)
  let day := u32 (U.timestamp + days * peggyDayticks)
  let day := if 0 < n then u32 (day - (n * peggyDayticks).tdiv 2) else day
  peggyAveprice PEG (u32 (day - PEG.genesistime) / peggyDayticks) (if 0 < n then n.toNat else 1)

/-- The entry of a unit that is priced, before what it pays is cut to the pool. -/
def redeemEntry (s : PeggyInfo) (U : PeggyUnit) (lockdays : BitVec 16) : PeggyEntry :=
  let (peg, entry) := peggyFindpeg s U.lock.peg.toInt
  let PEG := s.contracts peg
  let days := holdingDays U lockdays
  let price := redeemPrice PEG U days
  let oppoprice := if entry.polarity < 0 then peggyShortprice PEG price else 0
  let entry := peggyPoolmainunits entry (-1) entry.polarity price oppoprice (peggyCalcspread PEG.spread days)
    PEG.pool.mainunitsize U.lock.denom.toInt
  let entry := { entry with costbasis := U.costbasis }
  if U.estimatedInterest = 0 then entry
  else
    let interest := u64 (peggyCompound entry.total U.dailyrate (days + U.lock.extralockdays.toNat) - u64 entry.total)
    let interestpaid := min (i64 (interest / PEG.pool.mainunitsize * PEG.pool.mainunitsize : Nat)) U.estimatedInterest
    { entry with
      interestpaid, royalty := i64 (entry.royalty + (interest - interestpaid)), interestUnlocked := U.estimatedInterest }

/-- What the pool can pay; the comparisons are unsigned. -/
def payable (funds : PeggyMargin) (margin : BitVec 8) (entry : PeggyEntry) : Int :=
  let satoshis := u64 entry.total
  let satoshis :=
    if margin = 0 then
      if u64 funds.deposits < satoshis then u64 funds.deposits
      else if u64 (satoshis + entry.interestpaid) ≤ u64 funds.deposits then u64 (satoshis + entry.interestpaid)
      else satoshis
    else if u64 funds.margindeposits < satoshis then u64 funds.margindeposits
    else satoshis
  i64 satoshis

/-- The entry and the satoshis of a redemption. Too early and too late, the entry carries no denomination. -/
def peggyRedeemhash (s : PeggyInfo) (now : Nat) (U : PeggyUnit) (lockdays : BitVec 16) : PeggyEntry × Int :=
  if elapsed now U < holdingDays U lockdays then ((peggyFindpeg s U.lock.peg.toInt).2, 0)
  else if holdingDays U lockdays + U.lock.redemptiongapdays.toNat < elapsed now U then
    ((peggyFindpeg s U.lock.peg.toInt).2, -1)
  else
    let entry := redeemEntry s U lockdays
    (entry, payable (s.contracts U.lock.peg.toInt.natAbs).pool.funds U.lock.margin entry)

section
variable (acct777Lockhash : BitVec 256 → BitVec 16 → BitVec 8 → BitVec 256)

/-- The arguments of `peggy_redeem`; `assetbits` stands for the name. -/
structure Redemption where
  now : Nat
  readonly : Bool
  assetbits : Nat
  polarity : Int
  pubkey : BitVec 256
  lockdays : BitVec 16
  chainlen : BitVec 8

/-- The contract, and the unit with its place, that a redemption meets. -/
def Redemption.target (s : PeggyInfo) (r : Redemption) : Option (Nat × Nat × PeggyUnit) := do
  let peg ← peggyFindpair s r.assetbits
  let (i, U) ← peggyMatch s.accts (peg * r.polarity) (acct777Lockhash r.pubkey r.lockdays r.chainlen) r.lockdays
  some (peg, i, U)

/-- A unit whose time has passed is purged for nothing. -/
def redeemPaid (s : PeggyInfo) (now : Nat) (U : PeggyUnit) (lockdays : BitVec 16) : Int :=
  max 0 (peggyRedeemhash s now U lockdays).2

def peggyRedeem (s : PeggyInfo) (r : Redemption) : PeggyInfo × Int :=
  match r.target acct777Lockhash s with
  | none => (s, 0)
  | some (peg, i, U) =>
    let (entry, _) := peggyRedeemhash s r.now U r.lockdays
    let satoshis := redeemPaid s r.now U r.lockdays
    if r.readonly then (s, satoshis)
    else
      let s' := peggyChangereserve s peg (-1) entry satoshis U.lock.margin.toNat U.marginamount
      ({ s' with accts := peggyDelete s'.accts i }, satoshis)

end

/-- The entry under which a margin call prices a unit. -/
def callEntry (s : PeggyInfo) (newprice shortprice : Int) (U : PeggyUnit) : PeggyEntry :=
  let (peg, entry) := peggyFindpeg s U.lock.peg.toInt
  let PEG := s.contracts peg
  peggyPoolmainunits entry (-1) entry.polarity newprice shortprice PEG.spread PEG.pool.mainunitsize U.lock.denom.toInt

/-- The unit is on margin in this peg and has lost more than its margin covers. -/
def MarginCalled (s : PeggyInfo) (peg : Nat) (newprice shortprice : Int) (U : PeggyUnit) : Prop :=
  let entry := callEntry s newprice shortprice U
  U.lock.margin ≠ 0 ∧ U.lock.peg.toInt.natAbs = peg ∧
    entry.polarity * (entry.total - U.costbasis) < (-U.costbasis).tdiv U.lock.margin.toNat

instance (s : PeggyInfo) (peg : Nat) (newprice shortprice : Int) (U : PeggyUnit) :
    Decidable (MarginCalled s peg newprice shortprice U) := inferInstanceAs (Decidable (_ ∧ _))

/-- One round of the loop. The unit moved into the place of a deleted one is not looked at. -/
def margincall (peg : Nat) (newprice shortprice : Int) (s : PeggyInfo) (i : Nat) : PeggyInfo :=
  match s.accts.units[i]? with
  | none => s
  | some U =>
    if MarginCalled s peg newprice shortprice U then
      let entry := callEntry s newprice shortprice U
      let s' := peggyChangereserve s peg (-1) entry entry.total U.lock.margin.toNat U.marginamount
      { s' with accts := peggyDelete s'.accts i }
    else s

def peggyMargincalls (s : PeggyInfo) (peg : Nat) (newprice shortprice : Int) : PeggyInfo :=
  rounds (margincall peg newprice shortprice) s s.accts.units.length

end SuperNet.Peggy.Peggy777
