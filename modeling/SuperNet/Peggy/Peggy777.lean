import SuperNet.Peggy.Accts777
import SuperNet.Lib.Words

/-! The pegs and the bank of peggy777.c: prices, fees and interest of a unit. Signed 64-bit sums and
products are exact, since their overflow is undefined in the source; unsigned ones and every store of an
unsigned value wrap, and a mixed comparison or division is unsigned. A contract is named by its index
in `contracts`, which `peggy_createpair` also makes its `name.id`. -/
namespace SuperNet.Peggy.Peggy777
open Lib.Words Serdes777 Accts777

structure PeggyMargin where
  deposits : Int
  margindeposits : Int
  marginvalue : Int
  deriving DecidableEq, Inhabited

structure PeggyUnits where
  num : Int
  numoppo : Int
  deriving DecidableEq, Inhabited

structure PeggyPool where
  funds : PeggyMargin
  liability : PeggyUnits
  quorum : Nat
  decisionthreshold : Nat
  mainunitsize : Nat
  deriving DecidableEq, Inhabited

/-- `struct peggy`; `assetbits` stands for the name. -/
structure PeggyContract where
  assetbits : Nat
  baseid : Fin 256
  relid : Fin 256
  enabled : Int
  pool : PeggyPool
  lockparms : PeggyLock
  maxsupply : Int
  maxnetbalance : Int
  spread : Int
  mindenomination : Int
  genesisprice : Int
  dayprice : Int
  genesistime : Nat
  maxdailyrate : Nat
  unitincr : Nat
  dayprices : Nat → Nat
  deriving Inhabited

structure PeggyEntry where
  total : Int
  costbasis : Int
  royalty : Int
  fee : Int
  estimatedInterest : Int
  interestUnlocked : Int
  interestpaid : Int
  supplydiff : Int
  denomination : Int
  dailyrate : Int
  baseid : Fin 256
  relid : Fin 256
  polarity : Int
  supply : PeggyUnits
  price : Int
  oppoprice : Int
  deriving DecidableEq, Inhabited

/-- The places of "BTCD" and "USD" in the table of names. -/
def btcdId : Fin 256 := 0

def usdId : Fin 256 := 1

structure PeggyBalances where
  funds : PeggyMargin
  crypto777Royalty : Int
  aprfund : Int
  aprfundReserved : Int
  deriving DecidableEq, Inhabited

structure PeggyInfo where
  bank : PeggyBalances
  basereserves : Nat → PeggyMargin
  interesttenths : Int
  posboost : Int
  negpenalty : Int
  feediv : Int
  feemult : Int
  numpegs : Nat
  contracts : Nat → PeggyContract
  accts : AcctsInfo

def satoshiden : Nat := 100000000
def priceResolutionRoot : Nat := 3163
def priceResolution : Nat := 10004569
def priceResolutionMaxunits : Int := 9219
def peggyDayticks : Nat := 86400
def peggyMarginlockdays : Nat := 30
def peggyMargingapdays : Nat := 7
def peggyMinextradays : Nat := 3
def peggyMaxpegs : Nat := 4160
def peggyRate777 : Int := 2052
def peggyNumcoeffs : Nat := 539

def scaledPrice (val scale : Int) : Int := (scale * val).tdiv priceResolution

def dailyrates : List Int :=
  [0, 27, 55, 82, 110, 137, 164, 192, 219, 246, 273, 300, 327, 355, 382, 409, 436, 463, 489, 516, 543, 570, 597, 624,
    651, 677, 704, 731, 757, 784, 811, 837, 864, 890, 917, 943, 970, 996, 1023, 1049, 1076, 1102, 1128, 1155, 1181,
    1207, 1233, 1259, 1286, 1312, 1338, 1364, 1390, 1416, 1442, 1468, 1494, 1520, 1546, 1572, 1598, 1624, 1649, 1675,
    1701, 1727, 1752, 1778, 1804, 1830, 1855, 1881, 1906, 1932, 1957, 1983, 2008, 2034, 2059, 2085, 2110, 2136, 2161,
    2186, 2212, 2237, 2262, 2287, 2313, 2338, 2363, 2388, 2413, 2438, 2463, 2488, 2513, 2538, 2563, 2588, 2613]

/-- `compounded += SCALED_PRICE(compounded,dailyrate)`, `n` times. -/
def compoundDays (dailyrate : Int) : Nat → Int → Int
  | 0, compounded => compounded
  | n+1, compounded => compoundDays dailyrate n (compounded + scaledPrice compounded dailyrate)

def peggyCompound (satoshis dailyrate : Int) (n : Nat) : Int :=
  if dailyrate = 0 then satoshis else max 0 (compoundDays dailyrate n satoshis)

def peggyUpdatemargin (funds : PeggyMargin) (satoshis : Int) (margin : Nat) (amount : Int) : PeggyMargin :=
  if margin = 0 then { funds with deposits := funds.deposits + satoshis }
  else
    { funds with
      margindeposits := funds.margindeposits + amount, marginvalue := funds.marginvalue + amount * margin }

def peggySatoshis (polarity denomination price oppoprice : Int) : Nat :=
  if polarity < 0 then
    let satoshi := u64 ((oppoprice * price).tdiv priceResolutionRoot)
    u64 ((satoshiden / priceResolutionRoot) * u64 (satoshi * denomination)) / priceResolution
  else u64 (u64 (satoshiden * denomination) * price) / priceResolution

/-- The fields that `peggy_poolmainunits` sets; its result is `total`. -/
def peggyPoolmainunits (entry : PeggyEntry) (dir polarity price oppoprice spread : Int) (poolincr : Nat)
    (denomunits : Int) : PeggyEntry :=
  let costbasis := i64 (peggySatoshis polarity denomunits price oppoprice)
  let fee := if (entry.baseid ≠ 0 ∨ entry.relid ≠ 0) ∧ spread ≠ 0 then scaledPrice price spread else 0
  let satoshis := peggySatoshis polarity denomunits (price + dir * fee) oppoprice
  let mainunits := u64 ((if satoshis % poolincr = 0 then 0 else dir) + (satoshis / poolincr : Nat))
  let total := i64 (poolincr * mainunits)
  { entry with denomination := denomunits, costbasis, total, fee := total - costbasis }

def peggyPairabs (basebalance relbalance : Int) : Int := |basebalance| + |relbalance|

/-- The rate of `peggy_lockrate` before the reserve for its interest is checked. -/
def offeredRate (s : PeggyInfo) (PEG : PeggyContract) (supply : PeggyUnits) : Int :=
  let diff := supply.numoppo - supply.num
  let prod := PEG.maxdailyrate * diff
  let prod := if 0 < prod then prod * s.posboost else prod
  let rate := prod.tdiv (supply.num + supply.numoppo) + dailyrates.getD s.interesttenths.toNat 0
  let rate := if peggyRate777 < rate then peggyRate777 else if rate < -peggyRate777 then -peggyRate777 else rate
  if prod < 0 ∧ 0 < rate then rate.tdiv s.negpenalty else rate

/-- `numdays` is an `uint16_t`. -/
def peggyLockrate (entry : PeggyEntry) (s : PeggyInfo) (PEG : PeggyContract) (satoshis : Nat) (numdays : Nat) : PeggyEntry :=
  if entry.supply.num + entry.supply.numoppo = 0 then { entry with dailyrate := 0 }
  else
    let rate := offeredRate s PEG entry.supply
    let supplydiff := |entry.supply.numoppo - entry.supply.num|
    let needed := (i64 (peggyCompound (i64 satoshis) rate (u16 numdays) - satoshis) * 3).tdiv 2
    if s.bank.aprfund < s.bank.aprfundReserved + needed then { entry with supplydiff, dailyrate := 0 }
    else { entry with supplydiff, estimatedInterest := needed, dailyrate := rate }

/-- The entry after `peggy_lockrate` and whether the amount is legal. -/
def peggyIslegalAmount (entry : PeggyEntry) (s : PeggyInfo) (peg : Nat) (satoshis : Int) (numdays margin : Nat)
    (price : Int) : PeggyEntry × Bool :=
  let PEG := s.contracts peg
  let entry := if margin = 0 then peggyLockrate entry s PEG (u64 satoshis) numdays else entry
  let base := (s.basereserves entry.baseid).deposits
  let rel := (s.basereserves entry.relid).deposits
  let legal : Bool :=
    if entry.baseid = entry.relid then true
    else if peg = 0 then true
    else if u64 PEG.maxsupply < u64 (PEG.pool.funds.deposits + PEG.pool.funds.marginvalue + satoshis) then false
    else if peggyPairabs (base + satoshis) (rel - satoshis) ≤ peggyPairabs base rel then true
    else
      !(PEG.maxnetbalance ≠ 0 ∧
        u64 PEG.maxnetbalance / satoshiden < u64 ((price * entry.supplydiff).tdiv priceResolution))
  (entry, legal)

def peggyFindpair (s : PeggyInfo) (assetbits : Nat) : Option Nat :=
  if assetbits = 0 then none
  else (List.range s.numpegs).find? fun i => (s.contracts i).assetbits = assetbits

def peggyFound (PEG : PeggyContract) (polarity : Int) : PeggyEntry :=
  if 0 ≤ polarity then
    { (default : PeggyEntry) with polarity := 1, baseid := PEG.baseid, relid := PEG.relid, supply := PEG.pool.liability }
  else
    { (default : PeggyEntry) with
      polarity := -1, baseid := PEG.relid, relid := PEG.baseid
      supply := ⟨PEG.pool.liability.numoppo, PEG.pool.liability.num⟩ }

def peggyFindpeg (s : PeggyInfo) (peg : Int) : Nat × PeggyEntry := (peg.natAbs, peggyFound (s.contracts peg.natAbs) peg)

def peggyCalcspread (spread : Int) (lockdays : Nat) : Int :=
  if lockdays < 30 then spread else (30 * spread).tdiv lockdays

def peggyShortprice (PEG : PeggyContract) (price : Int) : Int :=
  if price = 0 then 0 else (priceResolution * PEG.genesisprice).tdiv price

def peggyAveprice (PEG : PeggyContract) (day width : Nat) : Nat :=
  let prices := ((List.range width).map fun i => PEG.dayprices (day + i)).filter (· ≠ 0)
  if prices.length = 0 then prices.sum else prices.sum / prices.length

end SuperNet.Peggy.Peggy777
