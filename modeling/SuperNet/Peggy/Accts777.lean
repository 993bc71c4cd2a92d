import SuperNet.Lib.SwapRemove
import SuperNet.Peggy.Serdes777Tx

/-! The accounts of accts777.c: the tables of address records and the array of locked units. -/
namespace SuperNet.Peggy.Accts777
open Lib.Bytes Lib.SwapRemove Serdes777

structure PeggyUnit where
  estimatedInterest : Int
  costbasis : Int
  amount : Int
  marginamount : Int
  timestamp : Nat
  dailyrate : Int
  baseid : Nat
  relid : Nat
  lock : PeggyLock
  lockhash : BitVec 256
  deriving DecidableEq

structure Acct777 where
  firstblocknum : Nat
  firsttimestamp : Nat
  balance : Int
  deriving DecidableEq

/-- The four tables behind `addrkvs`. -/
inductive Table where
  | coinaddrs
  | nxtaddrs
  | samaddrs
  | hashaddrs
  deriving DecidableEq, Repr

structure OpreturnPayment where
  coinaddr : PeggyAddr
  value : Int
  deriving DecidableEq

/-- `indexed` says that the pointer `hashaddrs` is set, `nextpos` where the transaction log ends. -/
structure AcctsInfo where
  paymentsQ : List OpreturnPayment
  units : List PeggyUnit
  indexed : Bool
  addrkvs : Table → Nat → Option Acct777
  pricefeeds : Nat → Option (List (BitVec 32))
  peggyhash : Nat
  nextpos : Nat

/-- The table of an address type and the leading bytes of the address that are its key there. -/
def accts777Key (addr : PeggyAddr) (type : BitVec 8) : Option (Table × Nat) :=
  match type.toNat with
  | 0 => some (.coinaddrs, leValue (addr.bytes.take 36))
  | 1 => some (.hashaddrs, addr.sha256.toNat)
  | 2 => some (.nxtaddrs, addr.nxt64bits.toNat)
  | 3 => some (.hashaddrs, addr.sha256.toNat)
  | 4 => some (.hashaddrs, addr.sha256.toNat)
  | 5 => some (.samaddrs, leValue addr.bytes)
  | 6 => some (.coinaddrs, leValue (addr.bytes.take 36))
  | _ => none

def accts777Find (accts : AcctsInfo) (addr : PeggyAddr) (type : BitVec 8) : Option Acct777 := do
  let (table, key) ← accts777Key addr type
  accts.addrkvs table key

def ramkv777Write (accts : AcctsInfo) (table : Table) (key : Nat) (acct : Acct777) : AcctsInfo :=
  { accts with
    addrkvs := Function.update accts.addrkvs table (Function.update (accts.addrkvs table) key (some acct)) }

def acct777Balance (accts : AcctsInfo) (addr : PeggyAddr) (type : BitVec 8) : Int :=
  match accts777Find accts addr type with
  | none => 0
  | some acct => acct.balance

/-- The last unit takes the place of the one that goes. -/
def peggyDelete (accts : AcctsInfo) (i : Nat) : AcctsInfo := { accts with units := swapRemove accts.units i }

def peggyAddunit (accts : AcctsInfo) (U : PeggyUnit) (lockhash : BitVec 256) : AcctsInfo :=
  { accts with units := accts.units ++ [{ U with lockhash }] }

/-- The peg and lock period that `peggy_match` looks for. -/
def PeggyUnit.offers (U : PeggyUnit) (peg : Int) (lockdays : BitVec 16) : Bool :=
  U.lock.peg.toInt = peg && U.lock.minlockdays ≤ lockdays && lockdays ≤ U.lock.maxlockdays

/-- The unit and its place in the array. Without `hashaddrs` the first unit on offer decides. With it the
record under the lockhash is a `struct acct777` of 16 bytes, and `size == sizeof(U)` asks for the 8 of a
pointer. -/
def peggyMatch (accts : AcctsInfo) (peg : Int) (lockhash : BitVec 256) (lockdays : BitVec 16) : Option (Nat × PeggyUnit) :=
  if accts.indexed then none
  else do
    let i ← accts.units.findIdx? (·.offers peg lockdays)
    let U ← accts.units[i]?
    if U.lockhash = lockhash then some (i, U) else none

theorem offers_iff {U : PeggyUnit} {peg : Int} {lockdays : BitVec 16} : U.offers peg lockdays = true ↔
    U.lock.peg.toInt = peg ∧ U.lock.minlockdays ≤ lockdays ∧ lockdays ≤ U.lock.maxlockdays := by
  rw [PeggyUnit.offers, Bool.and_eq_true, Bool.and_eq_true, decide_eq_true_eq, decide_eq_true_eq, decide_eq_true_eq, and_assoc]

theorem peggyMatch_offers {accts : AcctsInfo} {peg : Int} {lockhash : BitVec 256} {lockdays : BitVec 16} {i : Nat}
    {U : PeggyUnit} (h : peggyMatch accts peg lockhash lockdays = some (i, U)) :
    accts.units[i]? = some U ∧ U.offers peg lockdays = true ∧ U.lockhash = lockhash := by
  rw [peggyMatch] at h
  split at h
  · cases h
  · obtain ⟨j, hj, h⟩ := Option.bind_eq_some_iff.mp h
    obtain ⟨V, hV, h⟩ := Option.bind_eq_some_iff.mp h
    split at h
    · next hhash =>
      obtain ⟨rfl, rfl⟩ := Prod.mk.inj (Option.some.inj h)
      obtain ⟨hi, hoffer, -⟩ := List.findIdx?_eq_some_iff_getElem.mp hj
      rw [(List.getElem?_eq_some_iff.mp hV).2] at hoffer
      exact ⟨hV, hoffer, hhash⟩
    · cases h

theorem peggyMatch_some {accts : AcctsInfo} {peg : Int} {lockhash : BitVec 256} {lockdays : BitVec 16} {i : Nat}
    {U : PeggyUnit} (h : peggyMatch accts peg lockhash lockdays = some (i, U)) :
    accts.units[i]? = some U ∧ U.lock.peg.toInt = peg ∧ U.lockhash = lockhash := by
  obtain ⟨hU, hoffer, hhash⟩ := peggyMatch_offers h
  exact ⟨hU, (offers_iff.mp hoffer).1, hhash⟩

end SuperNet.Peggy.Accts777
