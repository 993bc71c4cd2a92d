import Mathlib.Data.Option.Basic
import SuperNet.Common.Txind777
import SuperNet.Peggy.PeggyReserves
import SuperNet.Peggy.Peggytx
import SuperNet.Utils.NXT777

/-! The clone of a peggy state from which a reorganisation continues: accts777.c and the tables of ramkv777.c. The
contracts of a state are pointers, which the clone keeps, so they stand in a memory of their own. -/
namespace SuperNet.Peggy.PeggyClone
open Lib.Bytes Lib.Words Utils.Vsha256 Serdes777 Accts777 Common.Txind777

/-- The tables in the order of their `kvind`. -/
inductive Kv where
  | hashaddrs
  | coinaddrs
  | nxtaddrs
  | samaddrs
  | bets
  | pricefeeds
  deriving DecidableEq, Repr

def Kv.kvind : Kv → Nat
  | .hashaddrs => 0
  | .coinaddrs => 1
  | .nxtaddrs => 2
  | .samaddrs => 3
  | .bets => 4
  | .pricefeeds => 5

def Kv.keysize : Kv → Nat
  | .hashaddrs => 32
  | .coinaddrs => 36
  | .nxtaddrs => 8
  | .samaddrs => 48
  | .bets => 36
  | .pricefeeds => 8

/-- What the tables hold: accounts, and the feeds of prices. -/
inductive Value where
  | acct (acct : Acct777)
  | feed (feed : List UInt32)
  deriving DecidableEq

def Value.bytes : Value → List UInt8
  | .acct A => leBytes 4 A.firstblocknum ++ leBytes 4 A.firsttimestamp ++ leBytes 8 (u64 A.balance)
  | .feed prices => prices.flatMap fun price => leBytes 4 price.toNat

/-- The account behind a pointer into a table of accounts, which holds no feed. -/
def Value.account : Value → Acct777
  | .acct A => A
  | .feed _ => ⟨0, 0, 0⟩

/-- The prices behind a pointer into the table of feeds. -/
def Value.prices : Value → List (BitVec 32)
  | .acct _ => []
  | .feed prices => prices.map UInt32.toBitVec

/-- A write through that pointer. -/
def Value.credit (value : Int) : Value → Value
  | .acct A => .acct { A with balance := A.balance + value }
  | .feed prices => .feed prices

structure Item where
  key : List UInt8
  value : Value
  rawind : Nat
  deriving DecidableEq

/-- `struct ramkv777`, its items in the order in which the table iterates over them. -/
structure Ramkv where
  kvind : Nat
  items : List Item
  numkeys : Nat
  state : Vstate
  sha256 : List UInt8
  deriving DecidableEq

/-- `queue_t`; `locked` says that the mutex was not given back. -/
structure Queue where
  list : List OpreturnPayment
  locked : Bool
  deriving DecidableEq

/-- `struct accts777_info`: `units` is the array as allocated, `numunits` how much of it is in use. -/
structure Accts where
  paymentsQ : Queue
  units : List PeggyUnit
  numunits : Nat
  kvs : Kv → Ramkv
  peggyhash : Nat

/-- The fields of a `struct peggy_info` that a struct assignment copies. -/
structure PeggyFields where
  bank : Peggy777.PeggyBalances
  basereserves : Nat → Peggy777.PeggyMargin
  interesttenths : Int
  posboost : Int
  negpenalty : Int
  feediv : Int
  feemult : Int
  numpegs : Nat

structure PeggyInfo where
  accts : Accts
  fields : PeggyFields

/-- What copies of a `struct peggy_info` have in common: `contracts` and `txinds` are pointers. -/
structure Shared where
  contracts : Nat → Peggy777.PeggyContract
  nextpos : Nat

section Ramkv
variable (sha : Sha)

def vupdate (kv : Ramkv) (bytes : List UInt8) : Ramkv :=
  let state := vprocess sha.vcompress kv.state bytes
  { kv with state := state, sha256 := sha.vdone state }

def ramkv777Init (kv : Kv) : Ramkv := ⟨kv.kvind, [], 0, vinit, sha.vdone vinit⟩

def ramkv777Find (kv : Ramkv) (key : List UInt8) : Option Item := kv.items.find? fun item => item.key = key

/-- The end of `ramkv777_write`: a new item. -/
def ramkv777Add (kv : Ramkv) (key : List UInt8) (value : Value) : Ramkv :=
  vupdate sha (vupdate sha { kv with
    items := kv.items ++ [⟨key, value, kv.numkeys * 8 ||| kv.kvind⟩]
    numkeys := kv.numkeys + 1 } key) value.bytes

def ramkv777Write (kv : Ramkv) (key : List UInt8) (value : Value) : Ramkv :=
  match ramkv777Find kv key with
  | none => ramkv777Add sha kv key value
  | some item =>
    if value.bytes.length = item.value.bytes.length then
      if item.value.bytes ≠ value.bytes then
        vupdate sha (vupdate sha { kv with
          items := kv.items.map fun item => if item.key = key then { item with value := value } else item } key) value.bytes
      else kv
    else ramkv777Add sha (vupdate sha { kv with items := kv.items.filter fun item => item.key ≠ key } key) key value

def ramkv777Clone (clone kv : Ramkv) : Ramkv := kv.items.foldl (fun clone item => ramkv777Write sha clone item.key item.value) clone

end Ramkv

section Accts
variable (sha : Sha)

def accts777Init : Accts := ⟨⟨[], false⟩, [], 0, ramkv777Init sha, 0⟩

/-- `queue_clone` for payments: a copied item has room for the two links of a queue item alone, so the copy of a payment
ends behind it; a mutex that is held never comes back. -/
def queueClone (queue : Queue) : Option Queue := if queue.locked ∨ queue.list ≠ [] then none else some ⟨[], false⟩

def accts777Clone (accts : Accts) : Option Accts :=
  (queueClone accts.paymentsQ).map fun paymentsQ =>
    { accts777Init sha with
      paymentsQ := paymentsQ
      units := if accts.numunits > 0 then accts.units.take accts.numunits else []
      peggyhash := accts.peggyhash
      kvs := fun kv => ramkv777Clone sha (ramkv777Init sha kv) (accts.kvs kv) }

/-- `peggy_clone`; the pointers to the contracts are copied with the fields. -/
def peggyClone (src : PeggyInfo) : Option PeggyInfo :=
  (accts777Clone sha src.accts).map fun accts => { src with accts := accts }

def tableKv : Table → Kv
  | .coinaddrs => .coinaddrs
  | .nxtaddrs => .nxtaddrs
  | .samaddrs => .samaddrs
  | .hashaddrs => .hashaddrs

def addrKey (addr : PeggyAddr) (type : BitVec 8) : Option (Kv × List UInt8) :=
  (accts777Key addr type).map fun (table, key) => (tableKv table, leBytes (tableKv table).keysize key)

def Accts.setKv (accts : Accts) (kv : Kv) (ramkv : Ramkv) : Accts := { accts with kvs := Function.update accts.kvs kv ramkv }

def accts777Find (accts : Accts) (kv : Kv) (key : List UInt8) : Option Acct777 :=
  (ramkv777Find (accts.kvs kv) key).map fun item => item.value.account

/-- What an operation returns. -/
inductive Output where
  | acct (acct : Option Acct777)
  | code (retval : Int)
  | payments (list : List OpreturnPayment)
  deriving DecidableEq

/-- `accts777_create`; an address type without a table is a null pointer. -/
def accts777Create (accts : Accts) (addr : PeggyAddr) (type : BitVec 8) (blocknum blocktimestamp : Nat) : Option (Accts × Output) := do
  let (kv, key) ← addrKey addr type
  match accts777Find accts kv key with
  | none =>
    let acct : Acct777 := ⟨blocknum, blocktimestamp, 0⟩
    some (accts.setKv kv (ramkv777Write sha (accts.kvs kv) key (.acct acct)), .acct (some acct))
  | some acct =>
    if blocknum < acct.firstblocknum ∨ blocktimestamp < acct.firsttimestamp then some (accts, .acct none)
    else some (accts, .acct (some acct))

/-- `acct777_pay` without a source account, as `peggy_txind_send` calls it. -/
def acct777Pay (accts : Accts) (addr : PeggyAddr) (type : BitVec 8) (value : Int) : Option (Accts × Output) := do
  let (kv, key) ← addrKey addr type
  let _ ← accts777Find accts kv key
  let items := (accts.kvs kv).items.map fun item => if item.key = key then { item with value := item.value.credit value } else item
  some (accts.setKv kv { accts.kvs kv with items := items }, .code 0)

def priceKey (blocknum : Nat) : List UInt8 := leBytes 4 blocknum ++ leBytes 4 0

/-- The feed of a `struct peggy_txprices`. -/
abbrev Feed := { feed : List UInt32 // feed.length ≤ 256 }

def peggyCreatePrices (accts : Accts) (blocknum : Nat) (feed : Feed) : Accts :=
  accts.setKv .pricefeeds (ramkv777Write sha (accts.kvs .pricefeeds) (priceKey blocknum) (.feed feed.val))

def peggyAddunit (accts : Accts) (U : PeggyUnit) (lockhash : BitVec 256) : Accts × Output :=
  ({ accts with
    units := accts.units.take accts.numunits ++ [{ U with lockhash := lockhash }]
    numunits := accts.numunits + 1 }, .code accts.numunits)

/-- `peggy_delete` of the unit at place `i` of those in use. -/
def peggyDelete (accts : Accts) (i : Nat) : Option (Accts × Output) :=
  if i < accts.numunits then
    (accts.units[accts.numunits - 1]?).map fun last =>
      ({ accts with units := accts.units.set i last, numunits := accts.numunits - 1 }, .code 0)
  else none

/-- `opreturns_queue_payment`. `queue_delete` compares each item with itself, so that it takes the first, and it keeps
the mutex. -/
def opreturnsQueuePayment (accts : Accts) (coinaddr : PeggyAddr) (value : Int) : Option (Accts × Output) :=
  if accts.paymentsQ.locked then none
  else if value < 0 then
    match accts.paymentsQ.list with
    | [] => some (accts, .code (-1))
    | _ :: list => some ({ accts with paymentsQ := ⟨list, true⟩ }, .code 0)
  else some ({ accts with paymentsQ := ⟨accts.paymentsQ.list ++ [⟨coinaddr, value⟩], false⟩ }, .code 0)

/-- `peggy_payments`; its loop does not count `max` down, so that more payments than that end behind the array. -/
def peggyPayments (accts : Accts) (max : Nat) : Option (Accts × Output) :=
  if max = 0 then some (accts, .payments [])
  else if accts.paymentsQ.locked then none
  else
    let payments := accts.paymentsQ.list.filter fun payment => payment.value ≠ 0 ∧ payment.coinaddr.bytes.headD 0 ≠ 0
    if payments.length ≤ max then some ({ accts with paymentsQ := ⟨[], false⟩ }, .payments payments) else none

inductive AcctsOp where
  | create (addr : PeggyAddr) (type : BitVec 8) (blocknum blocktimestamp : Nat)
  | pay (addr : PeggyAddr) (type : BitVec 8) (value : Int)
  | prices (blocknum : Nat) (feed : Feed)
  | addunit (U : PeggyUnit) (lockhash : BitVec 256)
  | delete (i : Nat)
  | payment (coinaddr : PeggyAddr) (value : Int)
  | payments (max : Nat)

def stepAccts (accts : Accts) : AcctsOp → Option (Accts × Output)
  | .create addr type blocknum blocktimestamp => accts777Create sha accts addr type blocknum blocktimestamp
  | .pay addr type value => acct777Pay accts addr type value
  | .prices blocknum feed => some (peggyCreatePrices sha accts blocknum feed, .code 0)
  | .addunit U lockhash => some (peggyAddunit accts U lockhash)
  | .delete i => peggyDelete accts i
  | .payment coinaddr value => opreturnsQueuePayment accts coinaddr value
  | .payments max => peggyPayments accts max

end Accts

section Bank

/-- The accounts as the bank of peggy777.c sees them. -/
def acctsOf (accts : Accts) (nextpos : Nat) : AcctsInfo where
  paymentsQ := accts.paymentsQ.list
  units := accts.units.take accts.numunits
  indexed := true
  addrkvs table key := accts777Find accts (tableKv table) (leBytes (tableKv table).keysize key)
  pricefeeds blocknum := (ramkv777Find (accts.kvs .pricefeeds) (priceKey blocknum)).map fun item => item.value.prices
  peggyhash := accts.peggyhash
  nextpos := nextpos

section Accounts
variable {accts accts' : Accts} {nextpos : Nat} {output : Output}

/-- The bank finds an account where the tables have it. -/
theorem acctsOf_find (addr : PeggyAddr) (type : BitVec 8) : Accts777.accts777Find (acctsOf accts nextpos) addr type =
    (addrKey addr type).bind fun (kv, key) => accts777Find accts kv key := by
  rw [Accts777.accts777Find, addrKey]
  cases accts777Key addr type <;> rfl

theorem acctsOf_addunit (U : PeggyUnit) (lockhash : BitVec 256) :
    acctsOf (peggyAddunit accts U lockhash).1 nextpos = Accts777.peggyAddunit (acctsOf accts nextpos) U lockhash := by
  have hall : (accts.units.take accts.numunits ++ [{ U with lockhash := lockhash }]).length ≤ accts.numunits + 1 := by
    rw [List.length_append, List.length_take, List.length_singleton]
    omega
  rw [acctsOf, Accts777.peggyAddunit]
  dsimp only [peggyAddunit]
  rw [List.take_of_length_le hall]
  rfl

theorem acctsOf_delete {i : Nat} (hunits : accts.numunits ≤ accts.units.length)
    (h : peggyDelete accts i = some (accts', output)) :
    acctsOf accts' nextpos = Accts777.peggyDelete (acctsOf accts nextpos) i := by
  rw [peggyDelete] at h
  split at h
  case isFalse => cases h
  case isTrue hi =>
    obtain ⟨last, hlast, heq⟩ := Option.map_eq_some_iff.mp h
    cases heq
    have hlen : (accts.units.take accts.numunits).length = accts.numunits := List.length_take_of_le hunits
    have hget : (accts.units.take accts.numunits).getLast? = some last := by
      rw [List.getLast?_eq_getElem?, hlen, List.getElem?_take_of_lt (by omega), hlast]
    have hswap : Lib.SwapRemove.swapRemove (accts.units.take accts.numunits) i =
        (accts.units.set i last).take (accts.numunits - 1) := by
      rw [Lib.SwapRemove.swapRemove, hget]
      dsimp only
      rw [← List.take_set, List.dropLast_eq_take, List.length_take_of_le (by rwa [List.length_set]), List.take_take,
        min_eq_left (Nat.sub_le _ _)]
    rw [Accts777.peggyDelete]
    dsimp only [acctsOf]
    rw [hswap]
    rfl

theorem acctsOf_payment {coinaddr : PeggyAddr} {value : Int}
    (h : opreturnsQueuePayment accts coinaddr value = some (accts', output)) :
    Peggy777.opreturnsQueuePayment (acctsOf accts nextpos) coinaddr value =
      if output = .code 0 then some (acctsOf accts' nextpos) else none := by
  rw [Peggy777.opreturnsQueuePayment]
  rw [opreturnsQueuePayment] at h
  split at h
  · cases h
  · dsimp only [acctsOf]
    split at h
    case isTrue hneg =>
      rw [if_pos hneg]
      cases hlist : accts.paymentsQ.list with
      | nil =>
        rw [hlist] at h
        cases h
        rfl
      | cons first list =>
        rw [hlist] at h
        cases h
        rfl
    case isFalse hpos =>
      cases h
      rw [if_neg hpos]
      rfl

end Accounts

/-- A peggy state behind its pointers. -/
def bankOf (PEGS : PeggyInfo) (mem : Shared) : Peggy777.PeggyInfo where
  bank := PEGS.fields.bank
  basereserves := PEGS.fields.basereserves
  interesttenths := PEGS.fields.interesttenths
  posboost := PEGS.fields.posboost
  negpenalty := PEGS.fields.negpenalty
  feediv := PEGS.fields.feediv
  feemult := PEGS.fields.feemult
  numpegs := PEGS.fields.numpegs
  contracts := mem.contracts
  accts := acctsOf PEGS.accts mem.nextpos

/-- What the bank writes: its fields and units, and behind the pointers the contracts and the log. -/
def store (PEGS : PeggyInfo) (s : Peggy777.PeggyInfo) : PeggyInfo × Shared :=
  ({ accts := { PEGS.accts with units := s.accts.units, numunits := s.accts.units.length }
     fields := ⟨s.bank, s.basereserves, s.interesttenths, s.posboost, s.negpenalty, s.feediv, s.feemult,
      PEGS.fields.numpegs⟩ },
    ⟨s.contracts, s.accts.nextpos⟩)

/-- The accounts in `peggy_txind_tune`, as `conv_acctstr` reads them. -/
def tuners : List (BitVec 64) :=
  ["NXT-SQ9J-JCAN-8XVY-5XN7K", "NXT-J698-WN8Q-XR8A-92TLD", "NXT-JNES-HJ86-KNXQ-AQ33Z", "NXT-RQYG-UPJP-HMMH-7WHFZ"].map
    fun acctstr => BitVec.ofNat 64 (Utils.NXT777.rsDecode acctstr.toList)

inductive Op where
  | accts (op : AcctsOp)
  | bank (op : Peggy777.Op)
  | tune (actionflag : Int) (tx : PeggyTx)

variable (sha : Sha) (acct777Lockhash : BitVec 256 → BitVec 16 → BitVec 8 → BitVec 256)

/-- What an operation of the bank returns. -/
def returned (s : Peggy777.PeggyInfo) : Peggy777.Op → Int
  | .createunit c => (Peggy777.peggyCreateunit s c.now c.readU c.seed c.name c.lockhash c.lock c.amount c.marginamount).2
  | .redeem r => (Peggy777.peggyRedeem acct777Lockhash s r).2
  | .margincalls _ _ _ => 0
  | .prices _ _ _ => 0

def step (w : PeggyInfo × Shared) : Op → Option ((PeggyInfo × Shared) × Output)
  | .accts op => (stepAccts sha w.1.accts op).map fun (accts, output) => (({ w.1 with accts := accts }, w.2), output)
  | .bank op =>
    let s := bankOf w.1 w.2
    some (store w.1 (Peggy777.step acct777Lockhash s op), .code (returned acct777Lockhash s op))
  | .tune actionflag tx =>
    (Peggy777.peggyTxindTune tuners (bankOf w.1 w.2) actionflag tx).map fun (s, txind) => (store w.1 s, .code txind)

/-- A run with what its operations return. -/
def run (w : PeggyInfo × Shared) : List Op → Option ((PeggyInfo × Shared) × List Output)
  | [] => some (w, [])
  | op :: ops => do
    let (w, output) ← step sha acct777Lockhash w op
    let (w, outputs) ← run w ops
    some (w, output :: outputs)

/-- A peggy state before its first operation. -/
def start (fields : PeggyFields) (mem : Shared) : PeggyInfo × Shared := (⟨accts777Init sha, fields⟩, mem)

end Bank

section Property
variable (sha : Sha) (acct777Lockhash : BitVec 256 → BitVec 16 → BitVec 8 → BitVec 256)

/-- What can be seen of a state: the units, the accounts, bets and feeds under their keys, the payments that are queued,
the hashes of the tables, and the bank with its contracts. -/
structure View where
  numunits : Nat
  units : List PeggyUnit
  values : Kv → List UInt8 → Option Value
  payments : List OpreturnPayment
  hashes : Kv → List UInt8
  bank : Peggy777.PeggyInfo

def view (w : PeggyInfo × Shared) : View where
  numunits := w.1.accts.numunits
  units := w.1.accts.units.take w.1.accts.numunits
  values := fun kv key => (ramkv777Find (w.1.accts.kvs kv) key).map Item.value
  payments := w.1.accts.paymentsQ.list
  hashes := fun kv => (w.1.accts.kvs kv).sha256
  bank := bankOf w.1 w.2

/-- No sequence of operations tells two states apart, by what the operations return or by what can be seen after them. -/
def Indistinguishable (w w' : PeggyInfo × Shared) : Prop :=
  ∀ ops, (run sha acct777Lockhash w ops).map (fun (w, outputs) => (view w, outputs)) =
    (run sha acct777Lockhash w' ops).map fun (w', outputs) => (view w', outputs)

/-- A clone comes back that goes on as its original would have, whatever is done to the original before. -/
def Cloned (w : PeggyInfo × Shared) : Prop :=
  ∃ clone, peggyClone sha w.1 = some clone ∧ ∀ before w₁ outputs, run sha acct777Lockhash w before = some (w₁, outputs) →
    Indistinguishable sha acct777Lockhash w (clone, w₁.2)

/-- A clone comes back that goes on as its original would have, when nothing is done to the original. -/
def ClonedAlone (w : PeggyInfo × Shared) : Prop :=
  ∃ clone, peggyClone sha w.1 = some clone ∧ Indistinguishable sha acct777Lockhash w (clone, w.2)

/-- The operations that write no other feed over one that is there. -/
def Plain (accts : Accts) : Op → Prop
  | .accts (.prices blocknum feed) =>
    ∀ item, ramkv777Find (accts.kvs .pricefeeds) (priceKey blocknum) = some item → item.value = .feed feed.val
  | _ => True

def PlainRun (w : PeggyInfo × Shared) : List Op → Prop
  | [] => True
  | op :: ops => Plain w.1.accts op ∧ ∀ next output, step sha acct777Lockhash w op = some (next, output) → PlainRun next ops

end Property

section Traced
variable {sha : Sha} {kv : Ramkv} {key : List UInt8} {value : Value}

/-- A value as it was written first: an account has no balance then. -/
def Value.unpaid : Value → Value
  | .acct A => .acct { A with balance := 0 }
  | .feed prices => .feed prices

def Item.unpaid (item : Item) : Item := { item with value := item.value.unpaid }

def Ramkv.unpaid (kv : Ramkv) : Ramkv := { kv with items := kv.items.map Item.unpaid }

/-- A table that is rebuilt from its items comes out as it is. -/
def Traced (sha : Sha) (k : Kv) (kv : Ramkv) : Prop := ramkv777Clone sha (ramkv777Init sha k) kv = kv

theorem traced_init (sha : Sha) (k : Kv) : Traced sha k (ramkv777Init sha k) := rfl

theorem Traced.add {k : Kv} (h : Traced sha k kv) (hnew : ramkv777Find kv key = none) :
    Traced sha k (ramkv777Add sha kv key value) := by
  have hitems : (ramkv777Add sha kv key value).items = kv.items ++ [⟨key, value, kv.numkeys * 8 ||| kv.kvind⟩] := rfl
  have hfold : kv.items.foldl (fun clone item => ramkv777Write sha clone item.key item.value) (ramkv777Init sha k) = kv := h
  rw [Traced, ramkv777Clone, hitems, List.foldl_append, hfold, List.foldl_cons, List.foldl_nil, ramkv777Write, hnew]

theorem Traced.write {k : Kv} (h : Traced sha k kv) (hplain : ∀ item, ramkv777Find kv key = some item → item.value = value) :
    Traced sha k (ramkv777Write sha kv key value) := by
  rw [ramkv777Write]
  cases hfind : ramkv777Find kv key with
  | none => exact h.add hfind
  | some item =>
    obtain rfl := hplain item hfind
    dsimp only
    rw [if_pos rfl, if_neg (not_not.mpr rfl)]
    exact h

private theorem unpaid_credit (paid : Int) (value : Value) : (value.credit paid).unpaid = value.unpaid := by
  cases value <;> rfl

theorem find_unpaid (kv : Ramkv) (key : List UInt8) :
    ramkv777Find kv.unpaid key = (ramkv777Find kv key).map Item.unpaid := by
  rw [ramkv777Find, ramkv777Find, Ramkv.unpaid, List.find?_map]
  rfl

theorem write_unpaid (hvalue : value.unpaid = value)
    (hplain : ∀ item, ramkv777Find kv key = some item → item.value = value) :
    (ramkv777Write sha kv key value).unpaid = ramkv777Write sha kv.unpaid key value := by
  rw [ramkv777Write, ramkv777Write, find_unpaid]
  cases hfind : ramkv777Find kv key with
  | none =>
    change (ramkv777Add sha kv key value).unpaid = ramkv777Add sha kv.unpaid key value
    have hitems : (kv.items ++ [Item.mk key value (kv.numkeys * 8 ||| kv.kvind)]).map Item.unpaid =
        kv.items.map Item.unpaid ++ [⟨key, value, kv.numkeys * 8 ||| kv.kvind⟩] := by
      rw [List.map_append, List.map_singleton, Item.unpaid, hvalue]
    rw [ramkv777Add, ramkv777Add, Ramkv.unpaid]
    exact congrArg (fun items => ({ ramkv777Add sha kv key value with items := items } : Ramkv)) hitems
  | some item =>
    obtain rfl := hplain item hfind
    rw [Option.map_some]
    dsimp only [Item.unpaid]
    rw [hvalue, if_pos rfl, if_neg (not_not.mpr rfl), if_pos rfl, if_neg (not_not.mpr rfl)]

private theorem setKv_traced {accts : Accts} (h : ∀ k, Traced sha k (accts.kvs k).unpaid) {k : Kv}
    (hkv : Traced sha k kv.unpaid) : ∀ j, Traced sha j ((accts.setKv k kv).kvs j).unpaid := by
  intro j
  rw [Accts.setKv]
  dsimp only
  by_cases hj : j = k
  · subst hj
    rwa [Function.update_self]
  · rw [Function.update_of_ne hj]
    exact h j

private theorem write_traced {accts : Accts} (h : ∀ k, Traced sha k (accts.kvs k).unpaid) {k : Kv} (hvalue : value.unpaid = value)
    (hplain : ∀ item, ramkv777Find (accts.kvs k) key = some item → item.value = value) :
    ∀ j, Traced sha j ((accts.setKv k (ramkv777Write sha (accts.kvs k) key value)).kvs j).unpaid := by
  refine setKv_traced h ?_
  rw [write_unpaid hvalue hplain]
  refine (h k).write fun item hitem => ?_
  rw [find_unpaid] at hitem
  obtain ⟨old, hold, rfl⟩ := Option.map_eq_some_iff.mp hitem
  rw [Item.unpaid, hplain old hold, hvalue]

/-- A plain operation keeps every table, with the accounts as they were first, one that is rebuilt as it is. -/
theorem stepAccts_traced {accts accts' : Accts} {op : AcctsOp} {output : Output} (h : ∀ k, Traced sha k (accts.kvs k).unpaid)
    (hplain : Plain accts (.accts op)) (hstep : stepAccts sha accts op = some (accts', output)) :
    ∀ k, Traced sha k (accts'.kvs k).unpaid := by
  cases op with
  | create addr type blocknum blocktimestamp =>
    obtain ⟨⟨k, key⟩, _, hstep⟩ := Option.bind_eq_some_iff.mp hstep
    dsimp only at hstep
    cases hfind : accts777Find accts k key with
    | none =>
      rw [hfind] at hstep
      cases hstep
      refine write_traced h rfl fun item hitem => ?_
      rw [Option.map_eq_none_iff.mp hfind] at hitem
      cases hitem
    | some A =>
      rw [hfind] at hstep
      dsimp only at hstep
      split at hstep <;> cases hstep <;> exact h
  | pay addr type value =>
    obtain ⟨⟨k, key⟩, _, hstep⟩ := Option.bind_eq_some_iff.mp hstep
    obtain ⟨A, _, hstep⟩ := Option.bind_eq_some_iff.mp hstep
    cases hstep
    have hsame : ∀ items : List Item, (items.map fun item =>
        if item.key = key then { item with value := item.value.credit value } else item).map Item.unpaid = items.map Item.unpaid := by
      intro items
      rw [List.map_map]
      refine List.map_congr_left fun item _ => ?_
      rw [Function.comp_apply]
      split
      · rw [Item.unpaid, Item.unpaid, unpaid_credit]
      · rfl
    refine setKv_traced h ?_
    rw [Ramkv.unpaid, hsame]
    exact h k
  | prices blocknum feed =>
    cases hstep
    exact write_traced h rfl hplain
  | addunit U lockhash =>
    cases hstep
    exact h
  | delete i =>
    simp only [stepAccts, peggyDelete] at hstep
    split at hstep
    · obtain ⟨last, _, hlast⟩ := Option.map_eq_some_iff.mp hstep
      cases hlast
      exact h
    · cases hstep
  | payment coinaddr value =>
    simp only [stepAccts, opreturnsQueuePayment] at hstep
    split at hstep
    · cases hstep
    · split at hstep
      · split at hstep <;> cases hstep <;> exact h
      · cases hstep
        exact h
  | payments max =>
    simp only [stepAccts, peggyPayments] at hstep
    split at hstep
    · cases hstep
      exact h
    · split at hstep
      · cases hstep
      · split at hstep
        · cases hstep
          exact h
        · cases hstep

theorem step_traced {acct777Lockhash : BitVec 256 → BitVec 16 → BitVec 8 → BitVec 256} {w next : PeggyInfo × Shared} {op : Op}
    {output : Output} (h : ∀ k, Traced sha k (w.1.accts.kvs k).unpaid) (hplain : Plain w.1.accts op)
    (hstep : step sha acct777Lockhash w op = some (next, output)) : ∀ k, Traced sha k (next.1.accts.kvs k).unpaid := by
  cases op with
  | accts op =>
    obtain ⟨⟨accts, output'⟩, haccts, heq⟩ := Option.map_eq_some_iff.mp hstep
    cases heq
    exact stepAccts_traced h hplain haccts
  | bank op =>
    cases hstep
    exact h
  | tune actionflag tx =>
    obtain ⟨⟨s, txind⟩, _, heq⟩ := Option.map_eq_some_iff.mp hstep
    cases heq
    exact h

end Traced

theorem queueClone_some {queue clone : Queue} (h : queueClone queue = some clone) : queue = ⟨[], false⟩ ∧ clone = ⟨[], false⟩ := by
  rw [queueClone] at h
  split at h
  case isTrue => cases h
  case isFalse hfree =>
    cases h
    rw [not_or, not_not, Bool.not_eq_true] at hfree
    obtain ⟨list, locked⟩ := queue
    obtain ⟨rfl, rfl⟩ := hfree
    exact ⟨rfl, rfl⟩

section Same
variable {sha : Sha} {acct777Lockhash : BitVec 256 → BitVec 16 → BitVec 8 → BitVec 256} {accts accts' : Accts}
  {PEGS PEGS' : PeggyInfo} {w w' : PeggyInfo × Shared}

/-- Two states of the accounts that differ only behind the units in use. -/
structure Same (accts accts' : Accts) : Prop where
  paymentsQ : accts'.paymentsQ = accts.paymentsQ
  numunits : accts'.numunits = accts.numunits
  units : accts'.units.take accts.numunits = accts.units.take accts.numunits
  kvs : accts'.kvs = accts.kvs
  peggyhash : accts'.peggyhash = accts.peggyhash

theorem Same.setKv (h : Same accts accts') (k : Kv) (kv : Ramkv) : Same (accts.setKv k kv) (accts'.setKv k kv) :=
  ⟨h.paymentsQ, h.numunits, h.units, congrArg (fun kvs : Kv → Ramkv => Function.update kvs k kv) h.kvs, h.peggyhash⟩

/-- The states and the outputs of two operations agree. -/
def SameOut (r r' : Accts × Output) : Prop := Same r.1 r'.1 ∧ r'.2 = r.2

private theorem Same.getElem? (h : Same accts accts') {i : Nat} (hi : i < accts.numunits) : accts'.units[i]? = accts.units[i]? := by
  have hget := congrArg (fun units : List PeggyUnit => units[i]?) h.units
  rwa [List.getElem?_take_of_lt hi, List.getElem?_take_of_lt hi] at hget

theorem Same.find (h : Same accts accts') (k : Kv) (key : List UInt8) :
    accts777Find accts' k key = accts777Find accts k key := by
  rw [accts777Find, accts777Find, h.kvs]

theorem Same.create (h : Same accts accts') (addr : PeggyAddr) (type : BitVec 8) (blocknum blocktimestamp : Nat) :
    Option.Rel SameOut (accts777Create sha accts addr type blocknum blocktimestamp)
      (accts777Create sha accts' addr type blocknum blocktimestamp) := by
  rw [accts777Create, accts777Create]
  cases addrKey addr type with
  | none => exact .none
  | some found =>
    obtain ⟨k, key⟩ := found
    simp only [Option.bind_eq_bind, Option.bind_some, h.find]
    cases accts777Find accts k key with
    | none =>
      refine .some ⟨?_, rfl⟩
      rw [h.kvs]
      exact h.setKv _ _
    | some A =>
      dsimp only
      split
      · exact .some ⟨h, rfl⟩
      · exact .some ⟨h, rfl⟩

theorem Same.pay (h : Same accts accts') (addr : PeggyAddr) (type : BitVec 8) (value : Int) :
    Option.Rel SameOut (acct777Pay accts addr type value) (acct777Pay accts' addr type value) := by
  rw [acct777Pay, acct777Pay]
  cases addrKey addr type with
  | none => exact .none
  | some found =>
    obtain ⟨k, key⟩ := found
    simp only [Option.bind_eq_bind, Option.bind_some, h.find]
    cases accts777Find accts k key with
    | none => exact .none
    | some A =>
      refine .some ⟨?_, rfl⟩
      rw [h.kvs]
      exact h.setKv _ _

theorem Same.addunit (h : Same accts accts') (U : PeggyUnit) (lockhash : BitVec 256) :
    SameOut (peggyAddunit accts U lockhash) (peggyAddunit accts' U lockhash) := by
  have hunits : accts'.units.take accts'.numunits = accts.units.take accts.numunits := by rw [h.numunits, h.units]
  refine ⟨⟨h.paymentsQ, ?_, ?_, h.kvs, h.peggyhash⟩, ?_⟩
  · rw [peggyAddunit, peggyAddunit, h.numunits]
  · rw [peggyAddunit, peggyAddunit, hunits]
  · rw [peggyAddunit, peggyAddunit, h.numunits]

theorem Same.delete (h : Same accts accts') (i : Nat) : Option.Rel SameOut (peggyDelete accts i) (peggyDelete accts' i) := by
  rw [peggyDelete, peggyDelete, h.numunits]
  by_cases hi : i < accts.numunits
  · rw [if_pos hi, if_pos hi, h.getElem? (by omega)]
    cases accts.units[accts.numunits - 1]? with
    | none => exact .none
    | some last =>
      refine .some ⟨⟨h.paymentsQ, rfl, ?_, h.kvs, h.peggyhash⟩, rfl⟩
      have hset : (accts'.units.set i last).take accts.numunits = (accts.units.set i last).take accts.numunits := by
        rw [List.take_set, List.take_set, h.units]
      have htake := congrArg (List.take (accts.numunits - 1)) hset
      rwa [List.take_take, List.take_take, min_eq_left (Nat.sub_le _ _)] at htake
  · rw [if_neg hi, if_neg hi]
    exact .none

theorem Same.payment (h : Same accts accts') (coinaddr : PeggyAddr) (value : Int) :
    Option.Rel SameOut (opreturnsQueuePayment accts coinaddr value) (opreturnsQueuePayment accts' coinaddr value) := by
  have hqueue : ∀ queue : Queue, Same { accts with paymentsQ := queue } { accts' with paymentsQ := queue } := fun queue =>
    ⟨rfl, h.numunits, h.units, h.kvs, h.peggyhash⟩
  rw [opreturnsQueuePayment, opreturnsQueuePayment, h.paymentsQ]
  split
  · exact .none
  · split
    · cases accts.paymentsQ.list with
      | nil => exact .some ⟨h, rfl⟩
      | cons first list => exact .some ⟨hqueue _, rfl⟩
    · exact .some ⟨hqueue _, rfl⟩

theorem Same.payments (h : Same accts accts') (max : Nat) :
    Option.Rel SameOut (peggyPayments accts max) (peggyPayments accts' max) := by
  rw [peggyPayments, peggyPayments, h.paymentsQ]
  split
  · exact .some ⟨h, rfl⟩
  · split
    · exact .none
    · dsimp only
      split
      · exact .some ⟨⟨rfl, h.numunits, h.units, h.kvs, h.peggyhash⟩, rfl⟩
      · exact .none

theorem Same.stepAccts (h : Same accts accts') (op : AcctsOp) : Option.Rel SameOut (stepAccts sha accts op) (stepAccts sha accts' op) := by
  cases op with
  | create addr type blocknum blocktimestamp => exact h.create addr type blocknum blocktimestamp
  | pay addr type value => exact h.pay addr type value
  | prices blocknum feed =>
    refine .some ⟨?_, rfl⟩
    rw [peggyCreatePrices, peggyCreatePrices, h.kvs]
    exact h.setKv _ _
  | addunit U lockhash => exact .some (h.addunit U lockhash)
  | delete i => exact h.delete i
  | payment coinaddr value => exact h.payment coinaddr value
  | payments max => exact h.payments max

/-- Two peggy states and their memory that differ only there. -/
structure Alike (w w' : PeggyInfo × Shared) : Prop where
  accts : Same w.1.accts w'.1.accts
  fields : w'.1.fields = w.1.fields
  mem : w'.2 = w.2

theorem Alike.bankOf (h : Alike w w') : bankOf w'.1 w'.2 = bankOf w.1 w.2 := by
  have haddr : ∀ mem, acctsOf w'.1.accts mem = acctsOf w.1.accts mem := by
    intro mem
    rw [acctsOf, acctsOf, h.accts.paymentsQ, h.accts.numunits, h.accts.units, h.accts.peggyhash, h.accts.kvs]
    simp only [h.accts.find]
  rw [PeggyClone.bankOf, PeggyClone.bankOf, h.fields, h.mem, haddr]

theorem Alike.store (h : Alike w w') (s : Peggy777.PeggyInfo) : Alike (store w.1 s) (store w'.1 s) where
  accts := ⟨h.accts.paymentsQ, rfl, rfl, h.accts.kvs, h.accts.peggyhash⟩
  fields := by rw [PeggyClone.store, PeggyClone.store, h.fields]
  mem := rfl

/-- Such states stay so, and an operation returns the same in both. -/
theorem Alike.step (h : Alike w w') (op : Op) : Option.Rel (fun r r' => Alike r.1 r'.1 ∧ r'.2 = r.2)
    (step sha acct777Lockhash w op) (step sha acct777Lockhash w' op) := by
  cases op with
  | accts op =>
    rw [PeggyClone.step, PeggyClone.step]
    have hstep : Option.Rel SameOut (PeggyClone.stepAccts sha w.1.accts op) (PeggyClone.stepAccts sha w'.1.accts op) :=
      h.accts.stepAccts op
    generalize PeggyClone.stepAccts sha w.1.accts op = r at hstep
    generalize PeggyClone.stepAccts sha w'.1.accts op = r' at hstep
    cases hstep with
    | none => exact .none
    | some hout => exact .some ⟨⟨hout.1, h.fields, h.mem⟩, hout.2⟩
  | bank op =>
    refine .some ⟨?_, ?_⟩
    · rw [h.bankOf]
      exact h.store _
    · rw [h.bankOf]
  | tune actionflag tx =>
    rw [PeggyClone.step, PeggyClone.step, h.bankOf]
    cases Peggy777.peggyTxindTune tuners (PeggyClone.bankOf w.1 w.2) actionflag tx with
    | none => exact .none
    | some r => exact .some ⟨h.store r.1, rfl⟩

theorem Alike.view (h : Alike w w') : view w = view w' := by
  rw [PeggyClone.view, PeggyClone.view, h.bankOf, h.accts.numunits, h.accts.units, h.accts.kvs, h.accts.paymentsQ]

private theorem run_view (op : Op) (ops : List Op) :
    (run sha acct777Lockhash w (op :: ops)).map (fun (w, outputs) => (view w, outputs)) =
      (step sha acct777Lockhash w op).bind fun r =>
        ((run sha acct777Lockhash r.1 ops).map fun (w, outputs) => (PeggyClone.view w, outputs)).map
          fun (v, outputs) => (v, r.2 :: outputs) := by
  rw [run]
  cases step sha acct777Lockhash w op with
  | none => rfl
  | some r =>
    change Option.map _ ((run sha acct777Lockhash r.1 ops).bind _) = _
    rw [Option.bind_some]
    cases run sha acct777Lockhash r.1 ops <;> rfl

/-- Two states that differ only behind the units in use are not told apart. -/
theorem Alike.indistinguishable (h : Alike w w') : Indistinguishable sha acct777Lockhash w w' := by
  intro ops
  induction ops generalizing w w' with
  | nil => exact congrArg (fun v => some (v, [])) h.view
  | cons op ops ih =>
    have hstep : Option.Rel (fun r r' => Alike r.1 r'.1 ∧ r'.2 = r.2) (PeggyClone.step sha acct777Lockhash w op)
        (PeggyClone.step sha acct777Lockhash w' op) := h.step op
    rw [run_view, run_view]
    generalize PeggyClone.step sha acct777Lockhash w op = r at hstep
    generalize PeggyClone.step sha acct777Lockhash w' op = r' at hstep
    cases hstep with
    | none => rfl
    | some hout => rw [Option.bind_some, Option.bind_some, ih hout.1, hout.2]

end Same

section Clone
variable {sha : Sha} {acct777Lockhash : BitVec 256 → BitVec 16 → BitVec 8 → BitVec 256} {w : PeggyInfo × Shared}

private theorem traced_run {ops : List Op} {outputs : List Output} {start : PeggyInfo × Shared}
    (h : ∀ k, Traced sha k (start.1.accts.kvs k).unpaid) (hplain : PlainRun sha acct777Lockhash start ops)
    (hrun : run sha acct777Lockhash start ops = some (w, outputs)) : ∀ k, Traced sha k (w.1.accts.kvs k).unpaid := by
  induction ops generalizing start outputs with
  | nil =>
    cases hrun
    exact h
  | cons op ops ih =>
    obtain ⟨⟨next, output⟩, hstep, hrun⟩ := Option.bind_eq_some_iff.mp hrun
    obtain ⟨⟨last, rest⟩, hrest, hlast⟩ := Option.bind_eq_some_iff.mp hrun
    cases hlast
    obtain ⟨hop, hnext⟩ := hplain
    exact ih (step_traced h hop hstep) (hnext next output hstep) hrest

private theorem step_numpegs {next : PeggyInfo × Shared} {op : Op} {output : Output}
    (hstep : step sha acct777Lockhash w op = some (next, output)) : next.1.fields.numpegs = w.1.fields.numpegs := by
  cases op with
  | accts op =>
    obtain ⟨r, _, heq⟩ := Option.map_eq_some_iff.mp hstep
    cases heq
    rfl
  | bank op =>
    cases hstep
    rfl
  | tune actionflag tx =>
    obtain ⟨r, _, heq⟩ := Option.map_eq_some_iff.mp hstep
    cases heq
    rfl

theorem run_numpegs {ops : List Op} {outputs : List Output} {start : PeggyInfo × Shared}
    (hrun : run sha acct777Lockhash start ops = some (w, outputs)) : w.1.fields.numpegs = start.1.fields.numpegs := by
  induction ops generalizing start outputs with
  | nil =>
    cases hrun
    rfl
  | cons op ops ih =>
    obtain ⟨⟨next, output⟩, hstep, hrun⟩ := Option.bind_eq_some_iff.mp hrun
    obtain ⟨⟨last, rest⟩, hrest, hlast⟩ := Option.bind_eq_some_iff.mp hrun
    cases hlast
    exact (ih hrest).trans (step_numpegs hstep)

/-- The tuning in which the first of the `tuners` enables the first contract, or disables it with 0. -/
def enableTx (val : BitVec 64) : PeggyTx :=
  { (default : PeggyTx) with
    numdetails := 1, details := { (default : TxDetails) with tune := [⟨0, 0, val, 0⟩] }
    sigs := [{ (default : AcctSig) with signer64bits := tuners.headD 0 }] }

private theorem enable_signed (val : BitVec 64) :
    Peggy777.peggyOnesigner (enableTx val) ≠ 0 ∧ Peggy777.peggyOnesigner (enableTx val) ∈ tuners := by
  have htuner : tuners.headD 0 ≠ 0 ∧ tuners.headD 0 ∈ tuners := by decide +kernel
  have hsigner : Peggy777.peggyOnesigner (enableTx val) = tuners.headD 0 := if_pos ⟨htuner.1, rfl⟩
  rwa [hsigner]

theorem enable_tunes (s : Peggy777.PeggyInfo) (hpegs : 0 < s.numpegs) (val : BitVec 64) :
    ∃ t r, Peggy777.peggyTxindTune tuners s 1 (enableTx val) = some (t, r) ∧ (t.contracts 0).enabled = signed 8 val.toNat := by
  have hsigned : ¬ ((enableTx val).numoutputs ≠ 0 ∨ (enableTx val).numinputs ≠ 0 ∨
      Peggy777.peggyOnesigner (enableTx val) = 0 ∨ Peggy777.peggyOnesigner (enableTx val) ∉ tuners) := by
    obtain ⟨hsigner, htuner⟩ := enable_signed val
    rintro (h | h | h | h)
    · exact h rfl
    · exact h rfl
    · exact hsigner h
    · exact h htuner
  have hused : used (enableTx val).numdetails.toNat (enableTx val).details.tune = [⟨0, 0, val, 0⟩] := rfl
  have hpeg : Peggy777.peggyPegstr s 0 = 0 := by
    have hname : Peggy777.peggyAssetbits ((leBytes 15 (0 : BitVec 120).toNat).takeWhile (· ≠ 0)) = 0 := by decide
    rw [Peggy777.peggyPegstr, hname, Peggy777.peggyFindpair, if_pos rfl, Option.getD_none]
  rw [Peggy777.peggyTxindTune, if_neg hsigned, hused]
  dsimp only [List.headD_cons]
  rw [Peggy777.tuneEntries]
  dsimp only
  have hfirst : ∀ PEG, (Peggy777.tunefuncs PEG val 0)[0]? = some { PEG with enabled := signed 8 val.toNat } := fun _ => rfl
  rw [hpeg, if_neg (by omega), if_neg (by decide), if_neg (by decide), if_neg (by decide), hfirst]
  simp only [Option.bind_eq_bind, Option.bind_some, Peggy777.tuneEntries, List.length_singleton, if_neg Nat.one_ne_zero]
  refine ⟨_, _, congrArg some Prod.mk.eta.symm, ?_⟩
  have hcontracts : ∀ (s : Peggy777.PeggyInfo) len, (Peggy777.txind777Create s len).1.contracts = s.contracts := by
    intro s len
    rw [Peggy777.txind777Create]
    split <;> rfl
  rw [Peggy777.txind777Bundle, hcontracts, hcontracts]
  dsimp only
  rw [Function.update_self]

/-- A tuning of the original is one of its clone. -/
theorem not_cloned (hpegs : 0 < w.1.fields.numpegs) : ¬ Cloned sha acct777Lockhash w := by
  rintro ⟨clone, _, hsame⟩
  obtain ⟨val, hval⟩ : ∃ val : BitVec 64, signed 8 val.toNat ≠ (w.2.contracts 0).enabled := by
    by_cases hzero : (w.2.contracts 0).enabled = 0
    · exact ⟨1, fun h => absurd (h.trans hzero) (by decide)⟩
    · have hoff : signed 8 (0 : BitVec 64).toNat = 0 := by decide
      exact ⟨0, fun h => hzero (h.symm.trans hoff)⟩
  obtain ⟨t, r, htune, henabled⟩ := enable_tunes (bankOf w.1 w.2) hpegs val
  have hrun : run sha acct777Lockhash w [.tune 1 (enableTx val)] = some (store w.1 t, [.code r]) := by
    rw [run, step, htune]
    rfl
  have hview := congrArg (Option.map fun r : View × List Output => (r.1.bank.contracts 0).enabled) (hsame _ _ _ hrun [])
  have hshared : (w.2.contracts 0).enabled = (t.contracts 0).enabled := Option.some.inj hview
  exact hval (henabled.symm.trans hshared.symm)

/-- The clone of a state whose tables are rebuilt as they are. -/
theorem alike_clone {clone : PeggyInfo} (h : ∀ k, Traced sha k (w.1.accts.kvs k)) (hunits : w.1.accts.numunits = 0)
    (hclone : peggyClone sha w.1 = some clone) : Alike w (clone, w.2) := by
  obtain ⟨accts, haccts, rfl⟩ := Option.map_eq_some_iff.mp hclone
  obtain ⟨paymentsQ, hqueue, rfl⟩ := Option.map_eq_some_iff.mp haccts
  refine ⟨⟨?_, hunits.symm, ?_, funext h, rfl⟩, rfl, rfl⟩
  · obtain ⟨hempty, rfl⟩ := queueClone_some hqueue
    exact hempty.symm
  · rw [hunits, List.take_zero, List.take_zero]

theorem not_clonedAlone_of_units (h : w.1.accts.numunits ≠ 0) : ¬ ClonedAlone sha acct777Lockhash w := by
  rintro ⟨clone, hclone, hsame⟩
  obtain ⟨accts, haccts, rfl⟩ := Option.map_eq_some_iff.mp hclone
  obtain ⟨paymentsQ, _, rfl⟩ := Option.map_eq_some_iff.mp haccts
  have hview := congrArg (Option.map fun r : View × List Output => r.1.numunits) (hsame [])
  exact h (Option.some.inj hview)

def Unpaid (accts : Accts) : Prop := ∀ k, ∀ item ∈ (accts.kvs k).items, item.value.account.balance = 0

private theorem unpaid_eq {accts : Accts} (h : Unpaid accts) (k : Kv) : (accts.kvs k).unpaid = accts.kvs k := by
  have hitems : (accts.kvs k).items.map Item.unpaid = (accts.kvs k).items := by
    refine (List.map_congr_left fun item hitem => ?_).trans (List.map_id _)
    have hzero := h k item hitem
    obtain ⟨key, value, rawind⟩ := item
    cases value with
    | acct A =>
      have hbalance : A.balance = 0 := hzero
      rw [Item.unpaid, Value.unpaid, ← hbalance]
      rfl
    | feed prices => rfl
  rw [Ramkv.unpaid, hitems]

/-- After a run that writes no feed over another, and with no balance on any account, a clone whose original is left
alone is the state exactly when no unit is in use and no payment is queued. -/
theorem clonedAlone_iff {ops : List Op} {outputs : List Output} {fields : PeggyFields} {mem : Shared}
    (hplain : PlainRun sha acct777Lockhash (start sha fields mem) ops)
    (hrun : run sha acct777Lockhash (start sha fields mem) ops = some (w, outputs)) (hunpaid : Unpaid w.1.accts) :
    ClonedAlone sha acct777Lockhash w ↔ w.1.accts.numunits = 0 ∧ w.1.accts.paymentsQ = ⟨[], false⟩ := by
  have htraced : ∀ k, Traced sha k (w.1.accts.kvs k) := by
    intro k
    have hk := traced_run (fun k => traced_init sha k) hplain hrun k
    rwa [unpaid_eq hunpaid k] at hk
  constructor
  · intro h
    refine ⟨?_, ?_⟩
    · by_contra hunits
      exact not_clonedAlone_of_units hunits h
    · obtain ⟨clone, hclone, _⟩ := h
      obtain ⟨accts, haccts, _⟩ := Option.map_eq_some_iff.mp hclone
      obtain ⟨paymentsQ, hqueue, _⟩ := Option.map_eq_some_iff.mp haccts
      exact (queueClone_some hqueue).1
  · rintro ⟨hunits, hqueue⟩
    have hclone : ∃ clone, peggyClone sha w.1 = some clone := by
      rw [peggyClone, accts777Clone, hqueue]
      exact ⟨_, rfl⟩
    obtain ⟨clone, hclone⟩ := hclone
    exact ⟨clone, hclone, (alike_clone htraced hunits hclone).indistinguishable⟩

/-- The contracts of a clone are those of its original, so that it is never a state of its own. -/
theorem clone_shared {ops : List Op} {outputs : List Output} {fields : PeggyFields} {mem : Shared} (hpegs : 0 < fields.numpegs)
    (hrun : run sha acct777Lockhash (start sha fields mem) ops = some (w, outputs)) :
    ¬ Cloned sha acct777Lockhash w ∧
    (PlainRun sha acct777Lockhash (start sha fields mem) ops → Unpaid w.1.accts →
      (ClonedAlone sha acct777Lockhash w ↔ w.1.accts.numunits = 0 ∧ w.1.accts.paymentsQ = ⟨[], false⟩)) := by
  have hkept : 0 < w.1.fields.numpegs := by
    rw [run_numpegs hrun]
    exact hpegs
  exact ⟨not_cloned hkept, fun hplain hunpaid => clonedAlone_iff hplain hrun hunpaid⟩

end Clone

/-- A hash that keeps its first state. -/
def stillSha : Sha := ⟨fun state _ => state, fun md => md.buf.take 32⟩

/-- A bank with a contract for BTCD and its memory. -/
def sampleStart : PeggyInfo × Shared :=
  start stillSha ⟨default, fun _ => default, 40, 10, 2, 5, 2, 1⟩ ⟨fun _ => { (default : Peggy777.PeggyContract) with enabled := 1 }, 0⟩

def sampleLockhash : BitVec 256 → BitVec 16 → BitVec 8 → BitVec 256 := fun privkey _ _ => privkey

/-- An account and the prices of a block. -/
def openOps : List Op := [.accts (.create default 2 7 1438300000), .accts (.prices 7 ⟨[100, 250], by decide⟩)]

theorem openOps_shared : ∃ w outputs, run stillSha sampleLockhash sampleStart openOps = some (w, outputs) ∧
    ¬ Cloned stillSha sampleLockhash w ∧ ClonedAlone stillSha sampleLockhash w := by
  have hplain : PlainRun stillSha sampleLockhash sampleStart openOps := by
    refine ⟨trivial, fun next output hstep => ⟨fun item hitem => ?_, fun _ _ _ => trivial⟩⟩
    cases hstep
    cases hitem
  obtain ⟨hcloned, halone⟩ := clone_shared Nat.zero_lt_one
    (show run stillSha sampleLockhash sampleStart openOps = some (_, _) from rfl)
  refine ⟨_, _, rfl, hcloned, (halone hplain ?_).mpr ⟨rfl, rfl⟩⟩
  intro k
  cases k <;> decide

/-- A unit that is locked. -/
def unitOps : List Op := [.accts (.addunit ⟨0, 0, 1000000, 0, 1438300000, 0, 0, 1, default, 0⟩ 5)]

theorem unitOps_lost : ∃ w outputs, run stillSha sampleLockhash sampleStart unitOps = some (w, outputs) ∧
    ¬ Cloned stillSha sampleLockhash w ∧ ¬ ClonedAlone stillSha sampleLockhash w :=
  ⟨_, _, rfl, not_cloned Nat.zero_lt_one, not_clonedAlone_of_units Nat.one_ne_zero⟩

end SuperNet.Peggy.PeggyClone
