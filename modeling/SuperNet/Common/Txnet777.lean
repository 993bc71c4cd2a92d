import SuperNet.Lib.Words
import SuperNet.Utils.SaM

/-! The transactions of txnet777.c: their signatures, the weights of their approvals and what a node
does with a transaction that comes in. Queues, printing and the accounts table are left out. What saves a
transaction gives `none` where `kv777_write` copies -1 bytes or frees a key that is in the table. -/
namespace SuperNet.Common.Txnet777
open SuperNet.Lib.Bytes SuperNet.Lib.Words SuperNet.Utils.SaM

/-- A `bits384`. -/
abbrev Bits384 := List UInt8

/-- The `txid` word of a `bits384`. -/
def Bits384.txid (bits : Bits384) : Nat := leValue (bits.take 8)

/-- `sizeof(struct txnet777_header)`: two words and the signature. -/
def HEADERSIZE : Nat := 64

/-- The bytes of a `struct txnet777_tx` before its outputs, and of an output. -/
def INPUTEND : Nat := 280
def OUTPUTSIZE : Nat := 32

/-- `struct txnet777_tx`, as far as it is read here. `refs` holds the `reftxids` with their
`refstamps`; `body` is the memory behind the header, also beyond the end of the transaction. -/
structure Tx where
  wtsum : Nat
  sent : Nat
  numrefs : Nat
  sig : Bits384
  nonce : Nat
  refs : Fin 3 → Nat × Nat
  prevtxid : Nat
  prevprivkey : Bits384
  senderbits : Nat
  timestamp : UInt32
  allocsize : Nat
  numoutputs : UInt16
  leverage : Nat
  body : Nat → UInt8

abbrev Tx.txid (tx : Tx) : Nat := Bits384.txid tx.sig

def Tx.bodysize (tx : Tx) : Nat := tx.allocsize - HEADERSIZE

/-- `txnet777_size`, `none` for -1. -/
def Tx.size (tx : Tx) : Option Nat :=
  let size := INPUTEND + tx.numoutputs.toNat * OUTPUTSIZE
  if tx.allocsize = 0 then some size
  else if tx.allocsize ≤ size ∧ tx.allocsize ≤ 0x10000000 then some tx.allocsize
  else none

/-- What the table holds of a transaction: the header and the body. -/
def Tx.bytes (tx : Tx) : List UInt8 :=
  leBytes 8 tx.wtsum ++ leBytes 4 tx.sent ++ leBytes 4 tx.numrefs ++ tx.sig ++ (List.range tx.bodysize).map tx.body

/-- What a node has besides its tables: the result of `txnet777_nonce` on a body, the check of the
application, the settings, and the memory that the tables and the stack happen to use. -/
structure Env where
  nonce : (Nat → UInt8) → Nat → Nat
  validatetx : Tx → Bool
  txExpiration : Nat
  futuregap : Nat
  pastgap : Nat
  heap : Bits384 → Nat → UInt8
  stack : Nat → UInt8

/-- The tables of a node: the transactions under their signatures, the signatures under their txids,
and the approving txids under a txid and a number. -/
structure Txnet where
  txs : List Tx
  index : Nat → Option Bits384
  approvals : Nat × Nat → Option Nat

def leverageToWt (leverage : Nat) : Nat := if leverage < 32 then 3^(leverage + 1) else 0

def txclear (tx : Tx) : Tx := { tx with wtsum := leverageToWt tx.leverage, sent := 0, numrefs := 0 }

namespace Txnet

def lookup (net : Txnet) (sig : Bits384) : Option Tx := net.txs.find? fun tx => tx.sig = sig

/-- The transaction with a txid. Without a txid the search is for a signature that was never set,
which is taken not to be there. -/
def txid (net : Txnet) (txid : Nat) : Option Tx :=
  if txid = 0 then none else (net.index txid).bind net.lookup

/-- A transaction takes the place of one with the same signature. -/
def store (net : Txnet) (tx : Tx) : Txnet :=
  { net with txs := if net.txs.any fun x => x.sig = tx.sig then net.txs.map fun x => if x.sig = tx.sig then tx else x
    else net.txs ++ [tx] }

/-- The copy that is stored of `size` bytes. -/
def copied (env : Env) (tx : Tx) (size : Nat) : Tx :=
  { tx with body := fun k => if k < size - HEADERSIZE then tx.body k else env.heap tx.sig k }

/-- `txnet777_savetx`: the tables, with a copy of the transaction as it is, and the transaction, which
is cleared after that. The fields of a copy that ends before its outputs are read behind it, and a copy of
another size frees the memory in which the table has the key. -/
def savetx (env : Env) (net : Txnet) (tx : Tx) : Option (Txnet × Tx) :=
  match tx.size with
  | none => none
  | some size =>
    if size < INPUTEND ∨ ∃ x ∈ net.txs, x.sig = tx.sig ∧ x.size ≠ some size then none
    else
      some ({ net.store (copied env tx size) with index := Function.update net.index tx.txid (some tx.sig) }, txclear tx)

/-- The approving txid under a number, 0 if there is none. -/
def reftxid (net : Txnet) (txid ind : Nat) : Nat := (net.approvals (txid, ind)).getD 0

/-- `txnet777_wtadd` on a transaction in the table. -/
def wtadd (sendflag : Nat) (net : Txnet) (tx : Tx) (reftxid leverage : Nat) : Txnet :=
  if ∃ i < tx.numrefs, net.reftxid tx.txid i = reftxid then net.store { tx with sent := u32 (tx.sent + sendflag : Nat) }
  else
    let net' := net.store { tx with
      sent := u32 (tx.sent + sendflag : Nat)
      wtsum := u64 (tx.wtsum + leverageToWt leverage : Nat)
      numrefs := u32 (tx.numrefs + 1 : Nat) }
    if reftxid = 0 then net'
    else { net' with approvals := Function.update net.approvals (tx.txid, tx.numrefs) (some reftxid) }

end Txnet

/-- The comparison of `txnet777_checksig`. -/
def checksig (env : Env) (tx : Tx) (privkey : Bits384) : Bool :=
  saMEncrypt env.stack tx.body tx.bodysize privkey tx.timestamp = tx.sig

namespace Txnet

/-- One reference of a transaction that has come in. -/
def approve (tx : Tx) (net : Txnet) (i : Fin 3) : Txnet :=
  match net.txid (tx.refs i).1 with
  | some reftx => if reftx.timestamp.toNat = (tx.refs i).2 then net.wtadd 0 reftx tx.txid tx.leverage else net
  | none => net

/-- The previous transaction of the sender, whose key has been disclosed. It is the copy in the table
that is saved and cleared. -/
def confirmPrev (env : Env) (updateflag : Bool) (net : Txnet) (tx : Tx) : Option Txnet :=
  match net.txid tx.prevtxid with
  | some prevtx =>
    if prevtx.senderbits = tx.senderbits ∧ checksig env prevtx tx.prevprivkey then
      if updateflag then do
        let (net, prevtx) ← net.savetx env prevtx
        some ((net.store prevtx).wtadd 0 prevtx tx.txid tx.leverage)
      else some (net.wtadd 0 prevtx tx.txid tx.leverage)
    else some net
  | none => some net

/-- What `txnet777_processtx` asks of a transaction; `txnet777_verifykey` accepts every key. -/
def accepts (env : Env) (tx : Tx) (len : Nat) : Bool :=
  (tx.allocsize = len ∧ env.nonce tx.body tx.allocsize = tx.nonce) ∧ env.txExpiration ≤ tx.timestamp.toNat ∧
    env.validatetx tx

def processtx (env : Env) (updateflag : Bool) (net : Txnet) (tx : Tx) (len : Nat) : Option Txnet :=
  if accepts env tx len then do
    let (net, tx) ← net.savetx env tx
    ((List.finRange 3).foldl (approve tx) net).confirmPrev env updateflag tx
  else some net

/-- The tests of `txnet777_incoming` before it saves a transaction. -/
def admits (env : Env) (rtflag : Bool) (now : Nat) (tx : Tx) (recvlen : Nat) : Bool :=
  ¬ (rtflag ∧ (u32 (now + env.futuregap : Nat) < tx.timestamp.toNat ∨
      tx.timestamp.toNat < u32 ((now : Int) - env.pastgap))) ∧
    recvlen = tx.allocsize ∧ env.nonce tx.body tx.allocsize ≠ 0

/-- `txnet777_incoming` of a transaction received with `recvlen` bytes. -/
def incoming (env : Env) (rtflag : Bool) (now : Nat) (net : Txnet) (tx : Tx) (recvlen : Nat) : Option Txnet :=
  if admits env rtflag now tx recvlen then do
    let (net, tx) ← net.savetx env tx
    net.processtx env true tx recvlen
  else some net

end Txnet

end SuperNet.Common.Txnet777
