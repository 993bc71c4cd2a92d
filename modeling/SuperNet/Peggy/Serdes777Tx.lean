import SuperNet.Peggy.Serdes777

/-! Peggy transactions: their records, `serdes777_rwtx`, and the two entry points
`serdes777_serialize` and `serdes777_deserialize`. Characters and hashes are held as the
little-endian number of their bytes. An array of records is the list of its leading entries;
the ones after these are zero, which is what `default` is for every record. -/
namespace SuperNet.Peggy.Serdes777
open Lib.Words Lib.Bytes Lib.BitCodec Utils.Huffstream

structure PeggyLock where
  peg : BitVec 16
  denom : BitVec 16
  minlockdays : BitVec 16
  maxlockdays : BitVec 16
  clonesmear : BitVec 16
  mixrange : BitVec 16
  redemptiongapdays : BitVec 16
  extralockdays : BitVec 8
  margin : BitVec 8
  deriving DecidableEq, Inhabited

/-- `union peggy_addr` as its member `newunit`, which spans all 48 bytes. -/
structure PeggyAddr where
  sha256 : BitVec 256
  newlock : PeggyLock
  deriving DecidableEq, Inhabited

/-- The member `SaMbits`: the same 48 bytes, field after field. -/
def PeggyAddr.saMbits (addr : PeggyAddr) : List (Size × Nat) :=
  [(.raw 32, addr.sha256.toNat), (.raw 2, addr.newlock.peg.toNat), (.raw 2, addr.newlock.denom.toNat),
    (.raw 2, addr.newlock.minlockdays.toNat), (.raw 2, addr.newlock.maxlockdays.toNat),
    (.raw 2, addr.newlock.clonesmear.toNat), (.raw 2, addr.newlock.mixrange.toNat),
    (.raw 2, addr.newlock.redemptiongapdays.toNat), (.raw 1, addr.newlock.extralockdays.toNat),
    (.raw 1, addr.newlock.margin.toNat)]

def saMsizes : List Size :=
  [.raw 32, .raw 2, .raw 2, .raw 2, .raw 2, .raw 2, .raw 2, .raw 2, .raw 1, .raw 1]

def PeggyAddr.ofSaM : List Nat → PeggyAddr
  | [sha, peg, denom, minl, maxl, clone, mix, gap, extra, margin] =>
    ⟨BitVec.ofNat 256 sha, ⟨BitVec.ofNat 16 peg, BitVec.ofNat 16 denom, BitVec.ofNat 16 minl, BitVec.ofNat 16 maxl,
      BitVec.ofNat 16 clone, BitVec.ofNat 16 mix, BitVec.ofNat 16 gap, BitVec.ofNat 8 extra, BitVec.ofNat 8 margin⟩⟩
  | _ => default

def PeggyAddr.nxt64bits (addr : PeggyAddr) : BitVec 64 := addr.sha256.setWidth 64

def PeggyAddr.bytes (addr : PeggyAddr) : List UInt8 :=
  addr.saMbits.flatMap fun t => leBytes (t.1.bits / 8) t.2

def PeggyAddr.ofBytes (bs : List UInt8) : PeggyAddr :=
  let part (offset len : Nat) : Nat := leValue ((bs.drop offset).take len)
  .ofSaM [part 0 32, part 32 2, part 34 2, part 36 2, part 38 2, part 40 2, part 42 2, part 44 2, part 46 1, part 47 1]

/-- The address types 0 to 5; `PEGGY_ADDRFUNDING` and all others have no encoding. -/
inductive AddrKind where
  | btcd
  | create
  | nxt
  | unit
  | pubkey
  | sam777
  deriving DecidableEq, Repr

def AddrKind.ofType (type : BitVec 8) : Option AddrKind :=
  match type.toNat with
  | 0 => some .btcd
  | 1 => some .create
  | 2 => some .nxt
  | 3 => some .unit
  | 4 => some .pubkey
  | 5 => some .sam777
  | _ => none

structure PeggyInput where
  type : BitVec 8
  chainlen : BitVec 8
  src : PeggyAddr
  amount : BitVec 64
  deriving DecidableEq, Inhabited

structure PeggyOutput where
  type : BitVec 8
  vin : BitVec 8
  dest : PeggyAddr
  ratio : BitVec 32
  deriving DecidableEq, Inhabited

structure TxPrices where
  num : BitVec 16
  maxlockdays : BitVec 16
  timestamp : BitVec 32
  feed : List (BitVec 32)
  deriving DecidableEq, Inhabited

structure TxBet where
  prediction : BitVec 64
  peg : BitVec 120
  binary : BitVec 8
  deriving DecidableEq, Inhabited

structure TxTune where
  type : BitVec 8
  peg : BitVec 120
  val : BitVec 64
  B : BitVec 64
  deriving DecidableEq, Inhabited

structure TxMicropay where
  claimhash : BitVec 256
  refundhash : BitVec 256
  expiration : BitVec 32
  chainlen : BitVec 8
  vin : BitVec 8
  vout : BitVec 8
  deriving DecidableEq, Inhabited

structure TxDetails where
  price : TxPrices
  bets : List TxBet
  tune : List TxTune
  micropays : List TxMicropay
  deriving DecidableEq, Inhabited

structure AcctSig where
  sigbits : BitVec 256
  pubkey : BitVec 256
  signer64bits : BitVec 64
  timestamp : BitVec 32
  deriving DecidableEq, Inhabited

structure PeggyHdr where
  datalen : BitVec 16
  numinputs : BitVec 8
  numoutputs : BitVec 8
  txtype : BitVec 8
  flags : BitVec 8
  msglen : BitVec 8
  numdetails : BitVec 8
  timestamp : BitVec 32
  activation : BitVec 32
  expiration : BitVec 32
  deriving DecidableEq, Inhabited

/-- `struct peggy_tx` without `data`. The members of the union `details` are kept apart;
`txtype` selects the only one that is used. -/
structure PeggyTx extends PeggyHdr where
  inputs : List PeggyInput
  funding : PeggyInput
  outputs : List PeggyOutput
  details : TxDetails
  hexstr : BitVec 4096
  sigs : List AcctSig
  deriving DecidableEq, Inhabited

inductive TxKind where
  | bet
  | prices
  | tune
  | micropay
  | normal
  deriving DecidableEq, Repr

/-- The cases of the switch in `serdes777_rwdetails`. -/
def PeggyHdr.kind (hdr : PeggyHdr) : TxKind :=
  match hdr.txtype.toNat with
  | 1 => .bet
  | 2 => .prices
  | 3 => .tune
  | 4 => .micropay
  | _ => .normal

def PeggyHdr.hasFunding (hdr : PeggyHdr) : Bool := hdr.flags.getLsbD 0

/-- The first `n` entries of an array of `room` records; entries behind the array cannot be used. -/
def entries {α : Type} [Inhabited α] (room n : Nat) (xs : List α) : Option (List α) :=
  if room < n then none else some ((List.range n).map fun i => xs.getD i default)

/-- One stage after another of a write walk. -/
def Put.items {α : Type} (put : α → Option (List Call)) : List α → Option (List Call)
  | [] => some []
  | x :: xs => do
    let cs ← put x
    let rest ← Put.items put xs
    some (cs ++ rest)

/-- `n` records into an array of `room`, with the sum of their bits. -/
def Get.items {α : Type} (room n : Nat) (get : Rd (α × Nat)) : Rd (List α × Nat) :=
  if room < n then fun _ => none
  else do
    let xs ← times get n
    pure (xs.map Prod.fst, (xs.map Prod.snd).sum)

def locktokens (lock : PeggyLock) : List (Size × Nat) :=
  [(.short, lock.peg.toNat), (.short, lock.denom.toNat), (.short, lock.minlockdays.toNat), (.short, lock.maxlockdays.toNat),
    (.short, lock.clonesmear.toNat), (.short, lock.mixrange.toNat), (.char, lock.margin.toNat)]

def locksizes : List Size := [.short, .short, .short, .short, .short, .short, .char]

/-- The lock that `serdes777_rwlock` reads into cleared memory: its table has neither
`redemptiongapdays` nor `extralockdays`. -/
def lockOf : List Nat → PeggyLock
  | [peg, denom, minl, maxl, clone, mix, margin] =>
    ⟨BitVec.ofNat 16 peg, BitVec.ofNat 16 denom, BitVec.ofNat 16 minl, BitVec.ofNat 16 maxl, BitVec.ofNat 16 clone,
      BitVec.ofNat 16 mix, 0, 0, BitVec.ofNat 8 margin⟩
  | _ => default

def hdrtokens (hdr : PeggyHdr) : List (Size × Nat) :=
  [(.raw 2, hdr.datalen.toNat), (.char, hdr.numinputs.toNat), (.char, hdr.numoutputs.toNat), (.char, hdr.txtype.toNat),
    (.char, hdr.flags.toNat), (.char, hdr.msglen.toNat), (.char, hdr.numdetails.toNat), (.int, hdr.timestamp.toNat),
    (.int, hdr.activation.toNat), (.int, hdr.expiration.toNat)]

def hdrsizes : List Size := [.raw 2, .char, .char, .char, .char, .char, .char, .int, .int, .int]

def hdrOf : List Nat → PeggyHdr
  | [datalen, numinputs, numoutputs, txtype, flags, msglen, numdetails, timestamp, activation, expiration] =>
    ⟨BitVec.ofNat 16 datalen, BitVec.ofNat 8 numinputs, BitVec.ofNat 8 numoutputs, BitVec.ofNat 8 txtype,
      BitVec.ofNat 8 flags, BitVec.ofNat 8 msglen, BitVec.ofNat 8 numdetails, BitVec.ofNat 32 timestamp,
      BitVec.ofNat 32 activation, BitVec.ofNat 32 expiration⟩
  | _ => default

namespace Put

def rwaddr (stack : Stack) (addr : PeggyAddr) (type : BitVec 8) : Option (List Call) :=
  match AddrKind.ofType type with
  | some .btcd => rwstr stack addr.bytes 0
  | some .nxt => rw (.raw 8) addr.nxt64bits.toNat
  | some .create => do
    let sha ← rw (.raw 32) addr.sha256.toNat
    let lock ← codec (locktokens addr.newlock)
    some (sha ++ lock)
  | some .unit | some .pubkey => do
    let sha ← rw (.raw 32) addr.sha256.toNat
    let peg ← rw .short addr.newlock.peg.toNat
    let minlockdays ← rw .short addr.newlock.minlockdays.toNat
    let sam ← codec addr.saMbits
    some (sha ++ (peg ++ (minlockdays ++ sam)))
  | some .sam777 => codec addr.saMbits
  | none => none

/-- `serdes777_rwinout`: inputs end in a 64-bit amount, outputs in a 32-bit ratio. -/
def rwinout (stack : Stack) (type link : BitVec 8) (addr : PeggyAddr) (size : Size) (tail : Nat) : Option (List Call) := do
  let a ← rw .char type.toNat
  let b ← rw .char link.toNat
  let c ← rwaddr stack addr type
  let d ← rw size tail
  some (a ++ (b ++ (c ++ d)))

def rwinput (stack : Stack) (inp : PeggyInput) : Option (List Call) :=
  rwinout stack inp.type inp.chainlen inp.src .long inp.amount.toNat

def rwoutput (stack : Stack) (out : PeggyOutput) : Option (List Call) :=
  rwinout stack out.type out.vin out.dest .int out.ratio.toNat

def rwbet (stack : Stack) (bet : TxBet) : Option (List Call) := do
  let a ← rw .long bet.prediction.toNat
  let b ← rwstr stack (leBytes 15 bet.peg.toNat) 0
  let c ← rw .char bet.binary.toNat
  some (a ++ (b ++ c))

/-- The hashes have size 32, which `serdes777_rw` takes for a base32 string. -/
def rwmicropay (stack : Stack) (micropay : TxMicropay) : Option (List Call) := do
  let a ← rwstr stack (leBytes 32 micropay.claimhash.toNat) 32
  let b ← rwstr stack (leBytes 32 micropay.refundhash.toNat) 32
  let c ← codec [(.int, micropay.expiration.toNat), (.char, micropay.chainlen.toNat), (.char, micropay.vin.toNat),
    (.char, micropay.vout.toNat)]
  some (a ++ (b ++ c))

def rwprices (price : TxPrices) : Option (List Call) := do
  let a ← codec [(.short, price.num.toNat), (.int, price.timestamp.toNat), (.short, price.maxlockdays.toNat)]
  let feed ← entries 256 price.num.toNat price.feed
  let b ← items (fun x => rw .int x.toNat) feed
  some (a ++ b)

/-- The switch of `serdes777_rwdetails`; a `break` in front of `serdes777_rwtune` skips it. -/
def rwkind (stack : Stack) (tx : PeggyTx) : Option (List Call) :=
  match tx.kind with
  | .bet => do items (rwbet stack) (← entries 64 tx.numdetails.toNat tx.details.bets)
  | .prices => rwprices tx.details.price
  | .tune => some []
  | .micropay => do items (rwmicropay stack) (← entries 16 tx.numdetails.toNat tx.details.micropays)
  | .normal => some []

def rwmessage (stack : Stack) (tx : PeggyTx) : Option (List Call) :=
  if tx.msglen ≠ 0 then rwstr stack (leBytes 512 tx.hexstr.toNat) 16 else some []

def rwfunding (stack : Stack) (tx : PeggyTx) : Option (List Call) :=
  if tx.hasFunding then rwinput stack tx.funding else some []

def rwdetails (stack : Stack) (tx : PeggyTx) : Option (List Call) := do
  let kind ← rwkind stack tx
  let message ← rwmessage stack tx
  some (kind ++ message)

/-- The part of `serdes777_rwtx` between the header and the details. -/
def rwinouts (stack : Stack) (tx : PeggyTx) : Option (List Call) := do
  let funding ← rwfunding stack tx
  let inputs ← items (rwinput stack) (← entries 15 tx.numinputs.toNat tx.inputs)
  let outputs ← items (rwoutput stack) (← entries 16 tx.numoutputs.toNat tx.outputs)
  some (funding ++ (inputs ++ outputs))

def rwtx (stack : Stack) (tx : PeggyTx) : Option (List Call) := do
  let hdr ← codec (hdrtokens tx.toPeggyHdr)
  let inouts ← rwinouts stack tx
  let details ← rwdetails stack tx
  some (hdr ++ (inouts ++ details))

end Put

namespace Get

/-- The counts of the first three parts of a `PEGGY_ADDRUNIT` or `PEGGY_ADDRPUBKEY` are lost: the
case runs on into the next one, which assigns `numbits` anew and overwrites what was read. -/
def rwaddr (stack : Stack) (type : BitVec 8) : Rd (PeggyAddr × Nat) :=
  match AddrKind.ofType type with
  | some .btcd => do
    let r ← rwstr stack 48 0
    pure (.ofBytes r.1, r.2)
  | some .nxt => do
    let r ← rw (.raw 8)
    pure (⟨BitVec.ofNat 256 r.1, default⟩, r.2)
  | some .create => do
    let sha ← rw (.raw 32)
    let lock ← codec locksizes
    pure (⟨BitVec.ofNat 256 sha.1, lockOf lock.1⟩, sha.2 + lock.2)
  | some .unit | some .pubkey => do
    let _ ← rw (.raw 32)
    let _ ← rw .short
    let _ ← rw .short
    let sam ← codec saMsizes
    pure (.ofSaM sam.1, sam.2)
  | some .sam777 => do
    let sam ← codec saMsizes
    pure (.ofSaM sam.1, sam.2)
  | none => fun _ => none

structure InOut where
  type : BitVec 8
  link : BitVec 8
  addr : PeggyAddr
  tail : Nat

def rwinout (stack : Stack) (size : Size) : Rd (InOut × Nat) := do
  let a ← rw .char
  let b ← rw .char
  let c ← rwaddr stack (BitVec.ofNat 8 a.1)
  let d ← rw size
  pure (⟨BitVec.ofNat 8 a.1, BitVec.ofNat 8 b.1, c.1, d.1⟩, a.2 + (b.2 + (c.2 + d.2)))

def rwinput (stack : Stack) : Rd (PeggyInput × Nat) := do
  let r ← rwinout stack .long
  pure (⟨r.1.type, r.1.link, r.1.addr, BitVec.ofNat 64 r.1.tail⟩, r.2)

def rwoutput (stack : Stack) : Rd (PeggyOutput × Nat) := do
  let r ← rwinout stack .int
  pure (⟨r.1.type, r.1.link, r.1.addr, BitVec.ofNat 32 r.1.tail⟩, r.2)

def rwbet (stack : Stack) : Rd (TxBet × Nat) := do
  let a ← rw .long
  let b ← rwstr stack 15 0
  let c ← rw .char
  pure (⟨BitVec.ofNat 64 a.1, BitVec.ofNat 120 (leValue b.1), BitVec.ofNat 8 c.1⟩, a.2 + (b.2 + c.2))

def rwmicropay (stack : Stack) : Rd (TxMicropay × Nat) := do
  let a ← rwstr stack 32 32
  let b ← rwstr stack 32 32
  let c ← rw .int
  let d ← rw .char
  let e ← rw .char
  let f ← rw .char
  pure (⟨BitVec.ofNat 256 (leValue a.1), BitVec.ofNat 256 (leValue b.1), BitVec.ofNat 32 c.1, BitVec.ofNat 8 d.1,
    BitVec.ofNat 8 e.1, BitVec.ofNat 8 f.1⟩, a.2 + (b.2 + (c.2 + (d.2 + (e.2 + f.2)))))

def rwprices : Rd (TxPrices × Nat) := do
  let num ← rw .short
  let timestamp ← rw .int
  let maxlockdays ← rw .short
  let feed ← items 256 num.1 (rw .int)
  pure (⟨BitVec.ofNat 16 num.1, BitVec.ofNat 16 maxlockdays.1, BitVec.ofNat 32 timestamp.1,
    feed.1.map (BitVec.ofNat 32)⟩, num.2 + (timestamp.2 + (maxlockdays.2 + feed.2)))

def rwkind (stack : Stack) (hdr : PeggyHdr) : Rd (TxDetails × Nat) :=
  match hdr.kind with
  | .bet => do
    let r ← items 64 hdr.numdetails.toNat (rwbet stack)
    pure ({ (default : TxDetails) with bets := r.1 }, r.2)
  | .prices => do
    let r ← rwprices
    pure ({ (default : TxDetails) with price := r.1 }, r.2)
  | .tune => pure (default, 0)
  | .micropay => do
    let r ← items 16 hdr.numdetails.toNat (rwmicropay stack)
    pure ({ (default : TxDetails) with micropays := r.1 }, r.2)
  | .normal => pure (default, 0)

def rwmessage (stack : Stack) (hdr : PeggyHdr) : Rd (BitVec 4096 × Nat) :=
  if hdr.msglen ≠ 0 then do
    let r ← rwstr stack 512 16
    pure (BitVec.ofNat 4096 (leValue r.1), r.2)
  else pure (0, 0)

def rwfunding (stack : Stack) (hdr : PeggyHdr) : Rd (PeggyInput × Nat) :=
  if hdr.hasFunding then rwinput stack else pure (default, 0)

def rwdetails (stack : Stack) (hdr : PeggyHdr) : Rd ((TxDetails × BitVec 4096) × Nat) := do
  let kind ← rwkind stack hdr
  let message ← rwmessage stack hdr
  pure ((kind.1, message.1), kind.2 + message.2)

def rwinouts (stack : Stack) (hdr : PeggyHdr) : Rd ((PeggyInput × List PeggyInput × List PeggyOutput) × Nat) := do
  let funding ← rwfunding stack hdr
  let inputs ← items 15 hdr.numinputs.toNat (rwinput stack)
  let outputs ← items 16 hdr.numoutputs.toNat (rwoutput stack)
  pure ((funding.1, inputs.1, outputs.1), funding.2 + (inputs.2 + outputs.2))

def rwtx (stack : Stack) : Rd (PeggyTx × Nat) := do
  let words ← codec hdrsizes
  let inouts ← rwinouts stack (hdrOf words.1)
  let details ← rwdetails stack (hdrOf words.1)
  pure (⟨hdrOf words.1, inouts.1.2.1, inouts.1.1, inouts.1.2.2, details.1.1, details.1.2, []⟩,
    words.2 + (inouts.2 + details.2))

end Get

/-- The cryptography below `acct777_sign`. -/
structure Crypto where
  curve25519 : BitVec 256 → BitVec 256 → BitVec 256
  sha256cat : List UInt8 → List UInt8 → BitVec 256
  pubkey : BitVec 256 → BitVec 256
  nxt64bits : BitVec 256 → BitVec 64
  genesisPrivkey : BitVec 256
  genesisPubkey : BitVec 256

def acct777Sign (c : Crypto) (privkey otherpubkey : BitVec 256) (timestamp : BitVec 32) (data : List UInt8) : AcctSig where
  sigbits := c.sha256cat (leBytes 4 timestamp.toNat ++ leBytes 32 (c.curve25519 privkey otherpubkey).toNat) data
  pubkey := c.pubkey privkey
  signer64bits := c.nxt64bits (c.pubkey privkey)
  timestamp := timestamp

def acct777Validate (c : Crypto) (sig : AcctSig) (timestamp : BitVec 32) (data : List UInt8) : BitVec 64 :=
  if (acct777Sign c c.genesisPrivkey sig.pubkey timestamp data).sigbits ≠ sig.sigbits then 0 else c.nxt64bits sig.pubkey

def acct777Signtx (c : Crypto) (privkey : BitVec 256) (timestamp : BitVec 32) (data : List UInt8) : AcctSig :=
  acct777Sign c privkey c.genesisPubkey timestamp data

def txid (x : BitVec 256) : BitVec 64 := x.setWidth 64

def AcctSig.bytes (sig : AcctSig) : List UInt8 := leBytes 32 sig.sigbits.toNat ++ leBytes 32 sig.pubkey.toNat

/-- `serdes777_checktimestamp`; `false` is its return value -1. -/
def checktimestamp (blocktimestamp timestamp : BitVec 32) : Bool :=
  if blocktimestamp = 0 ∨ timestamp = 0 then true
  else !decide ((timestamp.toNat : Int) < blocktimestamp.toNat - 3600 ∨ (timestamp.toNat : Int) > blocktimestamp.toNat + 60)

/-- The stream over the cleared `Ptx->data`. -/
def dataHuff : Huff where
  buf := List.replicate 4096 0
  allocsize := 4096
  ptr := 0
  maski := 0
  bitoffset := 0
  endpos := 0
  buf_length := List.length_replicate
  addressable := by decide

/-- The first lines of `serdes777_serialize`. -/
def stamp (tx : PeggyTx) (blocktimestamp timestamp : BitVec 32) : Option PeggyTx :=
  if tx.timestamp = 0 then some { tx with timestamp := timestamp }
  else if timestamp ≠ 0 ∧ checktimestamp blocktimestamp timestamp = false then none
  else some tx

/-- The transaction with its `datalen`, and the first `datalen` bytes of its `data`. -/
def encode (stack : Stack) (tx : PeggyTx) : Option (PeggyTx × List UInt8) := do
  let hp ← hputcalls dataHuff (← Put.rwtx stack tx)
  let len := hconvBitlen hp.bitoffset
  let hp ← hputcalls (hrewind hp) (Put.rwbits 16 (BitVec.ofNat 16 len).toNat)
  some ({ tx with datalen := BitVec.ofNat 16 len }, hp.buf.take len)

/-- `memcpy` behind the first `data.length` bytes of `Ptx->data`. -/
def append (data bytes : List UInt8) : Option (List UInt8) :=
  if data.length + bytes.length ≤ 4096 then some (data ++ bytes) else none

def AcctSig.inUse (sig : AcctSig) : Bool := txid sig.sigbits ≠ 0

/-- The signatures in use: those before the first zero one. -/
def PeggyTx.signed (tx : PeggyTx) : List AcctSig := (tx.sigs.take 16).takeWhile AcctSig.inUse

/-- The loop over `Ptx->sigs`. -/
def countersign (c : Crypto) (timestamp : BitVec 32) : List AcctSig → List UInt8 → Option (List UInt8)
  | [], data => some data
  | sig :: sigs, data =>
    if acct777Validate c sig timestamp data ≠ sig.signer64bits then none
    else do countersign c timestamp sigs (← append data sig.bytes)

/-- The signature that `serdes777_serialize` adds, if it adds one. -/
def newsig (c : Crypto) (tx : PeggyTx) (privkey : BitVec 256) (data : List UInt8) : List AcctSig :=
  if tx.signed.length < 15 ∧ tx.timestamp ≠ 0 ∧ txid privkey ≠ 0 then [acct777Signtx c privkey tx.timestamp data] else []

/-- `serdes777_serialize`: the updated transaction and the bytes produced, whose number is returned. -/
def serialize (c : Crypto) (stack : Stack) (tx : PeggyTx) (blocktimestamp timestamp : BitVec 32) (privkey : BitVec 256) :
    Option (PeggyTx × List UInt8) := do
  let tx ← stamp tx blocktimestamp timestamp
  let (tx, data) ← encode stack tx
  let data ← countersign c tx.timestamp tx.signed data
  let added := newsig c tx privkey data
  let data ← append data (added.flatMap AcctSig.bytes)
  some ({ tx with sigs := tx.signed ++ added ++ tx.sigs.drop (tx.signed.length + added.length) }, data)

/-- The signatures in `n` blocks of 32 bytes: signature and public key in turn. -/
def blocks : Nat → List UInt8 → List AcctSig
  | 0, _ => []
  | 1, data => [{ (default : AcctSig) with sigbits := BitVec.ofNat 256 (leValue (data.take 32)) }]
  | n+2, data => { (default : AcctSig) with
      sigbits := BitVec.ofNat 256 (leValue (data.take 32))
      pubkey := BitVec.ofNat 256 (leValue ((data.drop 32).take 32)) } :: blocks n (data.drop 64)

/-- The last loop of `serdes777_deserialize`, `n` rounds over `sigs[16]`, up to the first zero
signature: the signatures counted, and all of them with the signers found. -/
def validates (c : Crypto) (timestamp : BitVec 32) (data : List UInt8) :
    Nat → Nat → List AcctSig → Option (Nat × List AcctSig)
  | 0, _, sigs => some (0, sigs)
  | _+1, 0, _ => none
  | _+1, _+1, [] => some (0, [])
  | n+1, room+1, sig :: sigs =>
    if !sig.inUse then some (0, sig :: sigs)
    else if acct777Validate c sig timestamp data = 0 then none
    else (validates c timestamp data n room sigs).map fun r =>
      (r.1 + 1, { sig with signer64bits := acct777Validate c sig timestamp data } :: r.2)

structure Deserialized where
  tx : PeggyTx
  len : Nat
  signedcount : Nat

/-- The stream over the bytes given to `serdes777_deserialize`. -/
def givenHuff (data : List UInt8) (h : data.length ≤ 4096) : Huff := .over data (8 * data.length) (by omega)

/-- What follows the walk in `serdes777_deserialize`. -/
def checksigs (c : Crypto) (tx : PeggyTx) (totalbits : Nat) (data : List UInt8) : Option Deserialized :=
  let len := hconvBitlen totalbits
  let n := (data.length - len) / 32
  let sigs := if tx.numinputs = 1 ∧ (tx.inputs.getD 0 default).type = 4 ∧ n = 1 then
      [{ (default : AcctSig) with
        sigbits := BitVec.ofNat 256 (leValue ((data.drop len).take 32))
        pubkey := (tx.inputs.getD 0 default).src.sha256 }]
    else blocks n (data.drop len)
  if data.length < len ∨ (data.length - len) % 32 ≠ 0 ∨ 32 < n then none
  else (validates c tx.timestamp (data.take len) n 16 sigs).map fun r =>
    ⟨{ tx with datalen := BitVec.ofNat 16 len, sigs := r.2 }, len + 32 * n, r.1⟩

/-- `serdes777_deserialize` of at most the 4096 bytes that `Ptx->data` can take. -/
def deserialize (c : Crypto) (stack : Stack) (blocktimestamp : BitVec 32) (data : List UInt8) : Option Deserialized :=
  if h : data.length ≤ 4096 then do
    let (r, _) ← Get.rwtx stack (givenHuff data h)
    if checktimestamp blocktimestamp r.1.timestamp = false then none else checksigs c r.1 r.2 data
  else none

end SuperNet.Peggy.Serdes777
