import SuperNet.Coins.Cointx
import SuperNet.Common.Txind777
import SuperNet.Lib.Words

/-! The opreturn entries of a block as `opreturns_process` passes them to their protocols. -/
namespace SuperNet.Common.Opreturn777
open SuperNet.Lib.AccessLog SuperNet.Lib.Bytes SuperNet.Lib.Words SuperNet.Coins.Cointx SuperNet.Common.Txind777

def OP_RETURN_OPCODE : UInt8 := 0x6a
def MAX_OPRETURNSIZE : Nat := 4096

abbrev Field (n : Nat) := { bs : List UInt8 // bs.length = n }

theorem padded_length (n : Nat) (bs : List UInt8) : ((bs ++ List.replicate n 0).take n).length = n := by
  rw [List.length_take, List.length_append, List.length_replicate]
  omega

/-- The first `n` bytes of a string, with zeros for those it lacks. -/
def padded (n : Nat) (bs : List UInt8) : Field n := ⟨(bs ++ List.replicate n 0).take n, padded_length n bs⟩

/-- `struct opreturn_entry`; `vout` is kept as its bytes: the links of the queue, the value and the address. -/
structure Entry where
  vout : Field 64
  timestamp : Nat
  blocknum : Nat
  isstaked : Nat
  txind : Nat
  v : Nat
  datalen : UInt16
  data : Field 4096
  deriving DecidableEq

def Entry.value (opreturn : Entry) : Nat := leValue ((opreturn.vout.val.drop 16).take 8)

def Entry.coinaddr (opreturn : Entry) : List UInt8 := (opreturn.vout.val.drop 24).take 36

def Entry.bytes (opreturn : Entry) : List UInt8 :=
  opreturn.vout.val ++ leBytes 4 opreturn.timestamp ++ leBytes 4 opreturn.blocknum ++ leBytes 2 opreturn.isstaked ++
    leBytes 2 opreturn.txind ++ leBytes 2 opreturn.v ++ leBytes 2 opreturn.datalen.toNat ++ opreturn.data.val

/-- The entry that a buffer holds. -/
def Entry.ofBuf (buf : List UInt8) : Entry where
  vout := padded 64 buf
  timestamp := leValue ((buf.drop 64).take 4)
  blocknum := leValue ((buf.drop 68).take 4)
  isstaked := leValue ((buf.drop 72).take 2)
  txind := leValue ((buf.drop 74).take 2)
  v := leValue ((buf.drop 76).take 2)
  datalen := UInt16.ofNat (leValue ((buf.drop 78).take 2))
  data := padded 4096 (buf.drop 80)

/-- The local `stakedblock`. -/
def stakedEntry (peggyopreturn : List UInt8) : Entry where
  vout := padded 64 []
  timestamp := 0
  blocknum := 0
  isstaked := 0
  txind := 0
  v := 0
  datalen := UInt16.ofNat peggyopreturn.length
  data := padded 4096 peggyopreturn

def Entry.mark (isstaked : Nat) (opreturn : Entry) : Entry := { opreturn with isstaked := isstaked }

/-- `struct opreturn_protocol`, with one flag for whether its function pointers are set. -/
structure Protocol where
  id : List UInt8
  name : String
  registered : Bool
  lookbacks : Nat → Int
  numcontexts : Nat
  pastblocknums : Nat → Nat
  opreturns : Option Info

/-- A slot of `OPRETURN_PROTOCOLS` that nothing was written to. -/
def Protocol.unset : Protocol := ⟨[0, 0, 0], "", false, fun _ => 0, 0, fun _ => 0, none⟩

/-- What a call does outside its own variables: the flush function of a protocol, an entry given to a log, and an
entry given to the process function of a protocol for one of its contexts. -/
inductive Event where
  | flushed (protocol currentblocknum blocknum blocktimestamp : Nat)
  | logged (slot currentblocknum blocktimestamp : Nat) (opreturn : Entry)
  | processed (protocol context : Nat) (flags : Int) (fundedcoinaddr : List UInt8) (fundedvalue : Nat) (data : List UInt8)
      (datalen : Int) (currentblocknum blocktimestamp isstaked : Nat)
  deriving DecidableEq

structure Opreturns where
  protocols : List Protocol
  prevblocknum : Nat
  events : List Event

/-- What a call finds around its arguments: the hash of the logs, the memory that `realloc` hands out, the bytes
behind `stakedblock` and those that `buf` starts with. -/
structure Env where
  sha : Sha
  junk : Nat → UInt64
  behind : Nat → UInt8
  buf : List UInt8

/-- The arguments of a call; `peggyopreturn` is null or has `peggylen` bytes. -/
structure Call where
  flags : Int
  currentblocknum : Nat
  blocktimestamp : Nat
  list : List Entry
  peggyopreturn : Option (List UInt8)

def opreturnsFind (protocols : List Protocol) (id : Option (List UInt8)) (name : Option String) : Option Nat :=
  protocols.findIdx? fun p => id.any (fun id => p.id = id) || name.any fun name => name = p.name

def Entry.varint (opreturn : Entry) (offset : Int) : Nat × Int :=
  (hdecodeVarint (memory opreturn.data.val fun _ => 0) offset 4096).value

/-- The bytes of an entry that are logged: its header, its data and 8 more. -/
def loggedBytes (env : Env) (opreturn : Entry) : List UInt8 :=
  (opreturn.bytes ++ (List.range 65536).map env.behind).take (u16 (4176 - 4096 + opreturn.datalen.toNat + 8))

def processEvent (call : Call) (protocol context : Nat) (opreturn : Entry) (offset : Int) (len blocknum blocktimestamp : Nat) : Event :=
  .processed protocol context call.flags opreturn.coinaddr opreturn.value (opreturn.data.val.drop (offset + 3).toNat)
    (signed 32 len - 3) blocknum blocktimestamp opreturn.isstaked

section Lookback

/-- The variables that the loops over the contexts carry. -/
structure Past where
  protocols : List Protocol
  offset : Int
  buf : List UInt8
  events : List Event

/-- Reading the log of protocol `i` for the block `pastblocknum`; `none` is a loop that is not over after `fuel`
rounds, a read outside the data of an entry, or a call through a null pointer. -/
def lookbackRead (call : Call) (i : Nat) (protocol : Protocol) (log : Info) (pastblocknum : Nat) : Nat → Past → Option Past
  | 0, _ => none
  | fuel + 1, s =>
    match txinds777Read log with
    | none => some s
    | some bytes =>
      let buf := bytes ++ s.buf.drop bytes.length
      let opreturn := Entry.ofBuf buf
      if opreturn.blocknum ≠ pastblocknum then some { s with buf := buf }
      else if opreturn.data.val.headD 0 = OP_RETURN_OPCODE then
        let (len, offset) := opreturn.varint s.offset
        if len = u64 (opreturn.datalen.toNat + offset) then
          if 0 ≤ offset ∧ offset + 3 ≤ 4096 then
            if (opreturn.data.val.drop offset.toNat).take 3 ≠ protocol.id then
              lookbackRead call i protocol log pastblocknum fuel { s with buf := buf, offset := offset }
            else if protocol.registered then
              let events := s.events ++ [processEvent call i 1 opreturn offset len pastblocknum opreturn.timestamp]
              lookbackRead call i protocol log pastblocknum fuel { s with buf := buf, offset := offset, events := events }
            else none
          else none
        else lookbackRead call i protocol log pastblocknum fuel { s with buf := buf, offset := offset }
      else lookbackRead call i protocol log pastblocknum fuel { s with buf := buf }

/-- The loop over the past blocks of context `iter`. -/
def lookbackBlocks (call : Call) (i iter : Nat) : Nat → Nat → Past → Option Past
  | 0, _, _ => none
  | fuel + 1, pastblocknum, s =>
    match s.protocols[i]? with
    | none => none
    | some protocol =>
      if protocol.pastblocknums iter ≤ pastblocknum then
        match protocol.opreturns with
        | none => none
        | some log =>
          let log := txinds777Seek log pastblocknum
          match lookbackRead call i protocol log pastblocknum fuel s with
          | none => none
          | some s =>
            let protocol := { protocol with
              pastblocknums := Function.update protocol.pastblocknums iter pastblocknum, opreturns := some log }
            lookbackBlocks call i iter fuel (u32 (pastblocknum + 1)) { s with protocols := s.protocols.set i protocol }
      else some s

/-- The loop over the contexts of protocol `i`. -/
def lookbackContexts (call : Call) (fuel i : Nat) (s : Past) : Option Past :=
  match s.protocols[i]? with
  | none => none
  | some protocol =>
    (List.range' 1 (protocol.numcontexts - 1)).foldlM (fun s iter =>
      if call.currentblocknum > u32 (protocol.lookbacks iter) then
        lookbackBlocks call i iter fuel (call.currentblocknum - u32 (protocol.lookbacks iter)) s
      else some s) s

def lookback (call : Call) (fuel : Nat) (s : Past) : Option Past :=
  (List.range s.protocols.length).foldlM (fun s i => lookbackContexts call fuel i s) s

end Lookback

/-- The variables that the loop over the entries carries. -/
structure Current where
  protocols : List Protocol
  offset : Int
  events : List Event
  numvalid : Nat

/-- `txind777_create` on the log of slot `i`; without a log it does nothing. -/
def createEntry (env : Env) (call : Call) (i : Nat) (slot : Protocol) (opreturn : Entry) : Option (Protocol × List Event) :=
  match slot.opreturns with
  | none => some (slot, [])
  | some log =>
    (txind777Create env.sha env.junk log call.currentblocknum call.blocktimestamp (loggedBytes env opreturn)).map fun (log, txind) =>
      ({ slot with opreturns := some log },
        if 0 ≤ txind then [.logged i call.currentblocknum call.blocktimestamp opreturn] else [])

/-- An entry that is taken for slot `p` in round `i`: it goes to the log of slot `i` and to the process function of
slot `p`. -/
def takeEntry (env : Env) (call : Call) (s : Current) (i p : Nat) (opreturn : Entry) (len : Nat) (offset : Int) : Option Current := do
  let slot ← s.protocols[i]?
  let created ← createEntry env call i slot opreturn
  let protocol ← s.protocols[p]?
  if protocol.registered then
    some ⟨s.protocols.set i created.1, offset, s.events ++ (created.2 ++
      [processEvent call p 0 opreturn offset len call.currentblocknum call.blocktimestamp]), s.numvalid + 1⟩
  else none

/-- One round of the loop over the entries; `none` is a read behind the data of the entry or behind
`OPRETURN_PROTOCOLS`, a call through a null pointer, or a crash of the log. -/
def processEntry (env : Env) (call : Call) (s : Current) (i : Nat) (opreturn : Entry) : Option Current :=
  if opreturn.data.val.headD 0 = OP_RETURN_OPCODE then
    let (len, offset) := opreturn.varint s.offset
    if u64 (len + offset) = opreturn.datalen.toNat then
      if offset + 3 ≤ 4096 then
        match opreturnsFind s.protocols (some ((opreturn.data.val.drop offset.toNat).take 3)) none with
        | none => some { s with offset := offset }
        | some p => takeEntry env call s i p opreturn len offset
      else none
    else some { s with offset := offset }
  else some s

/-- The rounds for the entries of the list, from round `i` on. -/
def processList (env : Env) (call : Call) (s : Current) (i : Nat) : List Entry → Option Current
  | [] => some s
  | opreturn :: list => do
    let s ← processEntry env call s i (opreturn.mark 0)
    processList env call s (i + 1) list

/-- Round 0, for the entry that was staked. -/
def processStaked (env : Env) (call : Call) (s : Current) : Option Current :=
  match call.peggyopreturn with
  | none => some s
  | some peggyopreturn =>
    if peggyopreturn.length ≤ MAX_OPRETURNSIZE then processEntry env call s 0 ((stakedEntry peggyopreturn).mark 1)
    else none

/-- A protocol after its log and its own state have been flushed. -/
def Protocol.flush (call : Call) (p : Protocol) : Protocol :=
  { p with opreturns := p.opreturns.map fun log => txinds777Flush log call.currentblocknum call.blocktimestamp }

def flushEvents (call : Call) (protocols : List Protocol) : List Event :=
  protocols.zipIdx.filterMap fun (p, i) =>
    if p.opreturns.isSome && p.registered then some (.flushed i call.currentblocknum call.currentblocknum call.blocktimestamp)
    else none

/-- `opreturns_process` with what it returns; `none` is a call that does not come back. A block that is not newer
than the last makes it call the clone function of every protocol, through a null pointer from the second on. -/
def opreturnsProcess (env : Env) (fuel : Nat) (ops : Opreturns) (call : Call) : Option (Opreturns × Nat) :=
  if ops.prevblocknum ≠ 0 ∧ call.currentblocknum ≠ u32 (ops.prevblocknum + 1) ∧
      ¬ call.currentblocknum > u32 (ops.prevblocknum + 1) then none
  else do
    let events := ops.events ++ flushEvents call ops.protocols
    let past ← lookback call fuel ⟨ops.protocols.map (Protocol.flush call), 1, env.buf, events⟩
    let s ← processStaked env call ⟨past.protocols, past.offset, past.events, 0⟩
    let s ← processList env call s 1 call.list
    some (⟨s.protocols, call.currentblocknum, s.events⟩, s.numvalid)

/-- The slot of the one protocol, as `opreturns_init` leaves it with the log of its directory. -/
def pax (log : Info) (lookbacks : Nat → Int) : Protocol :=
  ⟨[0x50, 0x41, 0x58], "peggy", true, lookbacks, 0, fun _ => 0, some log⟩

/-- `OPRETURN_PROTOCOLS` after `opreturns_init`: the slots behind the first stay as they are. -/
def opreturnsInit (log : Info) (lookbacks : Nat → Int) : Opreturns :=
  ⟨pax log lookbacks :: List.replicate 7 Protocol.unset, 0, []⟩

def step (env : Env) (fuel : Nat) (ops : Opreturns) (call : Call) : Option Opreturns := (opreturnsProcess env fuel ops call).map Prod.fst

def run (env : Env) (fuel : Nat) (ops : Opreturns) (calls : List Call) : Option Opreturns := calls.foldlM (step env fuel) ops

end SuperNet.Common.Opreturn777
