import SuperNet.InstantDEX.Quotes
import SuperNet.Utils.NXT777

/-! The two queues of pending trades and the release of an NXT swap: trades.h of InstantDEX. -/
namespace SuperNet.InstantDEX.PendingSwaps
open Lib.Words Quotes
open Utils.NXT777 (NXT_ASSETID)

def INSTANTDEX_ACCT : String := "4383817337783094122"
def INSTANTDEX_FEE : Nat := 250000000
def INSTANTDEX_TRIGGERDEADLINE : Nat := 120

/-- What `match_unconfirmed` and `verify_NXTtx` read of a transaction, the numbers as `calc_nxt64bits` and `myatoi`
read their strings; an attachment is its asset and its quantity. -/
structure Tx where
  recipient : Nat
  deadline : Nat
  timestamp : Nat
  type : Int
  subtype : Int
  amountNQT : Nat
  attachment : Option (Nat × Nat)
  deriving DecidableEq

def verifyNXTtx (json : Tx) (refasset qty destNXTbits : Nat) : Int :=
  if json.recipient ≠ destNXTbits then -2
  else if refasset = NXT_ASSETID then
    if json.type ≠ 0 ∨ json.subtype ≠ 0 then -3 else if qty ≠ json.amountNQT then -4 else 0
  else if json.type ≠ 2 ∨ json.subtype ≠ 1 then -11
  else
    let (assetidbits, quantity) := json.attachment.getD (0, 0)
    if assetidbits ≠ refasset then -12 else if qty ≠ quantity then -13 else 0

/-- `InstantDEX_verify`; what is sent is not looked at. -/
def instantDEXVerify (destNXTaddr _sendasset _sendqty : Nat) (txobj : Tx) (recvasset recvqty : Nat) : Int :=
  if verifyNXTtx txobj recvasset recvqty destNXTaddr ≠ 0 then -1 else 0

/-- `struct pending_trade`, with the address that it was allocated at. -/
structure Trade where
  addr : Nat
  quoteid : Nat
  orderid : Nat
  txid : Nat
  triggertxid : Nat
  triggertx : Option String
  txbytes : Option String
  tradesjson : String
  type : Int
  swap : Bool
  queueflag : Bool
  finishtime : Nat
  deriving DecidableEq

/-- The reply of the node to a broadcast. -/
inductive Reply where
  | failed
  | error (errorCode : Int)
  | transaction (transaction : Nat)

def issueBroadcastTransaction : Reply → Nat × Int
  | .failed => (0, -1)
  | .error errorCode => (0, errorCode)
  | .transaction txid => (txid, if txid ≠ 0 then 0 else -1)

/-- The own account, and the multipliers of the assets. -/
structure Env where
  NXTADDR : String
  my64bits : Nat
  assetmult : Nat → Nat

/-- What happens in a run: the two detections, a broadcast of a trade with what came back, a quote that is marked, a
trade that leaves the queues, and a message to the other nodes. -/
inductive Event where
  | fee (quoteid : Nat) (tx : Tx)
  | response (iQ : Quote) (tx : Tx)
  | txbytes (pend : Trade) (answer : Nat × Int)
  | triggertx (pend : Trade) (answer : Nat × Int)
  | matched (quoteid : Nat)
  | released (pend : Trade)
  | busdata (message : String)

structure State where
  quotes : List Quote
  pingpong0 : List Trade
  pingpong1 : List Trade
  allocated : Nat
  events : List Event

/-- A call of `match_unconfirmed`: the ids of the message, the transaction, its recipient as a string, the time of the
node, its replies to the two broadcasts, and the local time. -/
structure Call where
  orderid : Nat
  quoteid : Nat
  txobj : Tx
  recipient : String
  now : Nat
  reply2 : Reply
  reply : Reply
  finishtime : Nat

/-- One pass of `complete_swap`: a trade with another quoteid goes to the other queue. -/
def pass (quoteid : Nat) : List Trade → List Trade → Option Trade × List Trade × List Trade
  | [], other => (none, [], other)
  | pend :: queue, other =>
    if pend.quoteid = quoteid then (some pend, queue, other) else pass quoteid queue (other ++ [pend])

/-- The broadcasts of a trade that is released, and whether its quote is marked. -/
def release (call : Call) (err : Int) (pend : Trade) : List Event × Bool :=
  if err = 0 then
    let (txid, errcode2) := issueBroadcastTransaction call.reply2
    if txid = pend.txid ∧ errcode2 = 0 then
      let (triggertxid, errcode) := issueBroadcastTransaction call.reply
      ([.txbytes pend (txid, errcode2), .triggertx pend (triggertxid, errcode)],
        decide (triggertxid = pend.triggertxid ∧ errcode = 0))
    else ([.txbytes pend (txid, errcode2)], false)
  else ([], false)

/-- The end of `complete_swap` for the trade that it found. -/
def complete (call : Call) (err : Int) (s : State) (pend : Trade) : State :=
  let (sent, matched) := release call err pend
  { s with
    quotes := if matched then writeIQ s.quotes call.quoteid fun iQ => { iQ with matched := true } else s.quotes
    events := s.events ++ sent ++ (if matched then [.matched call.quoteid] else []) ++
      [.released { pend with queueflag := true, finishtime := call.finishtime }] }

def completeSwap (call : Call) (err : Int) (s : State) : State :=
  match pass call.quoteid s.pingpong0 s.pingpong1 with
  | (some pend, queue, other) => complete call err { s with pingpong0 := queue, pingpong1 := other } pend
  | (none, queue, other) =>
    match pass call.quoteid other queue with
    | (some pend, queue, other) => complete call err { s with pingpong0 := other, pingpong1 := queue } pend
    | (none, queue, other) => { s with pingpong0 := other, pingpong1 := queue }

/-- The asset and the amount that come in for a quote. -/
def recvSide (env : Env) (iQ : Quote) : Nat × Int :=
  let bidask := if iQ.offerNXT = env.my64bits then !iQ.isask else iQ.isask
  if bidask then (iQ.baseid, iQ.baseamount) else (iQ.relid, iQ.relamount)

def sendSide (env : Env) (iQ : Quote) : Nat × Int :=
  let bidask := if iQ.offerNXT = env.my64bits then !iQ.isask else iQ.isask
  if bidask then (iQ.relid, iQ.relamount) else (iQ.baseid, iQ.baseamount)

/-- `qty /= get_assetmult(asset)`; a division by zero does not come back. -/
def divide (env : Env) (side : Nat × Int) : Option Int :=
  if env.assetmult side.1 = 0 then none else some (signed 64 (u64 side.2 / env.assetmult side.1 : Nat))

/-- The transaction pays the fee. -/
def FeeTx (tx : Tx) : Prop := verifyNXTtx tx NXT_ASSETID INSTANTDEX_FEE 4383817337783094122 = 0

instance decidableFeeTx (tx : Tx) : Decidable (FeeTx tx) := inferInstanceAs (Decidable (_ = _))

/-- The transaction brings in what the quote says. -/
def ResponseTx (env : Env) (iQ : Quote) (tx : Tx) : Prop :=
  ∃ sendqty ∈ divide env (sendSide env iQ), ∃ recvqty ∈ divide env (recvSide env iQ),
    instantDEXVerify env.my64bits (sendSide env iQ).1 (u64 sendqty) tx (recvSide env iQ).1 (u64 recvqty) = 0

/-- The first test of `match_unconfirmed`: whether the fee has come in. -/
def payFee (tx : Tx) (iQ : Quote) : Quote × List Event :=
  if ¬ iQ.feepaid ∧ FeeTx tx then ({ iQ with feepaid := true }, [.fee iQ.quoteid tx]) else (iQ, [])

/-- The second test: whether the response has come in. -/
def respond (env : Env) (tx : Tx) (iQ : Quote) : Option (Quote × List Event) :=
  if iQ.responded then some (iQ, [])
  else do
    let sendqty ← divide env (sendSide env iQ)
    let recvqty ← divide env (recvSide env iQ)
    if instantDEXVerify env.my64bits (sendSide env iQ).1 (u64 sendqty) tx (recvSide env iQ).1 (u64 recvqty) = 0 then
      some ({ iQ with responded := true }, [.response iQ tx])
    else some (iQ, [])

/-- The quotes as a call finds them: those that it looks into. -/
def Watched (env : Env) (call : Call) (iQ : Quote) : Prop :=
  iQ.closed = false ∧ iQ.pending = true ∧ (iQ.responded = false ∨ iQ.feepaid = false) ∧ iQ.swap = true ∧
    (call.recipient = INSTANTDEX_ACCT ∨ call.recipient = env.NXTADDR)

instance decidableWatched (env : Env) (call : Call) (iQ : Quote) : Decidable (Watched env call iQ) :=
  inferInstanceAs (Decidable (_ ∧ _))

def flags (iQ' iQ : Quote) : Quote := { iQ with feepaid := iQ'.feepaid, responded := iQ'.responded }

def matchUnconfirmed (env : Env) (s : State) (call : Call) : Option State :=
  if call.txobj.deadline < INSTANTDEX_TRIGGERDEADLINE / 2 ∨ (call.now : Int) - call.txobj.timestamp > 60 * 2 then some s
  else
    match findIQ s.quotes call.quoteid with
    | none => some s
    | some iQ =>
      if Watched env call iQ then do
        let paid := payFee call.txobj iQ
        let responded ← respond env call.txobj paid.1
        let s := { s with
          quotes := writeIQ s.quotes call.quoteid (flags responded.1)
          events := s.events ++ (paid.2 ++ responded.2) }
        if responded.1.responded ∧ responded.1.feepaid then
          some (completeSwap call (if iQ.offerNXT = env.my64bits then 1 else 0) s)
        else some s
      else some s

/-- `prices777_finishswap` for a trade that `prices777_createpending` has allocated. -/
def finishswap (s : State) (dotrade : Bool) (type : Int) (pend : Trade) (swapbuf triggertx txbytes : String) : State :=
  let pend := { pend with
    addr := s.allocated
    triggertx := if triggertx ≠ "" then some triggertx else pend.triggertx
    txbytes := if txbytes ≠ "" then some txbytes else pend.txbytes
    swap := true
    tradesjson := swapbuf
    type := type }
  if dotrade then
    { s with
      pingpong0 := s.pingpong0 ++ [{ pend with queueflag := true }]
      allocated := s.allocated + 1
      events := s.events ++ [.busdata swapbuf] }
  else s

def swapResponseNXT (s : State) (type : Int) (orderid quoteid : Nat) (triggerhash phaselink : Option String)
    (str : String) (feeReply responseReply : Reply) : State :=
  if (issueBroadcastTransaction feeReply).1 ≠ 0 ∧ (issueBroadcastTransaction responseReply).1 ≠ 0 then
    { s with
      quotes := writeIQ s.quotes quoteid fun iQ => { iQ with pending := true, swap := true }
      pingpong0 := s.pingpong0 ++ [⟨s.allocated, quoteid, orderid, 0, 0, triggerhash, phaselink, str, type, false, true, 0⟩]
      allocated := s.allocated + 1 }
  else s

inductive Op where
  | unconfirmed (call : Call)
  | finishswap (dotrade : Bool) (type : Int) (pend : Trade) (swapbuf triggertx txbytes : String)
  | response (type : Int) (orderid quoteid : Nat) (triggerhash phaselink : Option String) (str : String)
      (feeReply responseReply : Reply)

def step (env : Env) (s : State) : Op → Option State
  | .unconfirmed call => matchUnconfirmed env s call
  | .finishswap dotrade type pend swapbuf triggertx txbytes => some (finishswap s dotrade type pend swapbuf triggertx txbytes)
  | .response type orderid quoteid triggerhash phaselink str feeReply responseReply =>
    some (swapResponseNXT s type orderid quoteid triggerhash phaselink str feeReply responseReply)

def run (env : Env) (s : State) (ops : List Op) : Option State := ops.foldlM (step env) s

/-- Two empty queues, and quotes for which nothing has been detected yet. -/
def start (quotes : List Quote) : State :=
  ⟨quotes.map fun iQ => { iQ with feepaid := false, responded := false, matched := false }, [], [], 0, []⟩

section Safe

def Event.sends : Event → Option Trade
  | .txbytes pend _ => some pend
  | .triggertx pend _ => some pend
  | _ => none

def Event.releases : Event → Option Trade
  | .released pend => some pend
  | _ => none

def Event.isTxbytes (addr : Nat) : Event → Bool
  | .txbytes pend _ => pend.addr = addr
  | _ => false

def Event.isTriggertx (addr : Nat) : Event → Bool
  | .triggertx pend _ => pend.addr = addr
  | _ => false

def Event.isReleased (addr : Nat) : Event → Bool
  | .released pend => pend.addr = addr
  | _ => false

def FeeSeen (quoteid : Nat) (events : List Event) : Prop := ∃ tx, .fee quoteid tx ∈ events ∧ FeeTx tx

def ResponseSeen (env : Env) (quoteid : Nat) (events : List Event) : Prop :=
  ∃ iQ tx, iQ.quoteid = quoteid ∧ .response iQ tx ∈ events ∧ ResponseTx env iQ tx

/-- Both broadcasts of a trade for the quote came back with the ids that the trade has recorded, without error. -/
def Completed (quoteid : Nat) (events : List Event) : Prop :=
  ∃ pend, pend.quoteid = quoteid ∧ .txbytes pend (pend.txid, 0) ∈ events ∧ .triggertx pend (pend.triggertxid, 0) ∈ events

/-- The addresses of the trades in the queues and of those that have left them. -/
def State.trades (s : State) : List Nat :=
  (s.pingpong0 ++ s.pingpong1 ++ s.events.filterMap Event.releases).map Trade.addr

/-- What holds of every run: no trade is broadcast twice, none before a fee and a response for its quote, a quote is
marked only after both broadcasts, and every trade that was queued is once in the queues or among those released. -/
structure Safe (env : Env) (s : State) : Prop where
  once : ∀ addr, s.events.countP (Event.isTxbytes addr) ≤ 1 ∧ s.events.countP (Event.isTriggertx addr) ≤ 1
  detected : ∀ before e after pend, s.events = before ++ e :: after → e.sends = some pend →
    FeeSeen pend.quoteid before ∧ ResponseSeen env pend.quoteid before
  matched : ∀ iQ ∈ s.quotes, iQ.matched = true → Completed iQ.quoteid s.events
  held : s.trades.Perm (List.range s.allocated)

/-- The trades with another quoteid are in the queues as before, each in one of them. -/
def Keeps (quoteid : Nat) (s s' : State) : Prop :=
  ((s'.pingpong0 ++ s'.pingpong1).filter fun pend => pend.quoteid ≠ quoteid).Perm
      ((s.pingpong0 ++ s.pingpong1).filter fun pend => pend.quoteid ≠ quoteid) ∧
    ((s'.pingpong0 ++ s'.pingpong1).map Trade.addr).Nodup

end Safe

section Pass

theorem pass_perm (quoteid : Nat) (queue other : List Trade) :
    ((pass quoteid queue other).1.toList ++ ((pass quoteid queue other).2.1 ++ (pass quoteid queue other).2.2)).Perm
      (queue ++ other) := by
  induction queue generalizing other with
  | nil => exact .refl _
  | cons pend queue ih =>
    rw [pass]
    split
    · exact .refl _
    · refine (ih (other ++ [pend])).trans ?_
      rw [← List.append_assoc]
      exact List.perm_append_singleton pend (queue ++ other)

theorem pass_found {quoteid : Nat} {queue other : List Trade} {pend : Trade} (h : (pass quoteid queue other).1 = some pend) :
    pend.quoteid = quoteid := by
  induction queue generalizing other with
  | nil => cases h
  | cons first queue ih =>
    rw [pass] at h
    split at h
    case isTrue hid =>
      cases h
      exact hid
    case isFalse => exact ih h

/-- What `complete_swap` does to the queues: it takes out one trade with the quoteid, or none. -/
theorem completeSwap_cases (call : Call) (err : Int) (s : State) :
    ∃ queue0 queue1, (((queue0 ++ queue1).Perm (s.pingpong0 ++ s.pingpong1)) ∧
        completeSwap call err s = { s with pingpong0 := queue0, pingpong1 := queue1 }) ∨
      ∃ pend, pend.quoteid = call.quoteid ∧ (pend :: (queue0 ++ queue1)).Perm (s.pingpong0 ++ s.pingpong1) ∧
        completeSwap call err s = complete call err { s with pingpong0 := queue0, pingpong1 := queue1 } pend := by
  have hperm := pass_perm call.quoteid s.pingpong0 s.pingpong1
  rw [completeSwap]
  rcases hfirst : pass call.quoteid s.pingpong0 s.pingpong1 with ⟨found, queue, other⟩
  rw [hfirst] at hperm
  cases found with
  | some pend => exact ⟨queue, other, .inr ⟨pend, pass_found (congrArg Prod.fst hfirst), hperm, rfl⟩⟩
  | none =>
    have hperm' := pass_perm call.quoteid other queue
    rcases hsecond : pass call.quoteid other queue with ⟨found, queue', other'⟩
    rw [hsecond] at hperm'
    have hback : (queue ++ other).Perm (s.pingpong0 ++ s.pingpong1) := hperm
    have hswap : (other ++ queue).Perm (s.pingpong0 ++ s.pingpong1) := List.perm_append_comm.trans hback
    cases found with
    | some pend =>
      refine ⟨other', queue', .inr ⟨pend, pass_found (congrArg Prod.fst hsecond), ?_, by simp only [hsecond]⟩⟩
      exact ((List.perm_append_comm).cons pend).trans (hperm'.trans hswap)
    | none =>
      refine ⟨other', queue', .inl ⟨List.perm_append_comm.trans (hperm'.trans hswap), by simp only [hsecond]⟩⟩

end Pass

section Invariant
variable {env : Env} {s s' : State} {call : Call} {quoteid : Nat} {events new : List Event}

theorem FeeSeen.append (h : FeeSeen quoteid events) (new : List Event) : FeeSeen quoteid (events ++ new) := by
  obtain ⟨tx, hmem, hfee⟩ := h
  exact ⟨tx, List.mem_append_left _ hmem, hfee⟩

theorem ResponseSeen.append (h : ResponseSeen env quoteid events) (new : List Event) :
    ResponseSeen env quoteid (events ++ new) := by
  obtain ⟨iQ, tx, hid, hmem, hresponse⟩ := h
  exact ⟨iQ, tx, hid, List.mem_append_left _ hmem, hresponse⟩

theorem Completed.append (h : Completed quoteid events) (new : List Event) : Completed quoteid (events ++ new) := by
  obtain ⟨pend, hid, htxbytes, htriggertx⟩ := h
  exact ⟨pend, hid, List.mem_append_left _ htxbytes, List.mem_append_left _ htriggertx⟩

/-- The invariant of the runs: `Safe`, the flags as records of what was seen, and every broadcast with a release. -/
structure Inv (env : Env) (s : State) : Prop where
  fee : ∀ iQ ∈ s.quotes, iQ.feepaid = true → FeeSeen iQ.quoteid s.events
  response : ∀ iQ ∈ s.quotes, iQ.responded = true → ResponseSeen env iQ.quoteid s.events
  matched : ∀ iQ ∈ s.quotes, iQ.matched = true → Completed iQ.quoteid s.events
  detected : ∀ before e after pend, s.events = before ++ e :: after → e.sends = some pend →
    FeeSeen pend.quoteid before ∧ ResponseSeen env pend.quoteid before
  txbytes : ∀ addr, s.events.countP (Event.isTxbytes addr) ≤ s.events.countP (Event.isReleased addr)
  triggertx : ∀ addr, s.events.countP (Event.isTriggertx addr) ≤ s.events.countP (Event.isReleased addr)
  held : s.trades.Perm (List.range s.allocated)

private theorem detected_append
    (h : ∀ before e after pend, events = before ++ e :: after → e.sends = some pend →
      FeeSeen pend.quoteid before ∧ ResponseSeen env pend.quoteid before)
    (hnew : ∀ e ∈ new, ∀ pend, e.sends = some pend → FeeSeen pend.quoteid events ∧ ResponseSeen env pend.quoteid events) :
    ∀ before e after pend, events ++ new = before ++ e :: after → e.sends = some pend →
      FeeSeen pend.quoteid before ∧ ResponseSeen env pend.quoteid before := by
  intro before e after pend hsplit hsends
  rcases List.append_eq_append_iff.mp hsplit with ⟨between, rfl, hrest⟩ | ⟨between, hevents, hrest⟩
  · have hmem : e ∈ new := by
      rw [hrest]
      exact List.mem_append_right _ List.mem_cons_self
    obtain ⟨hfee, hresponse⟩ := hnew e hmem pend hsends
    exact ⟨hfee.append between, hresponse.append between⟩
  · cases between with
    | nil =>
      rw [List.append_nil] at hevents
      have hmem : e ∈ new := by
        rw [← List.nil_append new, ← hrest]
        exact List.mem_cons_self
      rw [← hevents]
      exact hnew e hmem pend hsends
    | cons first between =>
      rw [List.cons_append, List.cons.injEq] at hrest
      rw [hrest.1] at hsends
      exact h before first between pend hevents hsends

/-- Events that neither broadcast nor release a trade. -/
def Quiet (new : List Event) : Prop := ∀ e ∈ new, e.sends = none ∧ e.releases = none

theorem Quiet.counts (h : Quiet new) (addr : Nat) :
    new.countP (Event.isTxbytes addr) = 0 ∧ new.countP (Event.isTriggertx addr) = 0 ∧
      new.countP (Event.isReleased addr) = 0 ∧ new.filterMap Event.releases = [] := by
  refine ⟨?_, ?_, ?_, ?_⟩
  · refine List.countP_eq_zero.mpr fun e he => ?_
    have hsends := (h e he).1
    cases e <;> first | exact Bool.false_ne_true | cases hsends
  · refine List.countP_eq_zero.mpr fun e he => ?_
    have hsends := (h e he).1
    cases e <;> first | exact Bool.false_ne_true | cases hsends
  · refine List.countP_eq_zero.mpr fun e he => ?_
    have hreleases := (h e he).2
    cases e <;> first | exact Bool.false_ne_true | cases hreleases
  · exact List.filterMap_eq_nil_iff.mpr fun e he => (h e he).2

/-- A step that appends quiet events and whose flags are records of what was seen by then. -/
theorem Inv.quiet (h : Inv env s) (hquiet : Quiet new) (hevents : s'.events = s.events ++ new)
    (hfee : ∀ iQ ∈ s'.quotes, iQ.feepaid = true → FeeSeen iQ.quoteid s'.events)
    (hresponse : ∀ iQ ∈ s'.quotes, iQ.responded = true → ResponseSeen env iQ.quoteid s'.events)
    (hmatched : ∀ iQ ∈ s'.quotes, iQ.matched = true → Completed iQ.quoteid s'.events)
    (hheld : s'.trades.Perm (List.range s'.allocated)) : Inv env s' where
  fee := hfee
  response := hresponse
  matched := hmatched
  detected := by
    rw [hevents]
    refine detected_append h.detected fun e he pend hsends => ?_
    rw [(hquiet e he).1] at hsends
    cases hsends
  txbytes := by
    intro addr
    obtain ⟨htxbytes, _, hreleased, _⟩ := hquiet.counts addr
    rw [hevents, List.countP_append, List.countP_append, htxbytes, hreleased]
    exact h.txbytes addr
  triggertx := by
    intro addr
    obtain ⟨_, htriggertx, hreleased, _⟩ := hquiet.counts addr
    rw [hevents, List.countP_append, List.countP_append, htriggertx, hreleased]
    exact h.triggertx addr
  held := hheld

private theorem payFee_cases (tx : Tx) (iQ : Quote) :
    payFee tx iQ = (iQ, []) ∨ FeeTx tx ∧ payFee tx iQ = ({ iQ with feepaid := true }, [.fee iQ.quoteid tx]) := by
  rw [payFee]
  split
  case isTrue h => exact .inr ⟨h.2, rfl⟩
  case isFalse => exact .inl rfl

private theorem respond_cases {tx : Tx} {iQ : Quote} {r : Quote × List Event} (h : respond env tx iQ = some r) :
    r = (iQ, []) ∨ ResponseTx env iQ tx ∧ r = ({ iQ with responded := true }, [.response iQ tx]) := by
  rw [respond] at h
  split at h
  case isTrue =>
    cases h
    exact .inl rfl
  case isFalse =>
    obtain ⟨sendqty, hsend, h⟩ := Option.bind_eq_some_iff.mp h
    obtain ⟨recvqty, hrecv, h⟩ := Option.bind_eq_some_iff.mp h
    split at h
    case isTrue hverify =>
      cases h
      exact .inr ⟨⟨sendqty, hsend, recvqty, hrecv, hverify⟩, rfl⟩
    case isFalse =>
      cases h
      exact .inl rfl

/-- The state after the two tests: the quote has the flags of `iQ'`, and `new` is what was detected. -/
def noted (s : State) (call : Call) (iQ' : Quote) (new : List Event) : State :=
  { s with quotes := writeIQ s.quotes call.quoteid (flags iQ'), events := s.events ++ new }

theorem matchUnconfirmed_cases (h : matchUnconfirmed env s call = some s') :
    s' = s ∨ ∃ iQ ∈ s.quotes, iQ.quoteid = call.quoteid ∧ ∃ iQ' new, Quiet new ∧
      (iQ'.feepaid = true → iQ.feepaid = true ∨ FeeSeen call.quoteid new) ∧
      (iQ'.responded = true → iQ.responded = true ∨ ResponseSeen env call.quoteid new) ∧
      (s' = noted s call iQ' new ∨ iQ'.responded = true ∧ iQ'.feepaid = true ∧
        ∃ err, s' = completeSwap call err (noted s call iQ' new)) := by
  rw [matchUnconfirmed] at h
  split at h
  case isTrue =>
    cases h
    exact .inl rfl
  case isFalse =>
    cases hfind : findIQ s.quotes call.quoteid with
    | none =>
      rw [hfind] at h
      cases h
      exact .inl rfl
    | some iQ =>
      rw [hfind] at h
      dsimp only at h
      split at h
      case isFalse =>
        cases h
        exact .inl rfl
      case isTrue =>
        rw [findIQ] at hfind
        have hdecide := List.find?_some hfind
        have hid : iQ.quoteid = call.quoteid := of_decide_eq_true hdecide
        obtain ⟨r, hrespond, h⟩ := Option.bind_eq_some_iff.mp h
        refine .inr ⟨iQ, List.mem_of_find?_eq_some hfind, hid, r.1, (payFee call.txobj iQ).2 ++ r.2, ?_, ?_, ?_, ?_⟩
        · intro e he
          rcases List.mem_append.mp he with he | he
          · rcases payFee_cases call.txobj iQ with hpaid | ⟨_, hpaid⟩ <;> rw [hpaid] at he
            · cases he
            · rw [List.mem_singleton.mp he]
              exact ⟨rfl, rfl⟩
          · rcases respond_cases hrespond with rfl | ⟨_, rfl⟩
            · cases he
            · rw [List.mem_singleton.mp he]
              exact ⟨rfl, rfl⟩
        · intro hfee
          have hsame : r.1.feepaid = (payFee call.txobj iQ).1.feepaid := by
            rcases respond_cases hrespond with rfl | ⟨_, rfl⟩ <;> rfl
          rw [hsame] at hfee
          rcases payFee_cases call.txobj iQ with hpaid | ⟨hfeetx, hpaid⟩ <;> rw [hpaid] at hfee ⊢
          · exact .inl hfee
          · refine .inr ⟨call.txobj, ?_, hfeetx⟩
            rw [hid]
            exact List.mem_cons_self
        · intro hresponded
          have hsame : (payFee call.txobj iQ).1.responded = iQ.responded ∧ (payFee call.txobj iQ).1.quoteid = iQ.quoteid := by
            rcases payFee_cases call.txobj iQ with hpaid | ⟨_, hpaid⟩ <;> rw [hpaid] <;> exact ⟨rfl, rfl⟩
          rcases respond_cases hrespond with rfl | ⟨hresponse, rfl⟩
          · rw [hsame.1] at hresponded
            exact .inl hresponded
          · exact .inr ⟨_, call.txobj, hsame.2.trans hid, List.mem_append_right _ (List.mem_singleton_self _), hresponse⟩
        · split at h
          case isTrue hboth =>
            cases h
            exact .inr ⟨hboth.1, hboth.2, _, rfl⟩
          case isFalse =>
            cases h
            exact .inl rfl

private theorem mem_writeIQ {quotes : List Quote} {f : Quote → Quote} {iQ : Quote} (h : iQ ∈ writeIQ quotes quoteid f) :
    iQ ∈ quotes ∨ ∃ old ∈ quotes, old.quoteid = quoteid ∧ iQ = f old := by
  obtain ⟨old, hold, rfl⟩ := List.mem_map.mp h
  split
  case isTrue hid => exact .inr ⟨old, hold, hid, rfl⟩
  case isFalse => exact .inl hold

theorem Quiet.trades (h : Quiet new) : (s.events ++ new).filterMap Event.releases = s.events.filterMap Event.releases := by
  rw [List.filterMap_append, (h.counts 0).2.2.2, List.append_nil]

theorem Inv.noted (h : Inv env s) {iQ iQ' : Quote} (hmem : iQ ∈ s.quotes) (hid : iQ.quoteid = call.quoteid)
    (hquiet : Quiet new) (hfee : iQ'.feepaid = true → iQ.feepaid = true ∨ FeeSeen call.quoteid new)
    (hresponse : iQ'.responded = true → iQ.responded = true ∨ ResponseSeen env call.quoteid new) :
    Inv env (noted s call iQ' new) ∧
      (iQ'.feepaid = true → FeeSeen call.quoteid (s.events ++ new)) ∧
      (iQ'.responded = true → ResponseSeen env call.quoteid (s.events ++ new)) := by
  have hfee' : iQ'.feepaid = true → FeeSeen call.quoteid (s.events ++ new) := by
    intro hpaid
    rcases hfee hpaid with hpaid | ⟨tx, htx, hseen⟩
    · have hseen := h.fee iQ hmem hpaid
      rw [hid] at hseen
      exact hseen.append new
    · exact ⟨tx, List.mem_append_right _ htx, hseen⟩
  have hresponse' : iQ'.responded = true → ResponseSeen env call.quoteid (s.events ++ new) := by
    intro hresponded
    rcases hresponse hresponded with hresponded | ⟨other, tx, hother, htx, hseen⟩
    · have hseen := h.response iQ hmem hresponded
      rw [hid] at hseen
      exact hseen.append new
    · exact ⟨other, tx, hother, List.mem_append_right _ htx, hseen⟩
  refine ⟨?_, hfee', hresponse'⟩
  refine h.quiet hquiet rfl ?_ ?_ ?_ ?_
  · intro q hq hpaid
    rcases mem_writeIQ hq with hq | ⟨old, _, hold, rfl⟩
    · exact (h.fee q hq hpaid).append new
    · change FeeSeen old.quoteid _
      rw [hold]
      exact hfee' hpaid
  · intro q hq hresponded
    rcases mem_writeIQ hq with hq | ⟨old, _, hold, rfl⟩
    · exact (h.response q hq hresponded).append new
    · change ResponseSeen env old.quoteid _
      rw [hold]
      exact hresponse' hresponded
  · intro q hq hmatched
    rcases mem_writeIQ hq with hq | ⟨old, hold, _, rfl⟩
    · exact (h.matched q hq hmatched).append new
    · exact (h.matched old hold hmatched).append new
  · rw [State.trades]
    change ((s.pingpong0 ++ s.pingpong1 ++ (s.events ++ new).filterMap Event.releases).map Trade.addr).Perm _
    rw [hquiet.trades]
    exact h.held

theorem Inv.moved (h : Inv env s) {queue0 queue1 : List Trade} (hperm : (queue0 ++ queue1).Perm (s.pingpong0 ++ s.pingpong1)) :
    Inv env { s with pingpong0 := queue0, pingpong1 := queue1 } where
  fee := h.fee
  response := h.response
  matched := h.matched
  detected := h.detected
  txbytes := h.txbytes
  triggertx := h.triggertx
  held := ((hperm.append_right _).map _).trans h.held

private theorem release_cases (call : Call) (err : Int) (pend : Trade) :
    release call err pend = ([], false) ∨ (∃ answer, release call err pend = ([.txbytes pend answer], false)) ∨
      ∃ answer matched, release call err pend = ([.txbytes pend (pend.txid, 0), .triggertx pend answer], matched) ∧
        (matched = true → answer = (pend.triggertxid, 0)) := by
  rw [release]
  split
  case isTrue =>
    dsimp only
    split
    case isTrue hfirst =>
      rw [hfirst.1, hfirst.2]
      refine .inr (.inr ⟨_, _, rfl, fun hmatched => ?_⟩)
      obtain ⟨htxid, herrcode⟩ := of_decide_eq_true hmatched
      exact Prod.ext htxid herrcode
    case isFalse => exact .inr (.inl ⟨_, rfl⟩)
  case isFalse => exact .inl rfl

private theorem complete_events (call : Call) (err : Int) (s : State) (pend : Trade) :
    ∃ new, (complete call err s pend).events = s.events ++ new ∧ (∀ e ∈ new, ∀ p, e.sends = some p → p = pend) ∧
      (∀ addr, new.countP (Event.isTxbytes addr) ≤ new.countP (Event.isReleased addr) ∧
        new.countP (Event.isTriggertx addr) ≤ new.countP (Event.isReleased addr)) ∧
      new.filterMap Event.releases = [{ pend with queueflag := true, finishtime := call.finishtime }] ∧
      ((complete call err s pend).quotes = s.quotes ∨
        (complete call err s pend).quotes = writeIQ s.quotes call.quoteid (fun iQ => { iQ with matched := true }) ∧
          .txbytes pend (pend.txid, 0) ∈ new ∧ .triggertx pend (pend.triggertxid, 0) ∈ new) := by
  rw [complete]
  rcases release_cases call err pend with hrelease | ⟨answer, hrelease⟩ | ⟨answer, matched, hrelease, hmatched⟩
  · rw [hrelease]
    refine ⟨[.released { pend with queueflag := true, finishtime := call.finishtime }], ?_, ?_, ?_, rfl, .inl rfl⟩
    · simp only [List.append_nil, Bool.false_eq_true, if_false]
    · intro e he p hp
      rw [List.mem_singleton.mp he] at hp
      cases hp
    · exact fun addr => ⟨Nat.zero_le _, Nat.zero_le _⟩
  · rw [hrelease]
    refine ⟨[.txbytes pend answer, .released { pend with queueflag := true, finishtime := call.finishtime }], ?_, ?_, ?_,
      rfl, .inl rfl⟩
    · simp only [List.append_assoc, Bool.false_eq_true, if_false, List.nil_append, List.cons_append]
    · intro e he p hp
      rcases List.mem_pair.mp he with rfl | rfl <;> cases hp
      rfl
    · intro addr
      by_cases haddr : pend.addr = addr <;>
        simp [Event.isTxbytes, Event.isTriggertx, Event.isReleased, haddr]
  · rw [hrelease]
    refine ⟨[.txbytes pend (pend.txid, 0), .triggertx pend answer] ++ (if matched then [.matched call.quoteid] else []) ++
      [.released { pend with queueflag := true, finishtime := call.finishtime }], ?_, ?_, ?_, ?_, ?_⟩
    · simp only [List.append_assoc]
    · intro e he p hp
      cases matched <;> simp only [if_true, Bool.false_eq_true, if_false, List.append_nil, List.cons_append,
        List.nil_append, List.mem_cons, List.not_mem_nil, or_false] at he
      · rcases he with rfl | rfl | rfl <;> cases hp <;> rfl
      · rcases he with rfl | rfl | rfl | rfl <;> cases hp <;> rfl
    · intro addr
      cases matched <;> by_cases haddr : pend.addr = addr <;>
        simp [Event.isTxbytes, Event.isTriggertx, Event.isReleased, haddr]
    · cases matched <;> rfl
    · cases matched with
      | false => exact .inl rfl
      | true =>
        refine .inr ⟨rfl, List.mem_cons_self, ?_⟩
        rw [hmatched rfl]
        exact List.mem_cons_of_mem _ List.mem_cons_self

/-- Releasing a trade whose fee and response were seen keeps the invariant. -/
theorem Inv.complete (h : Inv env s) {pend : Trade} (err : Int) {queue0 queue1 : List Trade}
    (hperm : (pend :: (queue0 ++ queue1)).Perm (s.pingpong0 ++ s.pingpong1)) (hid : pend.quoteid = call.quoteid)
    (hfee : FeeSeen call.quoteid s.events) (hresponse : ResponseSeen env call.quoteid s.events) :
    Inv env (complete call err { s with pingpong0 := queue0, pingpong1 := queue1 } pend) := by
  obtain ⟨new, hevents, hsends, hcounts, hreleases, hquotes⟩ :=
    complete_events call err { s with pingpong0 := queue0, pingpong1 := queue1 } pend
  have hflags : ∀ iQ ∈ (PendingSwaps.complete call err { s with pingpong0 := queue0, pingpong1 := queue1 } pend).quotes,
      ∃ old ∈ s.quotes, iQ.quoteid = old.quoteid ∧ iQ.feepaid = old.feepaid ∧ iQ.responded = old.responded ∧
        (iQ.matched = true → old.matched = true ∨ iQ.quoteid = pend.quoteid ∧
          .txbytes pend (pend.txid, 0) ∈ new ∧ .triggertx pend (pend.triggertxid, 0) ∈ new) := by
    intro iQ hiQ
    rcases hquotes with hquotes | ⟨hquotes, hboth⟩
    · rw [hquotes] at hiQ
      exact ⟨iQ, hiQ, rfl, rfl, rfl, .inl⟩
    · rw [hquotes] at hiQ
      rcases mem_writeIQ hiQ with hiQ | ⟨old, hmem, hold, rfl⟩
      · exact ⟨iQ, hiQ, rfl, rfl, rfl, .inl⟩
      · exact ⟨old, hmem, rfl, rfl, rfl, fun _ => .inr ⟨hold.trans hid.symm, hboth⟩⟩
  constructor
  · intro iQ hiQ hpaid
    obtain ⟨old, hmem, hidold, hfeeold, _, _⟩ := hflags iQ hiQ
    rw [hevents, hidold]
    exact (h.fee old hmem (hfeeold.symm.trans hpaid)).append new
  · intro iQ hiQ hresponded
    obtain ⟨old, hmem, hidold, _, hrespondedold, _⟩ := hflags iQ hiQ
    rw [hevents, hidold]
    exact (h.response old hmem (hrespondedold.symm.trans hresponded)).append new
  · intro iQ hiQ hmatched
    obtain ⟨old, hmem, hidold, _, _, hmark⟩ := hflags iQ hiQ
    rw [hevents]
    rcases hmark hmatched with hmatchedold | ⟨hidpend, htxbytes, htriggertx⟩
    · rw [hidold]
      exact (h.matched old hmem hmatchedold).append new
    · exact ⟨pend, hidpend.symm, List.mem_append_right _ htxbytes, List.mem_append_right _ htriggertx⟩
  · rw [hevents]
    refine detected_append h.detected fun e he p hp => ?_
    rw [hsends e he p hp, hid]
    exact ⟨hfee, hresponse⟩
  · intro addr
    rw [hevents, List.countP_append, List.countP_append]
    exact Nat.add_le_add (h.txbytes addr) (hcounts addr).1
  · intro addr
    rw [hevents, List.countP_append, List.countP_append]
    exact Nat.add_le_add (h.triggertx addr) (hcounts addr).2
  · refine List.Perm.trans ?_ h.held
    rw [State.trades, hevents, List.filterMap_append, hreleases]
    change ((queue0 ++ queue1 ++ (s.events.filterMap Event.releases ++
      [{ pend with queueflag := true, finishtime := call.finishtime }])).map Trade.addr).Perm s.trades
    have hqueues := (hperm.append_right (s.events.filterMap Event.releases)).map Trade.addr
    refine List.Perm.trans ?_ hqueues
    rw [← List.append_assoc, List.map_append]
    exact List.perm_append_singleton pend.addr _

theorem Inv.matchUnconfirmed (h : Inv env s) (hstep : matchUnconfirmed env s call = some s') : Inv env s' := by
  rcases matchUnconfirmed_cases hstep with rfl | ⟨iQ, hmem, hid, iQ', new, hquiet, hfee, hresponse, hnext⟩
  · exact h
  · obtain ⟨hnoted, hfee', hresponse'⟩ := h.noted hmem hid hquiet hfee hresponse
    rcases hnext with rfl | ⟨hresponded, hpaid, err, rfl⟩
    · exact hnoted
    · obtain ⟨queue0, queue1, ⟨hperm, heq⟩ | ⟨pend, hpend, hperm, heq⟩⟩ := completeSwap_cases call err (PendingSwaps.noted s call iQ' new)
      · rw [heq]
        exact hnoted.moved hperm
      · rw [heq]
        exact hnoted.complete err hperm hpend (hfee' hpaid) (hresponse' hresponded)

private theorem held_push {pingpong0 pingpong1 released : List Trade} {n : Nat} {pend : Trade} (haddr : pend.addr = n)
    (h : ((pingpong0 ++ pingpong1 ++ released).map Trade.addr).Perm (List.range n)) :
    ((pingpong0 ++ [pend] ++ pingpong1 ++ released).map Trade.addr).Perm (List.range (n + 1)) := by
  have hlast : (pingpong0 ++ [pend] ++ pingpong1 ++ released).Perm (pingpong0 ++ pingpong1 ++ released ++ [pend]) := by
    simp only [List.append_assoc]
    refine List.Perm.append_left pingpong0 ?_
    rw [← List.append_assoc pingpong1]
    exact List.perm_append_comm
  rw [List.range_succ, ← haddr]
  refine (hlast.map Trade.addr).trans ?_
  rw [List.map_append, haddr]
  exact (h.append_right _).trans (by rw [List.map_singleton, haddr])

theorem Inv.finishswap (h : Inv env s) (dotrade : Bool) (type : Int) (pend : Trade) (swapbuf triggertx txbytes : String) :
    Inv env (finishswap s dotrade type pend swapbuf triggertx txbytes) := by
  rw [PendingSwaps.finishswap]
  cases dotrade with
  | false => exact h
  | true =>
    have hquiet : Quiet [.busdata swapbuf] := by
      intro e he
      rw [List.mem_singleton.mp he]
      exact ⟨rfl, rfl⟩
    rw [if_pos rfl]
    refine h.quiet hquiet rfl ?_ ?_ ?_ ?_
    · intro iQ hiQ hpaid
      exact (h.fee iQ hiQ hpaid).append _
    · intro iQ hiQ hresponded
      exact (h.response iQ hiQ hresponded).append _
    · intro iQ hiQ hmatched
      exact (h.matched iQ hiQ hmatched).append _
    · rw [State.trades, hquiet.trades]
      exact held_push rfl h.held

theorem Inv.swapResponseNXT (h : Inv env s) (type : Int) (orderid quoteid : Nat) (triggerhash phaselink : Option String)
    (str : String) (feeReply responseReply : Reply) :
    Inv env (swapResponseNXT s type orderid quoteid triggerhash phaselink str feeReply responseReply) := by
  rw [PendingSwaps.swapResponseNXT]
  split
  case isFalse => exact h
  case isTrue =>
    have hquiet : Quiet [] := fun e he => (List.not_mem_nil he).elim
    refine h.quiet hquiet (List.append_nil _).symm ?_ ?_ ?_ (held_push rfl h.held)
    · intro iQ hiQ hpaid
      rcases mem_writeIQ hiQ with hiQ | ⟨old, hold, _, rfl⟩
      · exact h.fee iQ hiQ hpaid
      · exact h.fee old hold hpaid
    · intro iQ hiQ hresponded
      rcases mem_writeIQ hiQ with hiQ | ⟨old, hold, _, rfl⟩
      · exact h.response iQ hiQ hresponded
      · exact h.response old hold hresponded
    · intro iQ hiQ hmatched
      rcases mem_writeIQ hiQ with hiQ | ⟨old, hold, _, rfl⟩
      · exact h.matched iQ hiQ hmatched
      · exact h.matched old hold hmatched

theorem inv_start (env : Env) (quotes : List Quote) : Inv env (start quotes) := by
  have hclear : ∀ iQ ∈ (start quotes).quotes, iQ.feepaid = false ∧ iQ.responded = false ∧ iQ.matched = false := by
    intro iQ hiQ
    obtain ⟨old, _, rfl⟩ := List.mem_map.mp hiQ
    exact ⟨rfl, rfl, rfl⟩
  constructor
  · intro iQ hiQ hpaid
    rw [(hclear iQ hiQ).1] at hpaid
    cases hpaid
  · intro iQ hiQ hresponded
    rw [(hclear iQ hiQ).2.1] at hresponded
    cases hresponded
  · intro iQ hiQ hmatched
    rw [(hclear iQ hiQ).2.2] at hmatched
    cases hmatched
  · intro before e after pend hsplit
    exact absurd hsplit.symm (List.append_ne_nil_of_right_ne_nil _ (List.cons_ne_nil _ _))
  · exact fun _ => le_refl _
  · exact fun _ => le_refl _
  · exact .refl _

theorem inv_run {quotes : List Quote} {ops : List Op} (h : run env (start quotes) ops = some s) : Inv env s := by
  have hfold : ∀ (ops : List Op) (t : State), Inv env t → run env t ops = some s → Inv env s := by
    intro ops
    induction ops with
    | nil =>
      intro t ht h
      cases h
      exact ht
    | cons op ops ih =>
      intro t ht h
      obtain ⟨next, hnext, hrest⟩ := Option.bind_eq_some_iff.mp h
      refine ih next ?_ hrest
      cases op with
      | unconfirmed call => exact ht.matchUnconfirmed hnext
      | finishswap dotrade type pend swapbuf triggertx txbytes =>
        cases hnext
        exact ht.finishswap dotrade type pend swapbuf triggertx txbytes
      | response type orderid quoteid triggerhash phaselink str feeReply responseReply =>
        cases hnext
        exact ht.swapResponseNXT type orderid quoteid triggerhash phaselink str feeReply responseReply
  exact hfold ops _ (inv_start env quotes) h

theorem Inv.nodup (h : Inv env s) : s.trades.Nodup := h.held.nodup_iff.mpr List.nodup_range

theorem Inv.released (h : Inv env s) (addr : Nat) : s.events.countP (Event.isReleased addr) ≤ 1 := by
  have hcount : ∀ events : List Event, events.countP (Event.isReleased addr) =
      ((events.filterMap Event.releases).map Trade.addr).count addr := by
    intro events
    induction events with
    | nil => rfl
    | cons e events ih =>
      rw [List.countP_cons, ih]
      cases e with
      | released pend =>
        change _ = List.count addr (pend.addr :: (events.filterMap Event.releases).map Trade.addr)
        rw [List.count_cons]
        simp only [Event.isReleased, decide_eq_true_eq, beq_iff_eq]
      | _ => rfl
  have hnodup := h.nodup
  rw [State.trades, List.map_append] at hnodup
  rw [hcount]
  exact List.nodup_iff_count_le_one.mp (List.nodup_append.mp hnodup).2.1 addr

theorem Inv.safe (h : Inv env s) : Safe env s where
  once := fun addr => ⟨(h.txbytes addr).trans (h.released addr), (h.triggertx addr).trans (h.released addr)⟩
  detected := h.detected
  matched := h.matched
  held := h.held

theorem Inv.keeps (h : Inv env s) (hstep : PendingSwaps.matchUnconfirmed env s call = some s') : Keeps call.quoteid s s' := by
  constructor
  · rcases matchUnconfirmed_cases hstep with rfl | ⟨iQ, _, _, iQ', new, _, _, _, rfl | ⟨_, _, err, rfl⟩⟩
    · exact .refl _
    · exact .refl _
    · obtain ⟨queue0, queue1, ⟨hperm, heq⟩ | ⟨pend, hpend, hperm, heq⟩⟩ := completeSwap_cases call err (PendingSwaps.noted s call iQ' new)
      · rw [heq]
        exact hperm.filter _
      · rw [heq]
        have hfilter := hperm.filter fun pend => decide (pend.quoteid ≠ call.quoteid)
        rw [List.filter_cons, if_neg (by simpa using hpend)] at hfilter
        exact hfilter
  · have hnodup := (h.matchUnconfirmed hstep).nodup
    rw [State.trades, List.map_append] at hnodup
    exact (List.nodup_append.mp hnodup).1

end Invariant

/-- In every run a pending trade is released at most once and only when its fee and its response have come in, and a
call for one quote leaves the trades of the others in the queues. -/
theorem run_safe {env : Env} {quotes : List Quote} {ops : List Op} {s : State} (h : run env (start quotes) ops = some s) :
    Safe env s ∧ ∀ call s', matchUnconfirmed env s call = some s' → Keeps call.quoteid s s' :=
  ⟨(inv_run h).safe, fun _ _ hstep => (inv_run h).keeps hstep⟩

def sampleEnv : Env := ⟨"5", 5, fun _ => 100⟩

def sampleQuote : Quote :=
  ⟨2, 3, 1, 7, 0, 0, NXT_ASSETID, 99, 200, 300, 0, 3600, false, false, false, false, false, true, false, false, false, false, true,
    0, 0, 0, 0, [], []⟩

def sampleTrade : Trade := ⟨0, 1, 40, 11, 12, none, none, "", 0, false, false, 0⟩

def feeCall : Call :=
  ⟨40, 1, ⟨4383817337783094122, 120, 1000, 0, 0, INSTANTDEX_FEE, none⟩, INSTANTDEX_ACCT, 1010, .failed, .failed, 1438300000⟩

def responseCall : Call :=
  ⟨40, 1, ⟨5, 120, 1000, 2, 1, 0, some (99, 3)⟩, "5", 1020, .transaction 11, .transaction 12, 1438300010⟩

def sampleOps : List Op :=
  [.finishswap true 84 sampleTrade "swap" "trigger" "send", .unconfirmed feeCall, .unconfirmed responseCall]

def queuedTrade : Trade := ⟨0, 1, 40, 11, 12, some "trigger", some "send", "swap", 84, true, true, 0⟩

/-- The quote is matched, and the trade has left the queues. -/
def sampleEnd : State where
  quotes := [{ sampleQuote with feepaid := true, responded := true, matched := true }]
  pingpong0 := []
  pingpong1 := []
  allocated := 1
  events := [.busdata "swap", .fee 1 feeCall.txobj, .response { sampleQuote with feepaid := true } responseCall.txobj,
    .txbytes queuedTrade (11, 0), .triggertx queuedTrade (12, 0), .matched 1,
    .released { queuedTrade with finishtime := 1438300010 }]

theorem sampleOps_safe : Safe sampleEnv sampleEnd := by
  have hrun : run sampleEnv (start [sampleQuote]) sampleOps = some sampleEnd := rfl
  exact (run_safe hrun).1

end SuperNet.InstantDEX.PendingSwaps
