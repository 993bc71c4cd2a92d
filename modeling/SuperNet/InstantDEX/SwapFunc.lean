import SuperNet.InstantDEX.SubatomicRefund
import SuperNet.Utils.NXT777
import Mathlib.Logic.Function.Basic

/-! The wallet swaps of trades.h: `prices777_tradewallet` and `swap_func`, and when they send out a coin's funding
transaction. The NXT side of a swap (trigger, phased transaction, approval) does not touch what a coin holds. -/
namespace SuperNet.InstantDEX.SwapFunc
open Subatomic Utils.Hex Coins.Cointx
open Utils.NXT777 (NXT_ASSETID)

/-- The fields of a message; `coinstr` reads the field with the name of a coin in front. -/
structure Message where
  jstr : String → Option Text
  j64bits : String → UInt64
  coinstr : Text → String → Option Text

/-- The quote that `find_iQ` returns, or one of zeros. -/
structure Quote where
  isask : Bool
  responded : Bool
  baseid : UInt64

/-- What `swap_func` asks for while it works on a message. -/
structure Replies where
  iQ : Quote
  node : Node
  verifyNXT : Int

/-- A funding transaction that a refund was returned for, with the redeem script of the two and what it was made of. -/
structure Funding where
  signedtransaction : Text
  redeemscript : Text
  pubA : Text
  pubB : Text
  pkhash : Text
  deriving DecidableEq

/-- What a coin was used for: a funding, and a transaction that was sent out with the refund signed for it. -/
inductive Entry where
  | funded (coin : Text) (funding : Funding)
  | broadcast (coin : Text) (signedtransaction signedrefund : Text)
  deriving DecidableEq

structure Swaps where
  coins : Text → Option Coin777
  log : List Entry

def created (conf : CoinConf) : Coin777 := ⟨conf, .clear, none, none⟩

/-- The account of this node and the configuration of the coins. -/
structure Daemon where
  nxtaddr : Text
  my64bits : UInt64
  conf : Text → CoinConf

def Swaps.store (s : Swaps) (name : Text) (coin : Coin777) : Swaps :=
  { s with coins := Function.update s.coins name (some coin) }

@[simp] theorem Swaps.store_coins (s : Swaps) (name : Text) (coin : Coin777) :
    (s.store name coin).coins = Function.update s.coins name (some coin) := rfl

def coin777Find (d : Daemon) (s : Swaps) (name : Text) : Coin777 := (s.coins name).getD (created (d.conf name))

variable {η κ ρ : Type} (L : Library η κ ρ) (d : Daemon)

/-- The funding that both functions start, unless one is pending. -/
def startFunding (node : Node) (s : Swaps) (name : Text) (coin : Coin777) (pubA pubB pkhash : Text) (amount : UInt64)
    (lockblocks : UInt32) : Option Swaps :=
  if coin.funding.signedtransaction ≠ [] then some s
  else
    match subatomicFundingtx L node coin pubA pubB pkhash amount lockblocks with
    | none => none
    | some (coin, _, none) => some (s.store name coin)
    | some (coin, refredeemscript, some refundtx) =>
      some { s.store name { coin with refundtx := some refundtx } with
        log := .funded name ⟨coin.funding.signedtransaction, refredeemscript, pubA, pubB, pkhash⟩ :: s.log }

/-- An own order for a wallet swap. -/
structure Trade where
  recvstr : Text
  sendstr : Text
  recvamount : UInt64
  rpubA : Option Text
  rpubB : Option Text
  rpkhash : Option Text
  finishin : UInt32

/-- `prices777_tradewallet` as far as it concerns the coin to receive; selling for NXT sends the quote only. -/
def prices777Tradewallet (s : Swaps) (t : Trade) (node : Node) : Option Swaps :=
  let recvcoin := coin777Find d s t.recvstr
  let s := s.store t.recvstr recvcoin
  let s := s.store t.sendstr (coin777Find d s t.sendstr)
  if t.recvstr = ['N', 'X', 'T'] then some s
  else if t.recvamount < recvcoin.txfee then some s
  else
    match t.rpubA, t.rpubB, t.rpkhash with
    | none, _, _ => none
    | some rpubA, some rpubB, some rpkhash =>
      if rpubA ≠ [] then startFunding L node s t.recvstr recvcoin rpubA rpubB rpkhash t.recvamount t.finishin else some s
    | some _, _, _ => some s

/-- The end of an accepted release: the funding is sent out, then what the coin holds is cleared. -/
def sendFunding (s : Swaps) (name : Text) (coin : Coin777) (signedrefund : Text) : Swaps :=
  { s.store name { coin with funding := .clear, refundtx := none, signedrefund := none } with
    log := .broadcast name coin.funding.signedtransaction signedrefund :: s.log }

def myoffer (msg : Message) : Bool := d.nxtaddr = (msg.jstr "offerNXT").getD []

def myfill (msg : Message) : Bool := d.my64bits = msg.j64bits "fillNXT"

def Replies.isask (r : Replies) : Bool := r.iQ.isask ^^ decide (r.iQ.baseid.toNat = NXT_ASSETID)

def spendsFunding (msg : Message) (r : Replies) : Bool :=
  ((r.isask && myoffer d msg) || (!r.isask && myfill d msg)) && msg.j64bits "fill" ≠ d.my64bits &&
    (msg.jstr "rtx").isSome && (msg.jstr "rs").isSome

/-- `swap_func` on a message with `recvcoin`. -/
def swapRecv (s : Swaps) (msg : Message) (r : Replies) (recvstr : Text) (recvcoin : Coin777) : Option Swaps :=
  match msg.coinstr recvstr "pubA", msg.coinstr recvstr "pubB", msg.coinstr recvstr "pkhash" with
  | some rpubA, some rpubB, some rpkhash =>
    if msg.j64bits "recvamount" = 0 then some s
    else if spendsFunding d msg r then some s
    else if msg.j64bits "fill" = d.my64bits then some s
    else
      match msg.jstr "refundsig", msg.jstr "phasedtx" with
      | some refundsig, some phasedtx =>
        if refundsig = [] ∨ phasedtx = [] ∨ r.verifyNXT ≠ 0 then some s
        else
          match recvcoin.refundtx with
          | none => some s
          | some refundtx =>
            match subatomicValidate L r.node recvcoin rpubA rpubB rpkhash refundtx refundsig with
            | none => none
            | some none => some (s.store recvstr { recvcoin with signedrefund := none })
            | some (some signedrefund) => some (sendFunding s recvstr recvcoin signedrefund)
      | _, _ => some s
  | _, _, _ => some s

/-- `swap_func` on a message with `sendcoin`. -/
def swapSend (s : Swaps) (msg : Message) (r : Replies) (sendstr : Text) (sendcoin : Coin777) : Option Swaps :=
  match msg.coinstr sendstr "pubA", msg.coinstr sendstr "pubB", msg.coinstr sendstr "pkhash" with
  | some spubA, some spubB, some spkhash =>
    if !((!r.isask && myoffer d msg) || (r.isask && myfill d msg)) ∨ msg.j64bits "sendamount" = 0 ∨
        (msg.jstr "T" = none ∧ msg.jstr "trigger" = none) then some s
    else if msg.jstr "base" = none ∨ msg.jstr "rel" = none ∨ msg.j64bits "recvasset" = 0 ∨ msg.j64bits "recvqty" = 0 then
      some s
    else startFunding L r.node s sendstr sendcoin spubA spubB spkhash (msg.j64bits "sendamount") 10
  | _, _, _ => some s

/-- `swap_func`; `none` when it uses a coin that is not known. Another exchange than the wallet only moves NXT assets. -/
def swapFunc (s : Swaps) (msg : Message) (r : Replies) : Option Swaps :=
  if !(myoffer d msg || myfill d msg) then some s
  else if r.iQ.responded then some s
  else if msg.jstr "exchange" ≠ some ['w', 'a', 'l', 'l', 'e', 't'] then some s
  else
    match msg.jstr "recvcoin", msg.jstr "sendcoin" with
    | some _, some _ => some s
    | some recvstr, none =>
      match s.coins recvstr with
      | none => none
      | some recvcoin => swapRecv L d s msg r recvstr recvcoin
    | none, some sendstr =>
      match s.coins sendstr with
      | none => none
      | some sendcoin => swapSend L d s msg r sendstr sendcoin
    | none, none => some s

inductive Event where
  | message (msg : Message) (replies : Replies)
  | trade (t : Trade) (node : Node)

def step (s : Swaps) : Event → Option Swaps
  | .message msg replies => swapFunc L d s msg replies
  | .trade t node => prices777Tradewallet L d s t node

def run : Swaps → List Event → Option Swaps
  | s, [] => some s
  | s, e :: es => (step L d s e).bind (run · es)

def start (loaded : Text → Bool) : Swaps :=
  ⟨fun name => if loaded name then some (created (d.conf name)) else none, []⟩

def lastFunded (name : Text) : List Entry → Option Funding
  | [] => none
  | .funded coin funding :: log => if coin = name then some funding else lastFunded name log
  | .broadcast _ _ _ :: log => lastFunded name log

/-- Every funding transaction in the log was sent out behind a refund for it. -/
def Backed (log : List Entry) : Prop :=
  ∀ after name signedtransaction signedrefund before,
    log = after ++ .broadcast name signedtransaction signedrefund :: before →
      ∃ funding, lastFunded name before = some funding ∧ signedtransaction = funding.signedtransaction ∧
        Refunds L (d.conf name).oldtxFormat signedtransaction funding.redeemscript funding.pubB signedrefund

/-- A message that gets as far as `subatomic_validate`, with what that is called with. -/
structure Release (s : Swaps) (msg : Message) (r : Replies) (name : Text) (coin : Coin777)
    (pubA pubB pkhash refundtx refundsig : Text) : Prop where
  party : myoffer d msg || myfill d msg
  responded : r.iQ.responded = false
  exchange : msg.jstr "exchange" = some ['w', 'a', 'l', 'l', 'e', 't']
  recvcoin : msg.jstr "recvcoin" = some name
  sendcoin : msg.jstr "sendcoin" = none
  known : s.coins name = some coin
  pubA : msg.coinstr name "pubA" = some pubA
  pubB : msg.coinstr name "pubB" = some pubB
  pkhash : msg.coinstr name "pkhash" = some pkhash
  recvamount : msg.j64bits "recvamount" ≠ 0
  fill : msg.j64bits "fill" ≠ d.my64bits
  funds : ¬ spendsFunding d msg r
  signed : refundsig ≠ []
  refundsig : msg.jstr "refundsig" = some refundsig
  phasedtx : (msg.jstr "phasedtx").getD [] ≠ []
  verifyNXT : r.verifyNXT = 0
  refundtx : coin.refundtx = some refundtx

/-- The keys and the hash are the ones that the funding was made for. -/
structure Funding.Matches (funding : Funding) (pubA pubB pkhash : Text) : Prop where
  pubA : decodeHex 33 pubA = decodeHex 33 funding.pubA
  pubB : decodeHex 33 pubB = decodeHex 33 funding.pubB
  pkhash : decodeHex 20 pkhash = decodeHex 20 funding.pkhash

/-- What is asked of an event: transactions end in their fields, and a release whose signature is tested is for the keys
of the last funding, with a signature that verifies. -/
def Careful (s : Swaps) : Event → Prop
  | .trade _ node => node.Ends
  | .message msg r => r.node.Ends ∧
    ∀ name coin pubA pubB pkhash refundtx refundsig own verified,
      Release d s msg r name coin pubA pubB pkhash refundtx refundsig →
      Tested L r.node coin pubA pubB pkhash refundtx refundsig own verified →
        (∀ funding, lastFunded name s.log = some funding → funding.Matches pubA pubB pkhash) ∧
        Sound pubB refundsig own verified

/-- Every event is careful in the state that it meets. -/
def Throughout : Swaps → List Event → Prop
  | _, [] => True
  | s, e :: es => Careful L d s e ∧ ∀ s', step L d s e = some s' → Throughout s' es

section
variable {L : Library η κ ρ} {d : Daemon}

theorem startFunding_some {node : Node} {s s' : Swaps} {name : Text} {coin : Coin777}
    {pubA pubB pkhash : Text} {amount : UInt64} {lockblocks : UInt32}
    (h : startFunding L node s name coin pubA pubB pkhash amount lockblocks = some s') :
    s' = s ∨ coin.funding.signedtransaction = [] ∧ ∃ coin' redeemscript refundtx,
      subatomicFundingtx L node coin pubA pubB pkhash amount lockblocks = some (coin', redeemscript, refundtx) ∧
      (refundtx = none ∧ s' = s.store name coin' ∨ ∃ refund, refundtx = some refund ∧
        s' = { s.store name { coin' with refundtx := some refund } with
          log := .funded name ⟨coin'.funding.signedtransaction, redeemscript, pubA, pubB, pkhash⟩ :: s.log }) := by
  unfold startFunding at h
  split at h
  · cases h
    exact Or.inl rfl
  · rename_i hempty
    rw [not_not] at hempty
    refine Or.inr ⟨hempty, ?_⟩
    split at h
    · cases h
    · rename_i coin' redeemscript hfund
      cases h
      exact ⟨coin', redeemscript, none, hfund, Or.inl ⟨rfl, rfl⟩⟩
    · rename_i coin' redeemscript refund hfund
      cases h
      exact ⟨coin', redeemscript, some refund, hfund, Or.inr ⟨refund, rfl, rfl⟩⟩

/-- What a message with `recvcoin` can do behind the first tests: nothing, or get the refund of the coin validated. -/
theorem swapRecv_some {s s' : Swaps} {msg : Message} {r : Replies} {name : Text} {coin : Coin777}
    (hparty : myoffer d msg || myfill d msg) (hresponded : r.iQ.responded = false)
    (hexchange : msg.jstr "exchange" = some ['w', 'a', 'l', 'l', 'e', 't']) (hrecv : msg.jstr "recvcoin" = some name)
    (hsend : msg.jstr "sendcoin" = none) (hcoin : s.coins name = some coin) (h : swapRecv L d s msg r name coin = some s') :
    s' = s ∨ ∃ pubA pubB pkhash refundtx refundsig, Release d s msg r name coin pubA pubB pkhash refundtx refundsig ∧
      (s' = s.store name { coin with signedrefund := none } ∨
        ∃ signedrefund, subatomicValidate L r.node coin pubA pubB pkhash refundtx refundsig = some (some signedrefund) ∧
          s' = sendFunding s name coin signedrefund) := by
  unfold swapRecv at h
  split at h
  case h_2 =>
    cases h
    exact Or.inl rfl
  case h_1 pubA pubB pkhash hpubA hpubB hpkhash =>
    split at h
    · cases h
      exact Or.inl rfl
    rename_i hamount
    split at h
    · cases h
      exact Or.inl rfl
    rename_i hspends
    split at h
    · cases h
      exact Or.inl rfl
    rename_i hfill
    split at h
    case h_2 =>
      cases h
      exact Or.inl rfl
    case h_1 refundsig phasedtx hrefundsig hphasedtx =>
      split at h
      · cases h
        exact Or.inl rfl
      rename_i hchecks
      simp only [not_or, not_not] at hchecks
      split at h
      · cases h
        exact Or.inl rfl
      · rename_i refundtx hrefund
        have hrelease : Release d s msg r name coin pubA pubB pkhash refundtx refundsig :=
          { party := hparty, responded := hresponded, exchange := hexchange, recvcoin := hrecv, sendcoin := hsend,
            known := hcoin, pubA := hpubA, pubB := hpubB, pkhash := hpkhash, recvamount := hamount, fill := hfill,
            funds := hspends, refundsig := hrefundsig, signed := hchecks.1,
            phasedtx := by rw [hphasedtx]; exact hchecks.2.1, verifyNXT := hchecks.2.2, refundtx := hrefund }
        refine Or.inr ⟨pubA, pubB, pkhash, refundtx, refundsig, hrelease, ?_⟩
        split at h
        · cases h
        · cases h
          exact Or.inl rfl
        · rename_i signedrefund hvalid
          cases h
          exact Or.inr ⟨signedrefund, hvalid, rfl⟩

theorem swapSend_some {s s' : Swaps} {msg : Message} {r : Replies} {name : Text} {coin : Coin777}
    (h : swapSend L d s msg r name coin = some s') :
    s' = s ∨ ∃ pubA pubB pkhash amount, startFunding L r.node s name coin pubA pubB pkhash amount 10 = some s' := by
  unfold swapSend at h
  split at h
  case h_2 =>
    cases h
    exact Or.inl rfl
  case h_1 pubA pubB pkhash hpubA hpubB hpkhash =>
    split at h
    · cases h
      exact Or.inl rfl
    · split at h
      · cases h
        exact Or.inl rfl
      · exact Or.inr ⟨pubA, pubB, pkhash, _, h⟩

/-- What a message can do: nothing, start a funding, or get the refund of a coin validated. -/
theorem swapFunc_some {s s' : Swaps} {msg : Message} {r : Replies} (h : swapFunc L d s msg r = some s') :
    s' = s ∨
    (∃ name coin pubA pubB pkhash amount, s.coins name = some coin ∧
      startFunding L r.node s name coin pubA pubB pkhash amount 10 = some s') ∨
    ∃ name coin pubA pubB pkhash refundtx refundsig, Release d s msg r name coin pubA pubB pkhash refundtx refundsig ∧
      (s' = s.store name { coin with signedrefund := none } ∨
        ∃ signedrefund, subatomicValidate L r.node coin pubA pubB pkhash refundtx refundsig = some (some signedrefund) ∧
          s' = sendFunding s name coin signedrefund) := by
  unfold swapFunc at h
  split at h
  · cases h
    exact Or.inl rfl
  rename_i hparty
  rw [Bool.not_eq_true, Bool.not_eq_false'] at hparty
  split at h
  · cases h
    exact Or.inl rfl
  rename_i hresponded
  split at h
  · cases h
    exact Or.inl rfl
  rename_i hexchange
  split at h
  · cases h
    exact Or.inl rfl
  · rename_i name hrecv hsend
    split at h
    · cases h
    · rename_i coin hcoin
      rcases swapRecv_some hparty (by simpa using hresponded) (not_not.mp hexchange) hrecv hsend hcoin h with
        hsame | ⟨pubA, pubB, pkhash, refundtx, refundsig, hrelease, hdone⟩
      · exact Or.inl hsame
      · exact Or.inr (Or.inr ⟨name, coin, pubA, pubB, pkhash, refundtx, refundsig, hrelease, hdone⟩)
  · rename_i name hrecv hsend
    split at h
    · cases h
    · rename_i coin hcoin
      rcases swapSend_some h with hsame | ⟨pubA, pubB, pkhash, amount, hstart⟩
      · exact Or.inl hsame
      · exact Or.inr (Or.inl ⟨name, coin, pubA, pubB, pkhash, amount, hcoin, hstart⟩)
  · cases h
    exact Or.inl rfl

/-- A refund that a coin holds is for its last funding, which the coin still holds with it. -/
structure Held (L : Library η κ ρ) (d : Daemon) (log : List Entry) (name : Text) (coin : Coin777) : Prop where
  oldtx : coin.oldtxFormat = (d.conf name).oldtxFormat
  refund : ∀ refundtx, coin.refundtx = some refundtx → coin.funding.signedtransaction ≠ [] ∧
    ∃ funding, lastFunded name log = some funding ∧ funding.signedtransaction = coin.funding.signedtransaction ∧
      createAtomictxScripts funding.pubA funding.pubB funding.pkhash = some funding.redeemscript ∧
      Spends L coin.oldtxFormat funding.signedtransaction refundtx

structure Kept (L : Library η κ ρ) (d : Daemon) (s : Swaps) : Prop where
  held : ∀ name coin, s.coins name = some coin → Held L d s.log name coin
  backed : Backed L d s.log

theorem Kept.store {s : Swaps} (h : Kept L d s) {name : Text} {coin : Coin777} (hcoin : Held L d s.log name coin) :
    Kept L d (s.store name coin) := by
  refine ⟨fun name' coin' hc => ?_, h.backed⟩
  by_cases hn : name' = name
  · subst hn
    rw [Swaps.store_coins, Function.update_self] at hc
    cases hc
    exact hcoin
  · rw [Swaps.store_coins, Function.update_of_ne hn] at hc
    exact h.held name' coin' hc

theorem Held.other {log : List Entry} {name name' : Text} {coin : Coin777} (h : Held L d log name coin) (hn : name' ≠ name)
    (funding : Funding) : Held L d (.funded name' funding :: log) name coin :=
  ⟨h.oldtx, fun refundtx hr => by rw [lastFunded, if_neg hn]; exact h.refund refundtx hr⟩

theorem Backed.funded {log : List Entry} (h : Backed L d log) (name : Text) (funding : Funding) :
    Backed L d (.funded name funding :: log) := by
  intro after name' signedtransaction signedrefund before heq
  cases after with
  | nil => cases heq
  | cons e after => exact h after name' signedtransaction signedrefund before (List.cons.inj heq).2

theorem Backed.broadcast {log : List Entry} (h : Backed L d log) {name : Text} {funding : Funding} {signedrefund : Text}
    (hlast : lastFunded name log = some funding)
    (hrefunds : Refunds L (d.conf name).oldtxFormat funding.signedtransaction funding.redeemscript funding.pubB signedrefund) :
    Backed L d (.broadcast name funding.signedtransaction signedrefund :: log) := by
  intro after name' signedtransaction' signedrefund' before heq
  cases after with
  | nil =>
    cases heq
    exact ⟨funding, hlast, rfl, hrefunds⟩
  | cons e after => exact h after name' signedtransaction' signedrefund' before (List.cons.inj heq).2

/-- A coin without a transaction to send holds no refund, so a new funding replaces none. -/
theorem startFunding_kept (hL : L.Documented) {node : Node} (hends : node.Ends) {s s' : Swaps} {name : Text}
    {coin : Coin777} {pubA pubB pkhash : Text} {amount : UInt64} {lockblocks : UInt32} (h : Kept L d s)
    (hcoin : Held L d s.log name coin)
    (hs : startFunding L node s name coin pubA pubB pkhash amount lockblocks = some s') : Kept L d s' := by
  rcases startFunding_some hs with rfl | ⟨hempty, coin', redeemscript, refundtx, hfund, hcase⟩
  · exact h
  obtain ⟨hformat, hkept, hrefund⟩ := subatomicFundingtx_some hL hends hfund
  have hnone : coin.refundtx = none := by
    cases hr : coin.refundtx with
    | none => rfl
    | some refundtx => exact absurd hempty (hcoin.refund refundtx hr).1
  rcases hcase with ⟨-, rfl⟩ | ⟨refund, rfl, rfl⟩
  · refine h.store ⟨hformat.trans hcoin.oldtx, fun refundtx hr => ?_⟩
    rw [hkept, hnone] at hr
    cases hr
  · obtain ⟨hscript, hspends⟩ := hrefund refund rfl
    refine ⟨fun name' held hc => ?_, h.backed.funded _ _⟩
    by_cases hn : name' = name
    · subst hn
      have hc' : Function.update s.coins name' (some { coin' with refundtx := some refund }) name' = some held := hc
      rw [Function.update_self] at hc'
      cases hc'
      refine ⟨hformat.trans hcoin.oldtx, fun refundtx hr => ?_⟩
      cases hr
      have hne : coin'.funding.signedtransaction ≠ [] := by
        intro hnil
        obtain ⟨T, vin, -, -, htxid, -⟩ := hspends
        rw [hnil, hL.empty] at htxid
        cases htxid
      refine ⟨hne, _, if_pos rfl, rfl, hscript, ?_⟩
      dsimp only
      rw [hformat]
      exact hspends
    · have hc' : Function.update s.coins name (some { coin' with refundtx := some refund }) name' = some held := hc
      rw [Function.update_of_ne hn] at hc'
      exact (h.held name' held hc').other (Ne.symm hn) _

theorem coin777Find_held {s : Swaps} (h : Kept L d s) (name : Text) : Held L d s.log name (coin777Find d s name) := by
  unfold coin777Find
  cases hg : s.coins name with
  | none => exact ⟨rfl, fun refundtx hr => nomatch hr⟩
  | some coin => exact h.held name coin hg

theorem tradewallet_kept (hL : L.Documented) {s s' : Swaps} {t : Trade} {node : Node} (hends : node.Ends)
    (h : Kept L d s) (hs : prices777Tradewallet L d s t node = some s') : Kept L d s' := by
  have hrecv := coin777Find_held h t.recvstr
  have hfirst := h.store hrecv
  have hstore := hfirst.store (coin777Find_held hfirst t.sendstr)
  unfold prices777Tradewallet at hs
  dsimp only at hs
  repeat' split at hs
  any_goals
    cases hs
    exact hstore
  · cases hs
  · exact startFunding_kept hL hends hstore hrecv hs

/-- The script of a release is that of the funding, when it names the same keys and the same hash. -/
theorem Funding.Matches.script {funding : Funding} {pubA pubB pkhash : Text} (h : funding.Matches pubA pubB pkhash) :
    createAtomictxScripts pubA pubB pkhash = createAtomictxScripts funding.pubA funding.pubB funding.pkhash := by
  simp only [createAtomictxScripts, decodeInto, h.pubA, h.pubB, h.pkhash]

theorem step_kept (hL : L.Documented) {s s' : Swaps} {e : Event} (h : Kept L d s) (he : Careful L d s e)
    (hs : step L d s e = some s') : Kept L d s' := by
  cases e with
  | trade t node => exact tradewallet_kept hL he h hs
  | message msg r =>
    obtain ⟨hends, hcareful⟩ := he
    rcases swapFunc_some hs with rfl | ⟨name, coin, pubA, pubB, pkhash, amount, hcoin, hstart⟩ |
      ⟨name, coin, pubA, pubB, pkhash, refundtx, refundsig, hrelease, hcase⟩
    · exact h
    · exact startFunding_kept hL hends h (h.held name coin hcoin) hstart
    · have hheld := h.held name coin hrelease.known
      obtain ⟨-, funding, hlast, hsame, hscript, hspends⟩ := hheld.refund refundtx hrelease.refundtx
      rcases hcase with rfl | ⟨signedrefund, hvalid, rfl⟩
      · exact h.store ⟨hheld.oldtx, hheld.refund⟩
      · have hsound := fun own verified htested => hcareful name coin pubA pubB pkhash refundtx refundsig own verified
          hrelease htested
        obtain ⟨own, verified, redeemscript, htested, hscript', hrefunds⟩ :=
          subatomicValidate_refunds hL hspends (fun own verified ht => (hsound own verified ht).2) hvalid
        have hmatch := (hsound own verified htested).1 funding hlast
        rw [hmatch.script, hscript] at hscript'
        cases hscript'
        rw [hheld.oldtx] at hrefunds
        have hbroadcast := h.backed.broadcast hlast (hrefunds.ofKey hmatch.pubB)
        rw [hsame] at hbroadcast
        refine ⟨fun name' held hc => ?_, hbroadcast⟩
        by_cases hn : name' = name
        · subst hn
          have hc' : Function.update s.coins name'
              (some { coin with funding := .clear, refundtx := none, signedrefund := none }) name' = some held := hc
          rw [Function.update_self] at hc'
          cases hc'
          exact ⟨hheld.oldtx, fun refundtx hr => nomatch hr⟩
        · have hc' : Function.update s.coins name
              (some { coin with funding := .clear, refundtx := none, signedrefund := none }) name' = some held := hc
          rw [Function.update_of_ne hn] at hc'
          exact ⟨(h.held name' held hc').oldtx, (h.held name' held hc').refund⟩

theorem run_kept (hL : L.Documented) {s s' : Swaps} {es : List Event} (h : Kept L d s) (hes : Throughout L d s es)
    (hs : run L d s es = some s') : Kept L d s' := by
  induction es generalizing s with
  | nil =>
    cases hs
    exact h
  | cons e es ih =>
    obtain ⟨t, ht, hs⟩ := Option.bind_eq_some_iff.mp hs
    exact ih (step_kept hL h hes.1 ht) (hes.2 t ht) hs

theorem start_kept (loaded : Text → Bool) : Kept L d (start d loaded) := by
  refine ⟨fun name coin hc => ?_, fun after _ _ _ _ heq => ?_⟩
  · simp only [start, Option.ite_none_right_eq_some, Option.some.injEq] at hc
    obtain ⟨-, rfl⟩ := hc
    exact ⟨rfl, fun refundtx hr => nomatch hr⟩
  · cases after with
    | nil => cases heq
    | cons e after => cases heq

end

def btc : Text := ['B', 'T', 'C']

def samplePubA : Text := "0279be667ef9dcbbac55a06295ce870b07029bfcdb2dce28d959f2815b16f81798".toList

def samplePubB : Text := "02c6047f9441ed7d6d3045406e95c07cd85c778e4b8cef3ca7abac09b95c709ee5".toList

def samplePkhash : Text := "06afd46bcdfd22ef94ac122aa11f241244a37ecc".toList

/-- A library with one signature for each key, here its last byte; the funding has the txid 11..11. -/
def sampleLibrary : Library (List UInt8) UInt8 UInt8 where
  calcOpHash160 _ := List.replicate 20 0x75
  calcSha256Twice data := data
  btcSetprivkey privkeystr := UInt8.ofNat privkeystr.length
  btcGetpubkey _ := none
  bpPubkeySet key := key.getLast?
  bpSign key _ := some [0x30, key]
  bpVerify key _ sig := sig == [0x30, key]
  decodetxid tx := if tx = [] then none else some (List.replicate 64 '1')

theorem sampleLibrary_documented : sampleLibrary.Documented where
  hash160 _ := rfl
  sign key hash2 sig h := by
    cases h
    exact Nat.le_of_ble_eq_true rfl
  txid tx txid h := by
    obtain ⟨-, h⟩ := Option.ite_none_left_eq_some.mp h
    cases h
    exact ⟨⟨List.all_eq_true.mp (by decide), by decide⟩, by decide⟩
  empty := rfl

def sampleDaemon : Daemon := ⟨['1'], 1, fun _ => ⟨0, 5, true, 1, 10000, [], []⟩⟩

/-- A node during calls in which base58 has no memory left, with an address of its own still on the stack. -/
def sampleNode : Node where
  time := 1440000000
  RTblocknum := 370000
  unspents := [⟨1000000, 0, 6, [], "1BgGZ9tcN4rm9KBzDn7KprQz87SZ26SAMH".toList, []⟩]
  createrawtransaction _ _ := some (List.replicate 8 '0')
  signrawtransaction _ _ := some (List.replicate 10 '0')
  dumpprivkey _ := some ['L']
  base58EncodeCheck _ _ := none
  mycoinaddr := "1BgGZ9tcN4rm9KBzDn7KprQz87SZ26SAMH".toList
  memory _ := 0
  stray := 0

/-- A message with the texts that are listed, for an offer of this node. -/
def sampleMessage (texts : List (String × Text)) : Message where
  jstr field := texts.lookup field
  j64bits field := if field = "fill" then 2 else 20000
  coinstr _ field := texts.lookup field

def sampleKeys : List (String × Text) :=
  [("offerNXT", ['1']), ("exchange", "wallet".toList), ("pubA", samplePubA), ("pubB", samplePubB), ("pkhash", samplePkhash)]

def sampleFunding : Event := .message
  (sampleMessage (sampleKeys ++ [("sendcoin", btc), ("T", ['1']), ("base", btc), ("rel", ['N', 'X', 'T'])]))
  ⟨⟨false, false, 1⟩, sampleNode, 0⟩

/-- The message that gets the funding sent out, with the signature of the other side. -/
def sampleRelease (refundsig : Text) : Event := .message
  (sampleMessage (sampleKeys ++ [("recvcoin", btc), ("refundsig", refundsig), ("phasedtx", ['0', '0'])]))
  ⟨⟨false, false, 1⟩, sampleNode, 0⟩

def sampleStart : Swaps := start sampleDaemon (· == btc)

def sampleEntry : Funding :=
  ⟨List.replicate 10 '0', (createAtomictxScripts samplePubA samplePubB samplePkhash).getD [], samplePubA, samplePubB,
    samplePkhash⟩

def sentRefund : List Entry → Text
  | .broadcast _ _ signedrefund :: _ => signedrefund
  | _ => []

end SuperNet.InstantDEX.SwapFunc
