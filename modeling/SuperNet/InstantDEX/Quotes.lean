import SuperNet.Lib.Words
import Mathlib.Data.Rat.Floor
import Mathlib.Data.List.Nodup

/-! The table of quotes and the orderbook that is read from it: quotes.h of InstantDEX. A rounding `fl` stands for
the arithmetic of doubles. -/
namespace SuperNet.InstantDEX.Quotes
open Lib.Words

def orderbookExpiration : Nat := 3600
def instantdexExchangeid : Int := 0
def satoshiden : Nat := 100000000

structure Quote where
  price : Rat
  vol : Rat
  quoteid : Nat
  offerNXT : Nat
  basebits : Nat
  relbits : Nat
  baseid : Nat
  relid : Nat
  baseamount : Int
  relamount : Int
  timestamp : Nat
  duration : Nat
  wallet : Bool
  a : Bool
  isask : Bool
  expired : Bool
  closed : Bool
  swap : Bool
  responded : Bool
  matched : Bool
  feepaid : Bool
  automatch : Bool
  pending : Bool
  minperc : Nat
  minbuyin : Nat
  maxbuyin : Nat
  exchangeid : Int
  gui : List Char
  walletstr : List Char
  deriving DecidableEq, Repr

/-- `calc_txid` of the bytes behind the price, the volume and the quoteid, `prices777_equiv`, and the rounding. -/
structure World where
  calcTxid : Quote → Nat
  equiv : Nat → Nat
  fl : Rat → Rat

structure Prices where
  baseid : Nat
  relid : Nat
  deriving DecidableEq, Repr

variable (w : World)

def clearQuoteflags (iQ : Quote) : Quote :=
  { iQ with
    a := false, expired := false, swap := false, feepaid := false
    closed := false, pending := false, responded := false, matched := false }

def setDuration (iQ : Quote) : Quote :=
  if iQ.duration = 0 ∨ iQ.duration > orderbookExpiration then { iQ with duration := orderbookExpiration } else iQ

/-- The quote that `calc_quoteid` hashes, a bid. -/
def hashed (iQ : Quote) : Quote :=
  let Q := { clearQuoteflags iQ with price := 0, vol := 0, quoteid := 0, walletstr := [] }
  if Q.isask then
    { Q with
      baseid := iQ.relid, baseamount := iQ.relamount, relid := iQ.baseid, relamount := iQ.baseamount
      isask := false, minperc := 0 }
  else Q

def calcQuoteid (iQ : Quote) : Nat :=
  if iQ.quoteid = 0 then w.calcTxid (hashed (setDuration iQ)) else iQ.quoteid

/-- `find_iQ`. The table is the list of its quotes in the order in which they were added. -/
def findIQ (quotes : List Quote) (quoteid : Nat) : Option Quote := quotes.find? fun iQ => iQ.quoteid = quoteid

def writeIQ (quotes : List Quote) (quoteid : Nat) (f : Quote → Quote) : List Quote :=
  quotes.map fun iQ => if iQ.quoteid = quoteid then f iQ else iQ

def cancelIQ (iQ : Quote) : Quote := { iQ with closed := true }

/-- `cancelquote`, with the `findquoteid` that it calls. -/
def cancelquote (quotes : List Quote) (nxt64bits quoteid : Nat) : List Quote :=
  match findIQ quotes quoteid with
  | none => quotes
  | some iQ =>
    if iQ.closed then quotes
    else
      let quotes := writeIQ quotes quoteid setDuration
      if calcQuoteid w iQ = quoteid ∧ iQ.offerNXT = nxt64bits ∧ iQ.exchangeid = instantdexExchangeid then
        writeIQ quotes quoteid cancelIQ
      else quotes

def createIQ (quotes : List Quote) (iQ : Quote) (walletstr : List Char) : List Quote :=
  let iQ := if walletstr ≠ [] then { iQ with wallet := true } else iQ
  let iQ := setDuration iQ
  match findIQ quotes iQ.quoteid with
  | some _ => quotes
  | none => (quotes ++ [{ iQ with walletstr := walletstr }]).filter fun iQ => !iQ.expired

/-- What moves the table: the two calls, and the clock. -/
inductive Event
  | create (iQ : Quote) (walletstr : List Char)
  | cancel (nxt64bits quoteid : Nat)
  | advance (seconds : Nat)

structure State where
  quotes : List Quote
  time : Nat

def step (s : State) : Event → State
  | .create iQ walletstr => { s with quotes := createIQ s.quotes iQ walletstr }
  | .cancel nxt64bits quoteid => { s with quotes := cancelquote w s.quotes nxt64bits quoteid }
  | .advance seconds => { s with time := s.time + seconds }

/-- The state after some events, from an empty table on. -/
def run (time : Nat) (events : List Event) : State := events.foldl (step w) ⟨[], time⟩

def smallval : Rat := w.fl (1 / 10^15)

def prices777PriceVolume (baseamount relamount : Int) : Rat × Rat :=
  let base := w.fl (u64 baseamount)
  let vol := w.fl (w.fl (base + w.fl (9999999 / 10^15)) / w.fl satoshiden)
  (if base > 0 then w.fl (w.fl (u64 relamount) / base) else 0, vol)

/-- The price and the volume of a quote as the orderbook of a pair shows them. -/
def setPrice (invert : Bool) (iQ : Quote) : Quote :=
  if invert then
    if iQ.price > smallval w then { iQ with vol := w.fl (iQ.vol * iQ.price), price := w.fl (1 / iQ.price) }
    else
      let (price, vol) := prices777PriceVolume w iQ.relamount iQ.baseamount
      { iQ with price := price, vol := vol }
  else if iQ.price ≤ smallval w then
    let (price, vol) := prices777PriceVolume w iQ.baseamount iQ.relamount
    { iQ with price := price, vol := vol }
  else iQ

def pairInvert (prices : Prices) (ptr : Quote) : Option Bool :=
  if w.equiv ptr.baseid = w.equiv prices.baseid ∧ w.equiv ptr.relid = w.equiv prices.relid then some false
  else if w.equiv ptr.relid = w.equiv prices.baseid ∧ w.equiv ptr.baseid = w.equiv prices.relid then some true
  else none

/-- The local variable `duration` of the functions that go through the table. -/
def lifetime (iQ : Quote) : Nat := if iQ.duration = 0 then orderbookExpiration else iQ.duration

/-- `iQ.s.timestamp > (now + duration)`. -/
def Future (now : Nat) (iQ : Quote) : Prop := iQ.timestamp > (now + lifetime iQ) % 2^32

instance instDecidableFuture (now : Nat) (iQ : Quote) : Decidable (Future now iQ) := inferInstanceAs (Decidable (_ > _))

/-- A round of the loop of `InstantDEX_orderbook` up to the side and the quote; `none` is `continue`. -/
def bookEntry (prices : Prices) (now : Nat) (ptr : Quote) : Option (Bool × Quote) :=
  if Future now ptr then none
  else match pairInvert w prices ptr with
    | none => none
    | some invert => if ptr.pending then none else some (ptr.isask ^^ invert, setPrice w invert ptr)

/-- The first pass counts the bids and the asks. -/
def countRound (num : Nat × Nat) (entry : Bool × Quote) : Nat × Nat :=
  if entry.1 then (num.1, num.2 + 1) else (num.1 + 1, num.2)

/-- The second one copies them. -/
def copyRound (num : Nat × Nat) (vals : List Quote × List Quote) (entry : Bool × Quote) : List Quote × List Quote :=
  if entry.1 = false ∧ vals.1.length < num.1 then (vals.1 ++ [entry.2], vals.2)
  else if entry.1 ∧ vals.2.length < num.2 then (vals.1, vals.2 ++ [entry.2])
  else vals

def pass {σ : Type} (prices : Prices) (now : Nat) (round : σ → Bool × Quote → σ) (quotes : List Quote) (s : σ) : σ :=
  quotes.foldl (fun s ptr => match bookEntry w prices now ptr with
    | none => s
    | some entry => round s entry) s

def decreasingQuotes (a b : Quote) : Int := if b.price > a.price then 1 else if b.price < a.price then -1 else 0

def increasingQuotes (a b : Quote) : Int := if b.price > a.price then -1 else if b.price < a.price then 1 else 0

structure Order where
  price : Rat
  vol : Rat
  quoteid : Nat
  deriving DecidableEq, Repr

def prices777Orderjson (iQ : Quote) : Order := ⟨iQ.price, iQ.vol, iQ.quoteid⟩

structure Orderbook where
  bids : List Order
  asks : List Order
  deriving DecidableEq, Repr

def instantDEXOrderbook (s : State) (prices : Prices) : Orderbook :=
  let now := s.time % 2^32
  let num := pass w prices now countRound s.quotes (0, 0)
  let (bidvals, askvals) := pass w prices now (copyRound num) s.quotes ([], [])
  { bids := (bidvals.mergeSort fun a b => decreasingQuotes a b ≤ 0).map prices777Orderjson
    asks := (askvals.mergeSort fun a b => increasingQuotes a b ≤ 0).map prices777Orderjson }

def Old (time : Nat) (iQ : Quote) : Prop := iQ.timestamp + lifetime iQ < time

instance instDecidableOld (time : Nat) (iQ : Quote) : Decidable (Old time iQ) := inferInstanceAs (Decidable (_ < _))

/-- Not pending, not cancelled and not older than its duration. -/
def Live (time : Nat) (iQ : Quote) : Prop := iQ.pending = false ∧ iQ.closed = false ∧ ¬ Old time iQ

instance instDecidableLive (time : Nat) (iQ : Quote) : Decidable (Live time iQ) := inferInstanceAs (Decidable (_ ∧ _))

def order (prices : Prices) (isask : Bool) (iQ : Quote) : Option Order :=
  match pairInvert w prices iQ with
  | none => none
  | some invert => if (iQ.isask ^^ invert) = isask then some (prices777Orderjson (setPrice w invert iQ)) else none

/-- The book of a pair has the live quotes, each of them once. -/
structure ShowsLive (s : State) (prices : Prices) : Prop where
  bids : (instantDEXOrderbook w s prices).bids.Perm
    ((s.quotes.filter fun iQ => Live s.time iQ).filterMap (order w prices false))
  asks : (instantDEXOrderbook w s prices).asks.Perm
    ((s.quotes.filter fun iQ => Live s.time iQ).filterMap (order w prices true))

variable {w}

section Table
variable {quotes : List Quote}

/-- The quotes of the table have ids of their own. -/
def Distinct (quotes : List Quote) : Prop := (quotes.map Quote.quoteid).Nodup

@[simp] theorem setDuration_quoteid (iQ : Quote) : (setDuration iQ).quoteid = iQ.quoteid := by
  rw [setDuration]
  split <;> rfl

private theorem writeIQ_quoteids {quoteid : Nat} {f : Quote → Quote} (hf : ∀ iQ, (f iQ).quoteid = iQ.quoteid) :
    (writeIQ quotes quoteid f).map Quote.quoteid = quotes.map Quote.quoteid := by
  rw [writeIQ, List.map_map]
  apply List.map_congr_left
  intro iQ _
  rw [Function.comp_apply]
  split
  · exact hf iQ
  · rfl

theorem cancelquote_quoteids (quotes : List Quote) (nxt64bits quoteid : Nat) :
    (cancelquote w quotes nxt64bits quoteid).map Quote.quoteid = quotes.map Quote.quoteid := by
  rw [cancelquote]
  split
  · rfl
  · split
    · rfl
    · dsimp only
      split
      · rw [writeIQ_quoteids (f := cancelIQ) fun _ => rfl, writeIQ_quoteids setDuration_quoteid]
      · rw [writeIQ_quoteids setDuration_quoteid]

theorem createIQ_distinct (h : Distinct quotes) (iQ : Quote) (walletstr : List Char) :
    Distinct (createIQ quotes iQ walletstr) := by
  rw [createIQ]
  split
  case h_1 => exact h
  case h_2 hnone =>
    apply List.Nodup.sublist (List.Sublist.map _ List.filter_sublist)
    rw [List.map_append]
    apply List.Nodup.append h (List.nodup_singleton _)
    intro quoteid hmem hnew
    obtain ⟨old, hold, rfl⟩ := List.mem_map.mp hmem
    have hne := List.find?_eq_none.mp hnone old hold
    exact hne (decide_eq_true (List.mem_singleton.mp hnew))

theorem step_distinct {s : State} (h : Distinct s.quotes) (e : Event) : Distinct (step w s e).quotes := by
  cases e with
  | create iQ walletstr => exact createIQ_distinct h iQ walletstr
  | cancel nxt64bits quoteid =>
    rw [step, Distinct, cancelquote_quoteids]
    exact h
  | advance seconds => exact h

theorem run_distinct (time : Nat) (events : List Event) : Distinct (run w time events).quotes := by
  have hfrom : ∀ s : State, Distinct s.quotes → Distinct (events.foldl (step w) s).quotes := by
    induction events with
    | nil => exact fun s h => h
    | cons e events ih => exact fun s h => ih _ (step_distinct h e)
  exact hfrom _ List.nodup_nil

end Table

section Passes
variable {quotes : List Quote} {prices : Prices} {now : Nat}

private theorem pass_eq {σ : Type} (round : σ → Bool × Quote → σ) (s : σ) :
    pass w prices now round quotes s = (quotes.filterMap (bookEntry w prices now)).foldl round s := by
  rw [pass, List.foldl_filterMap]
  congr 1
  funext s ptr
  cases bookEntry w prices now ptr <;> rfl

def sideOf (isask : Bool) (entries : List (Bool × Quote)) : List Quote :=
  (entries.filter fun entry => entry.1 = isask).map Prod.snd

private theorem countRound_side (entries : List (Bool × Quote)) (num : Nat × Nat) :
    entries.foldl countRound num = (num.1 + (sideOf false entries).length, num.2 + (sideOf true entries).length) := by
  induction entries generalizing num with
  | nil => rfl
  | cons entry entries ih =>
    obtain ⟨isask, iQ⟩ := entry
    rw [List.foldl_cons, ih]
    cases isask with
    | false => exact Prod.ext (Nat.add_right_comm _ _ _) rfl
    | true => exact Prod.ext rfl (Nat.add_right_comm _ _ _)

private theorem copyRound_side (num : Nat × Nat) (entries : List (Bool × Quote)) (vals : List Quote × List Quote)
    (hbids : vals.1.length + (sideOf false entries).length ≤ num.1)
    (hasks : vals.2.length + (sideOf true entries).length ≤ num.2) :
    entries.foldl (copyRound num) vals = (vals.1 ++ sideOf false entries, vals.2 ++ sideOf true entries) := by
  induction entries generalizing vals with
  | nil => exact Prod.ext (List.append_nil _).symm (List.append_nil _).symm
  | cons entry entries ih =>
    obtain ⟨isask, iQ⟩ := entry
    cases isask with
    | false =>
      have hcons : sideOf false ((false, iQ) :: entries) = iQ :: sideOf false entries := rfl
      have hother : sideOf true ((false, iQ) :: entries) = sideOf true entries := rfl
      rw [hcons, List.length_cons] at hbids
      rw [hother] at hasks
      have hround : copyRound num vals (false, iQ) = (vals.1 ++ [iQ], vals.2) := if_pos ⟨rfl, by omega⟩
      rw [List.foldl_cons, hround, ih, hcons, hother, List.append_assoc, List.singleton_append]
      · rw [List.length_append, List.length_singleton]
        omega
      · exact hasks
    | true =>
      have hcons : sideOf true ((true, iQ) :: entries) = iQ :: sideOf true entries := rfl
      have hother : sideOf false ((true, iQ) :: entries) = sideOf false entries := rfl
      rw [hcons, List.length_cons] at hasks
      rw [hother] at hbids
      have hround : copyRound num vals (true, iQ) = (vals.1, vals.2 ++ [iQ]) := by
        rw [copyRound, if_neg fun h => absurd h.1 Bool.noConfusion]
        exact if_pos ⟨rfl, by omega⟩
      rw [List.foldl_cons, hround, ih, hcons, hother, List.append_assoc, List.singleton_append]
      · exact hbids
      · rw [List.length_append, List.length_singleton]
        omega

private theorem bookEntry_some {iQ : Quote} {entry : Bool × Quote} (h : bookEntry w prices now iQ = some entry)
    (isask : Bool) : (iQ.pending = false ∧ ¬ Future now iQ) ∧
      order w prices isask iQ = if entry.1 = isask then some (prices777Orderjson entry.2) else none := by
  rw [bookEntry] at h
  split at h
  case isTrue => cases h
  case isFalse hfuture =>
    rw [order]
    cases hpair : pairInvert w prices iQ with
    | none =>
      rw [hpair] at h
      cases h
    | some invert =>
      rw [hpair] at h
      dsimp only at h
      cases hpending : iQ.pending with
      | true =>
        rw [hpending] at h
        cases h
      | false =>
        rw [hpending] at h
        cases h
        exact ⟨⟨rfl, hfuture⟩, rfl⟩

private theorem bookEntry_none {iQ : Quote} (h : bookEntry w prices now iQ = none)
    (hplain : iQ.pending = false ∧ ¬ Future now iQ) (isask : Bool) : order w prices isask iQ = none := by
  rw [bookEntry, if_neg hplain.2] at h
  rw [order]
  cases hpair : pairInvert w prices iQ with
  | none => rfl
  | some invert =>
    rw [hpair, hplain.1] at h
    cases h

private theorem sideOf_orders (isask : Bool) :
    (sideOf isask (quotes.filterMap (bookEntry w prices now))).map prices777Orderjson =
      (quotes.filter fun iQ => iQ.pending = false ∧ ¬ Future now iQ).filterMap (order w prices isask) := by
  induction quotes with
  | nil => rfl
  | cons iQ quotes ih =>
    cases hentry : bookEntry w prices now iQ with
    | none =>
      rw [List.filterMap_cons_none hentry, ih]
      by_cases hplain : iQ.pending = false ∧ ¬ Future now iQ
      · rw [List.filter_cons, if_pos (decide_eq_true hplain), List.filterMap_cons_none (bookEntry_none hentry hplain isask)]
      · rw [List.filter_cons, if_neg fun h => hplain (of_decide_eq_true h)]
    | some entry =>
      obtain ⟨hplain, horder⟩ := bookEntry_some hentry isask
      rw [List.filterMap_cons_some hentry, List.filter_cons, if_pos (decide_eq_true hplain)]
      by_cases hside : entry.1 = isask
      · rw [if_pos hside] at horder
        rw [List.filterMap_cons_some horder, ← ih, sideOf, List.filter_cons, if_pos (decide_eq_true hside)]
        rfl
      · rw [if_neg hside] at horder
        rw [List.filterMap_cons_none horder, ← ih, sideOf, List.filter_cons,
          if_neg fun h => hside (of_decide_eq_true h)]
        rfl

/-- The orderbook, without its two passes. -/
theorem instantDEXOrderbook_sides (s : State) (prices : Prices) :
    let shown := s.quotes.filter fun iQ => iQ.pending = false ∧ ¬ Future (s.time % 2^32) iQ
    (instantDEXOrderbook w s prices).bids.Perm (shown.filterMap (order w prices false)) ∧
      (instantDEXOrderbook w s prices).asks.Perm (shown.filterMap (order w prices true)) := by
  intro shown
  let entries := s.quotes.filterMap (bookEntry w prices (s.time % 2^32))
  have hcopied : pass w prices (s.time % 2^32) (copyRound (pass w prices (s.time % 2^32) countRound s.quotes (0, 0)))
      s.quotes ([], []) = (sideOf false entries, sideOf true entries) := by
    rw [pass_eq, pass_eq, countRound_side, copyRound_side]
    · rfl
    · exact le_refl _
    · exact le_refl _
  rw [instantDEXOrderbook]
  dsimp only
  rw [hcopied]
  constructor
  · rw [← sideOf_orders]
    exact (List.mergeSort_perm _ _).map _
  · rw [← sideOf_orders]
    exact (List.mergeSort_perm _ _).map _

end Passes

section Choice
variable {quotes : List Quote} {prices : Prices} {P Q : Quote → Prop} [DecidablePred P] [DecidablePred Q]

theorem order_quoteid {isask : Bool} {iQ : Quote} {o : Order} (h : order w prices isask iQ = some o) :
    o.quoteid = iQ.quoteid := by
  rw [order] at h
  split at h
  · cases h
  · split at h
    · cases h
      rw [prices777Orderjson, setPrice]
      dsimp only
      split
      · split <;> rfl
      · split <;> rfl
    · cases h

private theorem mem_orders {isask : Bool} {o : Order} (h : o ∈ (quotes.filter fun iQ => P iQ).filterMap (order w prices isask)) :
    ∃ iQ ∈ quotes, P iQ ∧ order w prices isask iQ = some o := by
  obtain ⟨iQ, hmem, horder⟩ := List.mem_filterMap.mp h
  obtain ⟨hmem, hP⟩ := List.mem_filter.mp hmem
  exact ⟨iQ, hmem, of_decide_eq_true hP, horder⟩

private theorem choice_of_perm (hdistinct : Distinct quotes)
    (h : ∀ isask, ((quotes.filter fun iQ => P iQ).filterMap (order w prices isask)).Perm
      ((quotes.filter fun iQ => Q iQ).filterMap (order w prices isask)))
    {iQ : Quote} (hmem : iQ ∈ quotes) (hpair : (pairInvert w prices iQ).isSome) (hP : P iQ) : Q iQ := by
  obtain ⟨invert, hinvert⟩ := Option.isSome_iff_exists.mp hpair
  have horder : order w prices (iQ.isask ^^ invert) iQ = some (prices777Orderjson (setPrice w invert iQ)) := by
    rw [order, hinvert]
    exact if_pos rfl
  have hfilter : iQ ∈ quotes.filter fun iQ => P iQ := List.mem_filter.mpr ⟨hmem, decide_eq_true hP⟩
  have hin := List.mem_filterMap.mpr ⟨iQ, hfilter, horder⟩
  obtain ⟨iQ', hmem', hQ, horder'⟩ := mem_orders ((h _).mem_iff.mp hin)
  have hid : iQ'.quoteid = iQ.quoteid := (order_quoteid horder').symm.trans (order_quoteid horder)
  rw [← List.inj_on_of_nodup_map hdistinct hmem' hmem hid]
  exact hQ

private theorem orders_perm_iff (hdistinct : Distinct quotes) :
    (∀ isask, ((quotes.filter fun iQ => P iQ).filterMap (order w prices isask)).Perm
        ((quotes.filter fun iQ => Q iQ).filterMap (order w prices isask))) ↔
      ∀ iQ ∈ quotes, (pairInvert w prices iQ).isSome → (P iQ ↔ Q iQ) := by
  constructor
  · intro h iQ hmem hpair
    exact ⟨choice_of_perm hdistinct h hmem hpair, choice_of_perm hdistinct (fun isask => (h isask).symm) hmem hpair⟩
  · intro h isask
    rw [List.filterMap_filter, List.filterMap_filter]
    apply List.Perm.of_eq
    apply List.filterMap_congr
    intro iQ hmem
    cases hpair : pairInvert w prices iQ with
    | none =>
      have horder : order w prices isask iQ = none := by rw [order, hpair]
      rw [horder, ite_self, ite_self]
    | some invert =>
      have hagree := h iQ hmem (by rw [hpair]; rfl)
      simp only [hagree]

end Choice

private theorem shown_iff_live (time now : Nat) (iQ : Quote) :
    ((iQ.pending = false ∧ ¬ Future now iQ) ↔ Live time iQ) ↔
      (iQ.pending = false → (Future now iQ ↔ iQ.closed = true ∨ Old time iQ)) := by
  rw [Live, ← Bool.not_eq_true iQ.closed]
  constructor
  · intro h hpending
    have h' := (and_congr_right_iff.mp h) hpending
    rw [← not_or] at h'
    exact not_iff_not.mp h'
  · intro h
    apply and_congr_right
    intro hpending
    rw [← not_or]
    exact not_congr (h hpending)

/-- In every reachable state the orderbook shows the live quotes exactly when, for each quote of the pair that is not
pending, its time stamp lies beyond its duration from now if and only if it is cancelled or older than its duration. -/
theorem showsLive_iff (w : World) (time : Nat) (events : List Event) (prices : Prices) :
    ShowsLive w (run w time events) prices ↔
      ∀ iQ ∈ (run w time events).quotes, (pairInvert w prices iQ).isSome → iQ.pending = false →
        (Future ((run w time events).time % 2^32) iQ ↔ iQ.closed = true ∨ Old (run w time events).time iQ) := by
  have hdistinct := run_distinct (w := w) time events
  generalize run w time events = s at hdistinct ⊢
  obtain ⟨hbids, hasks⟩ := instantDEXOrderbook_sides (w := w) s prices
  have hsides : ShowsLive w s prices ↔ ∀ isask,
      ((s.quotes.filter fun iQ => iQ.pending = false ∧ ¬ Future (s.time % 2^32) iQ).filterMap (order w prices isask)).Perm
        ((s.quotes.filter fun iQ => Live s.time iQ).filterMap (order w prices isask)) := by
    constructor
    · intro h isask
      cases isask with
      | false => exact hbids.symm.trans h.bids
      | true => exact hasks.symm.trans h.asks
    · intro h
      exact ⟨hbids.trans (h false), hasks.trans (h true)⟩
  rw [hsides, orders_perm_iff hdistinct]
  apply forall₃_congr
  intro iQ _ _
  exact shown_iff_live s.time _ iQ

/-- A cancelled quote stays in the orderbook. -/
def soldQuote : Quote :=
  ⟨2, 1, 7, 5, 0, 0, 11, 12, 1, 2, 1000, 60, false, false, false, false, false, false, false, false, false, false, false,
    0, 0, 0, 0, [], []⟩

def plainWorld : World := ⟨fun _ => 1, id, id⟩

theorem cancelled_stays_listed :
    (run plainWorld 1000 [.create soldQuote [], .cancel 5 7]).quotes = [{ soldQuote with closed := true }] ∧
      (instantDEXOrderbook plainWorld (run plainWorld 1000 [.create soldQuote [], .cancel 5 7]) ⟨11, 12⟩).bids =
        [⟨2, 1, 7⟩] ∧
      ¬ ShowsLive plainWorld (run plainWorld 1000 [.create soldQuote [], .cancel 5 7]) ⟨11, 12⟩ := by
  have hquotes : (run plainWorld 1000 [.create soldQuote [], .cancel 5 7]).quotes = [{ soldQuote with closed := true }] := by
    rfl
  have hbids : (instantDEXOrderbook plainWorld (run plainWorld 1000 [.create soldQuote [], .cancel 5 7]) ⟨11, 12⟩).bids =
      [⟨2, 1, 7⟩] := by
    decide +kernel
  refine ⟨hquotes, hbids, fun h => ?_⟩
  have hlength := h.bids.length_eq
  rw [hbids, hquotes] at hlength
  exact absurd hlength (by decide)

end SuperNet.InstantDEX.Quotes
