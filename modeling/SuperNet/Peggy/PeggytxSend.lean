import SuperNet.Peggy.PeggyReserves
import SuperNet.Peggy.Peggytx

/-! What `peggy_txind_send` does with one output: it is refused, or it goes through without effect on
the accounts, or it pays an account or creates a unit. -/
namespace SuperNet.Peggy.Peggy777
open Lib.Words Serdes777 Accts777

def balanceAt (s : PeggyInfo) (k : Table × Nat) : Int :=
  match s.accts.addrkvs k.1 k.2 with
  | none => 0
  | some acct => acct.balance

/-- Balances, units, pools, price votes and tuning parameters are the same. An account may have been opened
with nothing in it; payments in the queue and the log are not compared. -/
structure Same (s t : PeggyInfo) : Prop where
  balances : ∀ k, balanceAt t k = balanceAt s k
  units : t.accts.units = s.accts.units
  pricefeeds : t.accts.pricefeeds = s.accts.pricefeeds
  indexed : t.accts.indexed = s.accts.indexed
  peggyhash : t.accts.peggyhash = s.accts.peggyhash
  bank : t = { s with accts := t.accts }

theorem Same.refl (s : PeggyInfo) : Same s s := ⟨fun _ => rfl, rfl, rfl, rfl, rfl, rfl⟩

theorem Same.of_eq {s t : PeggyInfo} (h : t = s) : Same s t := by
  rw [h]
  exact .refl s

theorem Same.trans {r s t : PeggyInfo} (h : Same r s) (h' : Same s t) : Same r t where
  balances k := (h'.balances k).trans (h.balances k)
  units := h'.units.trans h.units
  pricefeeds := h'.pricefeeds.trans h.pricefeeds
  indexed := h'.indexed.trans h.indexed
  peggyhash := h'.peggyhash.trans h.peggyhash
  bank := by
    rw [h'.bank, h.bank]

theorem log_same (s : PeggyInfo) (len : Nat) : Same s (txind777Create s len).1 := by
  rw [txind777Create]
  split
  · exact .refl s
  · exact ⟨fun _ => rfl, rfl, rfl, rfl, rfl, rfl⟩

theorem log_nonneg (s : PeggyInfo) {len : Nat} (h0 : 0 < len) (h : len < 2^16) : 0 ≤ (txind777Create s len).2 := by
  have hlen : u16 len = len := unsigned_of_lt h
  rw [txind777Create, if_neg (by omega)]
  exact Int.natCast_nonneg _

theorem balanceAt_write (s : PeggyInfo) (table : Table) (key : Nat) (acct : Acct777) (k : Table × Nat) :
    balanceAt { s with accts := ramkv777Write s.accts table key acct } k =
      if k = (table, key) then acct.balance else balanceAt s k := by
  obtain ⟨table', key'⟩ := k
  simp only [balanceAt, ramkv777Write, Prod.mk.injEq]
  by_cases htable : table' = table
  · subst htable
    rw [Function.update_self]
    by_cases hkey : key' = key
    · subst hkey
      rw [Function.update_self, if_pos ⟨rfl, rfl⟩]
    · rw [Function.update_of_ne hkey, if_neg fun h => hkey h.2]
  · rw [Function.update_of_ne htable, if_neg fun h => htable h.1]

theorem open_same (s : PeggyInfo) (table : Table) (key : Nat) (b : Block) :
    Same s { s with accts := accts777Create s.accts table key b } := by
  rw [accts777Create]
  split
  · next hnone =>
    refine ⟨fun k => ?_, rfl, rfl, rfl, rfl, rfl⟩
    rw [balanceAt_write]
    split
    · next hk => rw [balanceAt, hk, hnone]
    · rfl
  · exact .refl s

theorem queue_same {s : PeggyInfo} {coinaddr : PeggyAddr} {value : Int} {accts : AcctsInfo}
    (h : opreturnsQueuePayment s.accts coinaddr value = some accts) : Same s { s with accts } := by
  rw [opreturnsQueuePayment] at h
  split at h
  · split at h
    · cases h
    · obtain rfl := Option.some.inj h
      exact ⟨fun _ => rfl, rfl, rfl, rfl, rfl, rfl⟩
  · obtain rfl := Option.some.inj h
    exact ⟨fun _ => rfl, rfl, rfl, rfl, rfl, rfl⟩

/-- The account `k` got `value` without an overflow, and nothing else changed. -/
structure Paid (s t : PeggyInfo) (k : Table × Nat) (value : Int) : Prop where
  balances : ∀ k', balanceAt t k' = balanceAt s k' + if k' = k then value else 0
  fits : balanceAt t k < 2^63
  units : t.accts.units = s.accts.units
  pricefeeds : t.accts.pricefeeds = s.accts.pricefeeds
  indexed : t.accts.indexed = s.accts.indexed
  peggyhash : t.accts.peggyhash = s.accts.peggyhash
  bank : t = { s with accts := t.accts }

/-- A unit was created, and no account changed. -/
structure Created (s t : PeggyInfo) : Prop where
  balances : ∀ k, balanceAt t k = balanceAt s k
  units : ∃ U, t.accts.units = s.accts.units ++ [U]

theorem pay_paid {s : PeggyInfo} {table : Table} {key : Nat} {value : Int} {accts : AcctsInfo}
    (h : acct777Pay s.accts table key value = some accts) : Paid s { s with accts } (table, key) value := by
  rw [acct777Pay] at h
  split at h
  · cases h
  · next acct hacct =>
    split at h
    · next hfits =>
      obtain rfl := Option.some.inj h
      refine ⟨fun k => ?_, ?_, rfl, rfl, rfl, rfl, rfl⟩
      · rw [balanceAt_write]
        split
        · next hk => rw [balanceAt, hk, hacct]
        · rw [add_zero]
      · rw [balanceAt_write, if_pos rfl]
        exact hfits.2
    · cases h

theorem Paid.same_of_zero {s t : PeggyInfo} {k : Table × Nat} (h : Paid s t k 0) : Same s t where
  balances k' := by rw [h.balances, ite_self, add_zero]
  units := h.units
  pricefeeds := h.pricefeeds
  indexed := h.indexed
  peggyhash := h.peggyhash
  bank := h.bank

/-- The unit that an output of type `PEGGY_ADDRCREATE` asks for. -/
def outCreation (s : PeggyInfo) (b : Block) (value : Int) (addr : PeggyAddr) : Creation where
  now := b.now
  readU := false
  seed := s.accts.peggyhash
  name := none
  lockhash := addr.sha256
  lock := addr.newlock
  amount := if addr.newlock.margin = 0 then value.toNat else 0
  marginamount := if addr.newlock.margin = 0 then 0 else value.toNat

/-- The unit is priced and paid for. -/
def Creation.Accepted (c : Creation) (s : PeggyInfo) : Bool :=
  match createdUnit s c.now c.seed c.name c.lock c.amount c.marginamount with
  | none => false
  | some (_, _, _, satoshis) => satoshis ≠ 0 ∧ Enough c.lock c.amount c.marginamount satoshis

theorem createunit_accepted (s : PeggyInfo) {c : Creation} (hread : c.readU = false) :
    if c.Accepted s then
      Created s (peggyCreateunit s c.now c.readU c.seed c.name c.lockhash c.lock c.amount c.marginamount).1
    else (peggyCreateunit s c.now c.readU c.seed c.name c.lockhash c.lock c.amount c.marginamount).1 = s := by
  rw [Creation.Accepted, peggyCreateunit, hread]
  cases hunit : createdUnit s c.now c.seed c.name c.lock c.amount c.marginamount with
  | none => simp
  | some x =>
    obtain ⟨peg, U, entry, satoshis⟩ := x
    by_cases hzero : satoshis = 0
    · simp [hzero]
    · by_cases henough : Enough c.lock c.amount c.marginamount satoshis
      · simp only [hzero, henough, ne_eq, not_false_eq_true, and_self, decide_true, if_true, false_or, Bool.false_eq_true, if_false]
        exact ⟨fun _ => rfl, _, rfl⟩
      · simp [hzero, henough]

/-- What becomes of an output. -/
inductive Fate where
  | refused
  | idle
  | created
  | paid
  deriving DecidableEq

def Fate.effective (f : Fate) : Bool := f = .created ∨ f = .paid

def valueFate (s : PeggyInfo) (b : Block) (isUnit : Bool) (value : Int) (out : PeggyOutput) : Fate :=
  if out.type = 0 then if value < 0 ∧ s.accts.paymentsQ = [] then .refused else .idle
  else if out.type = 1 then
    if 0 < value then if (outCreation s b value out.dest).Accepted s then .created else .idle
    else if signed 32 (peggyCreateunit s b.now true s.accts.peggyhash none out.dest.sha256 out.dest.newlock 0 0).2 < 0 then
      .refused
    else .idle
  else if isUnit then .refused
  else if value = 0 then .idle
  else .paid

/-- Changes between two states that a fate stands for; `value` is what the account `dest` got. -/
inductive Outcome (s t : PeggyInfo) (r : Int) (dest : Table × Nat) (value : Int) : Fate → Prop where
  | refused (hr : r < 0) (h : Same s t) : Outcome s t r dest value .refused
  | idle (hr : 0 ≤ r) (h : Same s t) : Outcome s t r dest value .idle
  | created (hr : 0 ≤ r) (h : Created s t) : Outcome s t r dest value .created
  | paid (hr : 0 ≤ r) (h0 : value ≠ 0) (h : Paid s t dest value) : Outcome s t r dest value .paid

theorem Created.same {r s t : PeggyInfo} (h : Created r s) (hs : Same s t) : Created r t := by
  obtain ⟨U, hU⟩ := h.units
  exact ⟨fun k => (hs.balances k).trans (h.balances k), U, hs.units.trans hU⟩

theorem Paid.same {r s t : PeggyInfo} {k : Table × Nat} {value : Int} (h : Paid r s k value) (hs : Same s t) : Paid r t k value where
  balances k' := (hs.balances k').trans (h.balances k')
  fits := (hs.balances k).trans_lt h.fits
  units := hs.units.trans h.units
  pricefeeds := hs.pricefeeds.trans h.pricefeeds
  indexed := hs.indexed.trans h.indexed
  peggyhash := hs.peggyhash.trans h.peggyhash
  bank := by rw [hs.bank, h.bank]

theorem sendValue_outcome {s t : PeggyInfo} {table : Table} {key : Nat} {b : Block} {isUnit : Bool} {value r : Int} {len : Nat}
    (h0 : 0 < len) (hlen : len + 14 < 2^16) {out : PeggyOutput} (h : sendValue s b isUnit value len table key out = some (t, r)) :
    Outcome s t r (table, key) value (valueFate s b isUnit value out) := by
  rw [sendValue] at h
  rw [valueFate]
  by_cases hbtcd : out.type = 0
  · rw [if_pos hbtcd] at h
    rw [if_pos hbtcd]
    cases hq : opreturnsQueuePayment s.accts out.dest value with
    | none =>
      rw [hq] at h
      obtain ⟨rfl, rfl⟩ := Prod.mk.inj (Option.some.inj h)
      have hempty : value < 0 ∧ s.accts.paymentsQ = [] := by
        rw [opreturnsQueuePayment] at hq
        split at hq
        · next hneg =>
          split at hq
          · next h => exact ⟨hneg, h⟩
          · cases hq
        · cases hq
      rw [if_pos hempty]
      exact .refused (Int.negSucc_lt_zero 0) (.refl s)
    | some accts =>
      rw [hq] at h
      obtain ⟨rfl, rfl⟩ := Prod.mk.inj (Option.some.inj h)
      have hpaid : ¬ (value < 0 ∧ s.accts.paymentsQ = []) := by
        rintro ⟨hneg, hempty⟩
        rw [opreturnsQueuePayment, if_pos hneg, hempty] at hq
        cases hq
      rw [if_neg hpaid]
      exact .idle (log_nonneg _ h0 (by omega)) ((queue_same hq).trans (log_same _ _))
  · rw [if_neg hbtcd] at h
    rw [if_neg hbtcd]
    by_cases hcreate : out.type = 1
    · rw [if_pos hcreate] at h
      have hsend : sendCreate s b value len out.dest = (t, r) := Option.some.inj h
      obtain ⟨rfl, rfl⟩ : (sendCreate s b value len out.dest).1 = t ∧ (sendCreate s b value len out.dest).2 = r := by
        rw [hsend]
        exact ⟨rfl, rfl⟩
      rw [if_pos hcreate, sendCreate]
      by_cases hpos : 0 < value
      · rw [if_pos hpos, if_pos hpos]
        have hunit := createunit_accepted s (c := outCreation s b value out.dest) rfl
        by_cases haccepted : (outCreation s b value out.dest).Accepted s = true
        · rw [if_pos haccepted] at hunit ⊢
          exact .created (log_nonneg _ (by omega) hlen) (hunit.same (log_same _ _))
        · rw [if_neg haccepted] at hunit ⊢
          exact .idle (log_nonneg _ (by omega) hlen) (Same.trans (.of_eq hunit) (log_same _ _))
      · rw [if_neg hpos, if_neg hpos]
        dsimp only
        split
        · next hneg => exact .refused hneg (.refl s)
        · next hneg => exact .idle (not_lt.mp hneg) (.refl s)
    · rw [if_neg hcreate] at h
      rw [if_neg hcreate]
      cases isUnit with
      | true =>
        obtain ⟨rfl, rfl⟩ := Prod.mk.inj (Option.some.inj h)
        exact .refused (Int.negSucc_lt_zero 0) (.refl s)
      | false =>
        obtain ⟨accts, haccts, hlog⟩ := Option.map_eq_some_iff.mp h
        obtain ⟨rfl, rfl⟩ := Prod.mk.inj hlog
        have hpay := (pay_paid haccts).same (log_same _ len)
        have hnonneg := log_nonneg { s with accts } h0 (by omega)
        rw [if_neg Bool.false_ne_true]
        by_cases hzero : value = 0
        · subst hzero
          rw [if_pos rfl]
          exact .idle hnonneg hpay.same_of_zero
        · rw [if_neg hzero]
          exact .paid hnonneg hzero hpay

theorem createdUnit_accts (s : PeggyInfo) (accts : AcctsInfo) (now seed : Nat) (name : Option Nat) (lock : PeggyLock)
    (amount marginamount : Nat) :
    createdUnit { s with accts } now seed name lock amount marginamount = createdUnit s now seed name lock amount marginamount :=
  rfl

/-- The fate of an output depends on the accounts only as far as `Same` compares them, and on the queue. -/
theorem Same.valueFate {s t : PeggyInfo} (h : Same s t) (hq : t.accts.paymentsQ = s.accts.paymentsQ) (b : Block) (isUnit : Bool)
    (value : Int) (out : PeggyOutput) : valueFate t b isUnit value out = valueFate s b isUnit value out := by
  have hprice : (peggyCreateunit t b.now true t.accts.peggyhash none out.dest.sha256 out.dest.newlock 0 0).2 =
      (peggyCreateunit s b.now true s.accts.peggyhash none out.dest.sha256 out.dest.newlock 0 0).2 := by
    rw [peggyCreateunit, peggyCreateunit, h.peggyhash, h.bank, createdUnit_accts]
    split <;> simp
  have haccepted : (outCreation t b value out.dest).Accepted t = (outCreation s b value out.dest).Accepted s := by
    simp only [Creation.Accepted, outCreation, h.peggyhash]
    rw [h.bank, createdUnit_accts]
    rfl
  simp only [Peggy777.valueFate, hq, hprice, haccepted]

theorem open_paymentsQ (accts : AcctsInfo) (table : Table) (key : Nat) (b : Block) :
    (accts777Create accts table key b).paymentsQ = accts.paymentsQ := by
  rw [accts777Create]
  split <;> rfl

section
variable (acct777Lockhash : BitVec 256 → BitVec 16 → BitVec 8 → BitVec 256)

theorem acct777Balance_eq (s : PeggyInfo) (addr : PeggyAddr) (type : BitVec 8) :
    acct777Balance s.accts addr type = ((accts777Key addr type).map (balanceAt s)).getD 0 := by
  rw [acct777Balance, accts777Find]
  cases hkey : accts777Key addr type with
  | none => rfl
  | some k => rfl

theorem Same.balance {s t : PeggyInfo} (h : Same s t) (addr : PeggyAddr) (type : BitVec 8) :
    acct777Balance t.accts addr type = acct777Balance s.accts addr type := by
  have hbal : balanceAt t = balanceAt s := funext h.balances
  rw [acct777Balance_eq, acct777Balance_eq, hbal]

theorem Same.redeem {s t : PeggyInfo} (h : Same s t) {r : Redemption} (hread : r.readonly = true) :
    (peggyRedeem acct777Lockhash t r).2 = (peggyRedeem acct777Lockhash s r).2 := by
  have htarget : r.target acct777Lockhash t = r.target acct777Lockhash s := by
    simp only [Redemption.target, peggyMatch, h.indexed, h.units]
    rw [h.bank]
    rfl
  rw [peggyRedeem, peggyRedeem, htarget]
  split
  · rfl
  · simp only [hread, if_true]
    rw [h.bank]
    rfl

theorem Same.inputValue {s t : PeggyInfo} (h : Same s t) (b : Block) (inp : PeggyInput) (ratio : Nat) (outtype : BitVec 8) :
    inputValue acct777Lockhash t b inp ratio outtype = inputValue acct777Lockhash s b inp ratio outtype := by
  have hcovers : Covers t inp ↔ Covers s inp := by rw [Covers, Covers, h.balance]
  have hlocked : lockedInput t b inp = lockedInput s b inp := by rw [lockedInput, lockedInput, h.bank]
  have hredeem : (peggyRedeem acct777Lockhash t (lockedInput s b inp)).2 =
      (peggyRedeem acct777Lockhash s (lockedInput s b inp)).2 := h.redeem acct777Lockhash rfl
  simp only [Peggy777.inputValue, hcovers, hlocked, hredeem]

/-- The fate of an output for an input or, without one, for the funding. -/
def fate (s : PeggyInfo) (b : Block) (fundedvalue : Int) (inp : Option PeggyInput) (ratio : Nat) (out : PeggyOutput) : Fate :=
  match inp with
  | none => valueFate s b false fundedvalue out
  | some inp =>
    match inputValue acct777Lockhash s b inp ratio out.type with
    | none => .refused
    | some value => valueFate s b (inp.type = 3) value out

/-- What the output is worth, 0 when it is refused before that is known. -/
def worth (s : PeggyInfo) (b : Block) (fundedvalue : Int) (inp : Option PeggyInput) (ratio : Nat) (out : PeggyOutput) : Int :=
  match inp with
  | none => fundedvalue
  | some inp => (inputValue acct777Lockhash s b inp ratio out.type).getD 0

theorem Outcome.of_same {r s t : PeggyInfo} {x value : Int} {dest : Table × Nat} {f : Fate} (hs : Same r s)
    (h : Outcome s t x dest value f) : Outcome r t x dest value f := by
  cases h with
  | refused hr h => exact .refused hr (hs.trans h)
  | idle hr h => exact .idle hr (hs.trans h)
  | created hr h =>
    obtain ⟨U, hU⟩ := h.units
    exact .created hr ⟨fun k => (h.balances k).trans (hs.balances k), U, by rw [hU, hs.units]⟩
  | paid hr h0 h =>
    refine .paid hr h0 ⟨fun k' => ?_, h.fits, h.units.trans hs.units, h.pricefeeds.trans hs.pricefeeds,
      h.indexed.trans hs.indexed, h.peggyhash.trans hs.peggyhash, ?_⟩
    · rw [h.balances, hs.balances]
    · rw [h.bank, hs.bank]

/-- An output that comes back has an account, and its fate. -/
theorem send_outcome {s t : PeggyInfo} {b : Block} {fundedvalue r : Int} {inp : Option PeggyInput} {ratio len : Nat}
    (hlen : len < 100) {out : PeggyOutput}
    (h : peggyTxindSend acct777Lockhash s b fundedvalue inp ratio len out = some (t, r)) :
    ∃ k, accts777Key out.dest out.type = some k ∧
      Outcome s t r k (worth acct777Lockhash s b fundedvalue inp ratio out)
        (fate acct777Lockhash s b fundedvalue inp ratio out) := by
  rw [peggyTxindSend] at h
  split at h
  · cases h
  · obtain ⟨⟨table, key⟩, hkey, h⟩ := Option.bind_eq_some_iff.mp h
    refine ⟨(table, key), hkey, ?_⟩
    have hopen := open_same s table key b
    have hfate := hopen.valueFate (open_paymentsQ s.accts table key b) b
    dsimp only at h
    cases inp with
    | none =>
      have hsend := sendValue_outcome (by omega : 0 < len + 4) (by omega) h
      rw [hfate] at hsend
      exact hsend.of_same hopen
    | some inp =>
      dsimp only at h
      split at h
      · cases h
      · have hinput := hopen.inputValue acct777Lockhash b inp ratio out.type
        rw [hinput] at h
        simp only [worth, fate]
        cases hvalue : inputValue acct777Lockhash s b inp ratio out.type with
        | none =>
          rw [hvalue] at h
          obtain ⟨rfl, rfl⟩ := Prod.mk.inj (Option.some.inj h)
          exact .refused (Int.negSucc_lt_zero 0) hopen
        | some value =>
          rw [hvalue] at h
          have hsend := sendValue_outcome (by omega : 0 < len + 4) (by omega) h
          rw [hfate] at hsend
          exact hsend.of_same hopen

end

end SuperNet.Peggy.Peggy777
