import SuperNet.Peggy.PeggyBank

/-! What a unit is worth on its redemption days, in terms of the prices of its contract and the deposits
of its pool. -/
namespace SuperNet.Peggy.Peggy777
open Lib.Words Serdes777 Accts777

/-- The price after the spread, which no contract of BTCD with itself has. -/
def spreadOff (PEG : PeggyContract) (price : Int) (days : Nat) : Int :=
  if PEG.baseid ≠ btcdId ∨ PEG.relid ≠ btcdId then price - scaledPrice price (peggyCalcspread PEG.spread days) else price

/-- The satoshis of a unit at a price, with `oppoprice` for a short one. -/
def valueAt (U : PeggyUnit) (price oppoprice : Int) : Nat :=
  peggySatoshis (if 0 ≤ U.lock.peg.toInt then 1 else -1) U.lock.denom.toInt price oppoprice

/-- Satoshis rounded down to main units, and one less where they are not whole ones. -/
def wholeMainunits (poolincr satoshis : Nat) : Int :=
  if satoshis % poolincr = 0 then satoshis else poolincr * ((satoshis / poolincr : Nat) - 1)

def oppositePrice (PEG : PeggyContract) (U : PeggyUnit) (price : Int) : Int :=
  if 0 ≤ U.lock.peg.toInt then 0 else peggyShortprice PEG price

/-- What a unit is worth at a price when the spread is taken off: whole main units, as a word. -/
def unitWorth (PEG : PeggyContract) (U : PeggyUnit) (price : Int) (days : Nat) : Nat :=
  u64 (wholeMainunits PEG.pool.mainunitsize (valueAt U (spreadOff PEG price days) (oppositePrice PEG U price)))

def unitCost (PEG : PeggyContract) (U : PeggyUnit) (price : Int) : Nat := valueAt U price (oppositePrice PEG U price)

/-- The interest on a worth: in main units, and no more than was estimated. -/
def unitInterest (PEG : PeggyContract) (U : PeggyUnit) (satoshis : Nat) (days : Nat) : Int :=
  if U.estimatedInterest = 0 then 0
  else
    let interest := u64 (peggyCompound (i64 satoshis) U.dailyrate (days + U.lock.extralockdays.toNat) - satoshis)
    min (i64 (interest / PEG.pool.mainunitsize * PEG.pool.mainunitsize : Nat)) U.estimatedInterest

/-- What a word pays: one that is negative as a signed word pays nothing. -/
def paidWord (x : Nat) : Nat := if x < 2^63 then x else 0

/-- What the pool pays for a unit on one of its days: its deposits where they are too few for its worth, or
else its worth, with the interest as far as the deposits go. Margin deposits pay no interest. -/
def unitPays (s : PeggyInfo) (U : PeggyUnit) (lockdays : BitVec 16) : Nat :=
  let PEG := s.contracts U.lock.peg.toInt.natAbs
  let days := holdingDays U lockdays
  let held := u64 (if U.lock.margin = 0 then PEG.pool.funds.deposits else PEG.pool.funds.margindeposits)
  let W := unitWorth PEG U (redeemPrice PEG U days) days
  let full := u64 (W + unitInterest PEG U W days)
  paidWord (if held < W then held else if U.lock.margin = 0 ∧ full ≤ held then full else W)

/-- Main units of a redemption: `peggy_poolmainunits` takes one off where the satoshis are not whole ones. -/
theorem mainunits_total (poolincr satoshis : Nat) :
    i64 (poolincr * u64 ((if satoshis % poolincr = 0 then 0 else -1) + (satoshis / poolincr : Nat))) =
      i64 (u64 (wholeMainunits poolincr satoshis)) := by
  rw [i64_u64, i64_mul_u64, wholeMainunits]
  split
  · next hwhole =>
    rw [zero_add, ← Nat.cast_mul, Nat.mul_div_cancel' (Nat.dvd_of_mod_eq_zero hwhole)]
  · rw [neg_add_eq_sub]

/-- The entry of a unit priced for its redemption, before the interest. -/
def pricedEntry (s : PeggyInfo) (U : PeggyUnit) (days : Nat) : PeggyEntry :=
  let (peg, entry) := peggyFindpeg s U.lock.peg.toInt
  let PEG := s.contracts peg
  let price := redeemPrice PEG U days
  let oppoprice := if entry.polarity < 0 then peggyShortprice PEG price else 0
  peggyPoolmainunits entry (-1) entry.polarity price oppoprice (peggyCalcspread PEG.spread days)
    PEG.pool.mainunitsize U.lock.denom.toInt

theorem found_polarity_sign (PEG : PeggyContract) (U : PeggyUnit) :
    (peggyFound PEG U.lock.peg.toInt).polarity = if 0 ≤ U.lock.peg.toInt then 1 else -1 := by
  rw [peggyFound]
  split <;> rfl

theorem oppositePrice_eq (PEG : PeggyContract) (U : PeggyUnit) (price : Int) :
    (if (peggyFound PEG U.lock.peg.toInt).polarity < 0 then peggyShortprice PEG price else 0) = oppositePrice PEG U price := by
  rw [found_polarity_sign, oppositePrice]
  split <;> rfl

theorem spreadOff_eq (PEG : PeggyContract) (U : PeggyUnit) (price : Int) (days : Nat) :
    price + -1 * (if ((peggyFound PEG U.lock.peg.toInt).baseid ≠ 0 ∨ (peggyFound PEG U.lock.peg.toInt).relid ≠ 0) ∧
      peggyCalcspread PEG.spread days ≠ 0 then scaledPrice price (peggyCalcspread PEG.spread days) else 0) =
      spreadOff PEG price days := by
  have hids : ((peggyFound PEG U.lock.peg.toInt).baseid ≠ 0 ∨ (peggyFound PEG U.lock.peg.toInt).relid ≠ 0) ↔
      PEG.baseid ≠ btcdId ∨ PEG.relid ≠ btcdId := by
    rw [peggyFound]
    split
    · exact Iff.rfl
    · exact or_comm
  rw [spreadOff, neg_one_mul, ← sub_eq_add_neg]
  by_cases hbtcd : PEG.baseid ≠ btcdId ∨ PEG.relid ≠ btcdId
  · rw [if_pos hbtcd]
    by_cases hspread : peggyCalcspread PEG.spread days = 0
    · rw [if_neg fun h => h.2 hspread, hspread, scaledPrice, zero_mul, Int.zero_tdiv]
    · rw [if_pos ⟨hids.mpr hbtcd, hspread⟩]
  · rw [if_neg hbtcd, if_neg fun h => hbtcd (hids.mp h.1), sub_zero]

theorem pricedEntry_eq (s : PeggyInfo) (U : PeggyUnit) (days : Nat) :
    let PEG := s.contracts U.lock.peg.toInt.natAbs
    pricedEntry s U days = peggyPoolmainunits (peggyFound PEG U.lock.peg.toInt) (-1)
      (peggyFound PEG U.lock.peg.toInt).polarity (redeemPrice PEG U days) (oppositePrice PEG U (redeemPrice PEG U days))
      (peggyCalcspread PEG.spread days) PEG.pool.mainunitsize U.lock.denom.toInt := by
  intro PEG
  rw [← oppositePrice_eq]
  rfl

/-- What a priced unit pays, and the fee in it. -/
theorem pricedEntry_words (s : PeggyInfo) (U : PeggyUnit) (days : Nat) :
    let PEG := s.contracts U.lock.peg.toInt.natAbs
    let price := redeemPrice PEG U days
    (pricedEntry s U days).total = i64 (unitWorth PEG U price days) ∧
      (pricedEntry s U days).fee = (pricedEntry s U days).total - i64 (unitCost PEG U price) := by
  intro PEG price
  rw [pricedEntry_eq, unitWorth, unitCost, ← mainunits_total]
  simp only [peggyPoolmainunits, spreadOff_eq, found_polarity_sign, valueAt]
  exact ⟨rfl, rfl⟩

theorem unitWorth_lt (PEG : PeggyContract) (U : PeggyUnit) (price : Int) (days : Nat) : unitWorth PEG U price days < 2^64 := by
  rw [unitWorth]
  exact unsigned_lt 64 _

theorem redeemEntry_total (s : PeggyInfo) (U : PeggyUnit) (lockdays : BitVec 16) :
    (redeemEntry s U lockdays).total = (pricedEntry s U (holdingDays U lockdays)).total := by
  simp only [redeemEntry, pricedEntry, apply_ite PeggyEntry.total, ite_self]

theorem redeemEntry_fee (s : PeggyInfo) (U : PeggyUnit) (lockdays : BitVec 16) :
    (redeemEntry s U lockdays).fee = (pricedEntry s U (holdingDays U lockdays)).fee := by
  simp only [redeemEntry, pricedEntry, apply_ite PeggyEntry.fee, ite_self]

theorem pricedEntry_interestpaid (s : PeggyInfo) (U : PeggyUnit) (days : Nat) : (pricedEntry s U days).interestpaid = 0 := by
  simp only [pricedEntry, peggyPoolmainunits, peggyFindpeg, peggyFound]
  split <;> rfl

theorem redeemEntry_interestpaid (s : PeggyInfo) (U : PeggyUnit) (lockdays : BitVec 16) :
    let PEG := s.contracts U.lock.peg.toInt.natAbs
    let days := holdingDays U lockdays
    (redeemEntry s U lockdays).interestpaid = unitInterest PEG U (unitWorth PEG U (redeemPrice PEG U days) days) days := by
  intro PEG days
  have htotal : (pricedEntry s U days).total = i64 (unitWorth PEG U (redeemPrice PEG U days) days) := (pricedEntry_words s U days).1
  have hword : u64 (pricedEntry s U days).total = unitWorth PEG U (redeemPrice PEG U days) days := by
    rw [htotal, u64_i64]
    exact unsigned_of_lt (unitWorth_lt _ _ _ _)
  have hentry : (redeemEntry s U lockdays).interestpaid = if U.estimatedInterest = 0 then (pricedEntry s U days).interestpaid
      else min (i64 (u64 (peggyCompound (pricedEntry s U days).total U.dailyrate (days + U.lock.extralockdays.toNat) -
        u64 (pricedEntry s U days).total) / (s.contracts (peggyFindpeg s U.lock.peg.toInt).1).pool.mainunitsize *
        (s.contracts (peggyFindpeg s U.lock.peg.toInt).1).pool.mainunitsize : Nat)) U.estimatedInterest := by
    simp only [redeemEntry, pricedEntry, apply_ite PeggyEntry.interestpaid, days]
  rw [hentry, pricedEntry_interestpaid, hword, htotal, unitInterest]
  rfl

theorem max_i64 {x : Nat} (h : x < 2^64) : max 0 (i64 x) = paidWord x := by
  rw [paidWord]
  split
  · next hlt =>
    have hsame : i64 x = x := signed_of_bounds (by omega) (by omega)
    rw [hsame, max_eq_right (Int.natCast_nonneg x)]
  · next hge =>
    have hwrap : i64 x = x - 2^64 := signed_wrap (by omega) (by omega)
    rw [hwrap, Nat.cast_zero]
    exact max_eq_left (by omega)

theorem paidWord_lt (x : Nat) : paidWord x < 2^63 := by
  rw [paidWord]
  split
  · next h => exact h
  · decide

theorem payable_eq (s : PeggyInfo) (U : PeggyUnit) (lockdays : BitVec 16) :
    max 0 (payable (s.contracts U.lock.peg.toInt.natAbs).pool.funds U.lock.margin (redeemEntry s U lockdays)) =
      unitPays s U lockdays := by
  have hword : u64 (redeemEntry s U lockdays).total = unitWorth (s.contracts U.lock.peg.toInt.natAbs) U
      (redeemPrice (s.contracts U.lock.peg.toInt.natAbs) U (holdingDays U lockdays)) (holdingDays U lockdays) := by
    rw [redeemEntry_total, (pricedEntry_words s U (holdingDays U lockdays)).1, u64_i64]
    exact unsigned_of_lt (unitWorth_lt _ _ _ _)
  rw [unitPays, payable, hword, redeemEntry_interestpaid]
  by_cases hmargin : U.lock.margin = 0
  · simp only [hmargin, if_true, true_and]
    refine max_i64 ?_
    split
    · exact unsigned_lt 64 _
    · split
      · exact unsigned_lt 64 _
      · exact unitWorth_lt _ _ _ _
  · simp only [hmargin, if_false, false_and]
    refine max_i64 ?_
    split
    · exact unsigned_lt 64 _
    · exact unitWorth_lt _ _ _ _

/-- Off its days a unit is paid nothing and no fee is taken. -/
theorem redeem_off_days {s : PeggyInfo} {now : Nat} {U : PeggyUnit} {lockdays : BitVec 16} (peg : Nat)
    (h : ¬ Redeemable now U lockdays) :
    redeemPaid s now U lockdays = 0 ∧ replenish s peg (peggyRedeemhash s now U lockdays).1 = 0 := by
  have hfee : (peggyFindpeg s U.lock.peg.toInt).2.fee = 0 := by
    rw [peggyFindpeg, peggyFound]
    split <;> rfl
  have hzero : replenish s peg (peggyFindpeg s U.lock.peg.toInt).2 = 0 := by
    rw [replenish, hfee]
    split <;> rfl
  rw [redeemPaid, peggyRedeemhash]
  split
  · exact ⟨rfl, hzero⟩
  · next hearly =>
    rw [if_pos (not_le.mp fun hlate => h ⟨not_lt.mp hearly, hlate⟩)]
    exact ⟨rfl, hzero⟩

theorem redeem_on_days {s : PeggyInfo} {now : Nat} {U : PeggyUnit} {lockdays : BitVec 16} (h : Redeemable now U lockdays) :
    peggyRedeemhash s now U lockdays = (redeemEntry s U lockdays,
      payable (s.contracts U.lock.peg.toInt.natAbs).pool.funds U.lock.margin (redeemEntry s U lockdays)) := by
  rw [peggyRedeemhash, if_neg (not_lt.mpr h.1), if_neg (not_lt.mpr h.2)]

theorem redeemPaid_on_days {s : PeggyInfo} {now : Nat} {U : PeggyUnit} {lockdays : BitVec 16} (h : Redeemable now U lockdays) :
    redeemPaid s now U lockdays =
      max 0 (payable (s.contracts U.lock.peg.toInt.natAbs).pool.funds U.lock.margin (redeemEntry s U lockdays)) := by
  rw [redeemPaid, redeem_on_days h]

theorem redeemPaid_eq (s : PeggyInfo) (now : Nat) (U : PeggyUnit) (lockdays : BitVec 16) :
    redeemPaid s now U lockdays = if Redeemable now U lockdays then unitPays s U lockdays else 0 := by
  split
  · next h => rw [redeemPaid_on_days h, payable_eq]
  · next h => exact (redeem_off_days 0 h).1

theorem redeemPaid_bounds (s : PeggyInfo) (now : Nat) (U : PeggyUnit) (lockdays : BitVec 16) :
    0 ≤ redeemPaid s now U lockdays ∧ redeemPaid s now U lockdays < 2^63 := by
  rw [redeemPaid_eq]
  split
  · rw [unitPays]
    exact ⟨Int.natCast_nonneg _, by exact_mod_cast paidWord_lt _⟩
  · exact ⟨le_rfl, by norm_num⟩

end SuperNet.Peggy.Peggy777
