import SuperNet.Peggy.PeggyLiability
import SuperNet.Peggy.PeggyRedemption

/-! The deposits of pool and bank when a unit is redeemed. -/
namespace SuperNet.Peggy.Peggy777
open Lib.Words Serdes777 Accts777

/-- Pool and bank hold less by what the redemption of `U` pays, as the reserves of its currencies do. -/
structure Withdraws (s t : PeggyInfo) (peg : Nat) (U : PeggyUnit) (paid : Int) : Prop where
  pool : (t.contracts peg).pool.funds =
    peggyUpdatemargin (s.contracts peg).pool.funds (-paid) U.lock.margin.toNat (-U.marginamount)
  bank : t.bank.funds = peggyUpdatemargin s.bank.funds (-paid) U.lock.margin.toNat (-U.marginamount)

/-- The cost of a unit makes good its worth and twice the payment. -/
def MakesGood (C W paid : Nat) : Prop := (C : Int) ≡ W + 2 * paidWord paid [ZMOD 2^64]

/-- No funds move when the unit is redeemed. On margin it has no amount. Without margin, and on one of its
days, nothing is paid for it while pool and bank hold deposits, and otherwise its cost makes good what is
paid: the deposits that are too few for its worth, or its worth with the interest or without. -/
def Idle (s : PeggyInfo) (peg : Nat) (now : Nat) (U : PeggyUnit) (lockdays : BitVec 16) : Prop :=
  if U.lock.margin = 0 then
    Redeemable now U lockdays →
      let PEG := s.contracts U.lock.peg.toInt.natAbs
      let days := holdingDays U lockdays
      let price := redeemPrice PEG U days
      let deposits := u64 PEG.pool.funds.deposits
      let W := unitWorth PEG U price days
      let full := u64 (W + unitInterest PEG U W days)
      if Funded s peg then
        (deposits < W → paidWord deposits = 0) ∧ (W ≤ deposits → full ≤ deposits → paidWord full = 0) ∧
          (W ≤ deposits → deposits < full → paidWord W = 0)
      else
        (deposits < W → MakesGood (unitCost PEG U price) W deposits) ∧
          (W ≤ deposits → full ≤ deposits → MakesGood (unitCost PEG U price) W full) ∧
          (W ≤ deposits → deposits < full → MakesGood (unitCost PEG U price) W W)
  else U.marginamount = 0

theorem nothing_paid_iff (x : Nat) : (2 * (paidWord x : Int) + (0 : Nat)) % 2^64 = 0 ↔ paidWord x = 0 := by
  have hlt := paidWord_lt x
  omega

theorem replenished_iff (C W paid : Nat) :
    (2 * (paidWord paid : Int) + u64 (i64 W - i64 C)) % 2^64 = 0 ↔ MakesGood C W paid := by
  have hcast : (2 : Int)^64 = ((2^64 : Nat) : Int) := by norm_num
  rw [MakesGood, hcast, ← ZMod.intCast_eq_intCast_iff, ← Int.dvd_iff_emod_eq_zero, ← ZMod.intCast_zmod_eq_zero_iff_dvd]
  simp only [u64, i64, Int.cast_add, Int.cast_mul, Int.cast_ofNat, Int.cast_natCast, unsigned_cast, Int.cast_sub, signed_cast]
  constructor
  · intro h
    linear_combination -h
  · intro h
    linear_combination -h

theorem replenish_word (s : PeggyInfo) (peg : Nat) (U : PeggyUnit) (lockdays : BitVec 16) :
    let PEG := s.contracts U.lock.peg.toInt.natAbs
    let days := holdingDays U lockdays
    let price := redeemPrice PEG U days
    replenish s peg (redeemEntry s U lockdays) =
      if Funded s peg then 0 else u64 (i64 (unitWorth PEG U price days) - i64 (unitCost PEG U price)) := by
  intro PEG days price
  obtain ⟨htotal, hfee⟩ := pricedEntry_words s U days
  rw [replenish, redeemEntry_fee, hfee, htotal]

theorem cut_iff {p : Nat → Prop} {deposits W full : Nat} :
    p (if deposits < W then deposits else if full ≤ deposits then full else W) ↔
      (deposits < W → p deposits) ∧ (W ≤ deposits → full ≤ deposits → p full) ∧
        (W ≤ deposits → deposits < full → p W) := by
  rcases lt_or_ge deposits W with hshort | hlong
  · rw [if_pos hshort]
    exact ⟨fun h => ⟨fun _ => h, fun hle => absurd hshort (not_lt.mpr hle), fun hle => absurd hshort (not_lt.mpr hle)⟩,
      fun h => h.1 hshort⟩
  · rw [if_neg (not_lt.mpr hlong)]
    rcases le_or_gt full deposits with hfull | hover
    · rw [if_pos hfull]
      exact ⟨fun h => ⟨fun hlt => absurd hlt (not_lt.mpr hlong), fun _ _ => h, fun _ hlt => absurd hlt (not_lt.mpr hfull)⟩,
        fun h => h.2.1 hlong hfull⟩
    · rw [if_neg (not_le.mpr hover)]
      exact ⟨fun h => ⟨fun hlt => absurd hlt (not_lt.mpr hlong), fun _ hle => absurd hover (not_lt.mpr hle), fun _ _ => h⟩,
        fun h => h.2.2 hlong hover⟩

/-- On its days, a unit without margin moves nothing exactly as far as pool, worth and cost say. -/
theorem moves_iff_idle {s : PeggyInfo} {peg now : Nat} {U : PeggyUnit} {lockdays : BitVec 16} (hmargin : U.lock.margin = 0)
    (hdays : Redeemable now U lockdays) :
    (2 * max 0 (payable (s.contracts U.lock.peg.toInt.natAbs).pool.funds U.lock.margin (redeemEntry s U lockdays)) +
        replenish s peg (redeemEntry s U lockdays)) % 2^64 = 0 ↔ Idle s peg now U lockdays := by
  rw [Idle, if_pos hmargin, payable_eq, replenish_word, unitPays]
  simp only [hmargin, if_true, true_and]
  refine Iff.trans ?_ ⟨fun h _ => h, fun h => h hdays⟩
  by_cases hfunded : Funded s peg
  · rw [if_pos hfunded, if_pos hfunded, nothing_paid_iff]
    exact cut_iff (p := fun x => paidWord x = 0)
  · rw [if_neg hfunded, if_neg hfunded, replenished_iff]
    exact cut_iff

theorem updatemargin_eq_iff (funds : PeggyMargin) (satoshis paid : Int) (margin : Nat) (amount : Int) :
    peggyUpdatemargin funds satoshis margin amount = peggyUpdatemargin funds (-paid) margin (-amount) ↔
      if margin = 0 then satoshis = -paid else amount = 0 := by
  rw [peggyUpdatemargin, peggyUpdatemargin]
  split
  · simp
  · next hmargin =>
    simp only [PeggyMargin.mk.injEq, add_right_inj, true_and]
    constructor
    · rintro ⟨h, -⟩
      omega
    · rintro rfl
      simp

/-- A signed word holds the negative of a payment exactly when both cancel modulo its size. -/
theorem i64_eq_neg_iff {x paid : Int} (h0 : 0 ≤ paid) (h : paid < 2^63) : i64 x = -paid ↔ (x + paid) % 2^64 = 0 := by
  simp only [signed, Int.bmod_def]
  push_cast
  split <;> omega

/-- The funds of pool and bank after a unit has been paid off. -/
theorem paidOff_funds (s : PeggyInfo) (peg i : Nat) (U : PeggyUnit) (entry : PeggyEntry) (satoshis : Int) :
    ((paidOff s peg i U entry satoshis).contracts peg).pool.funds =
        peggyUpdatemargin (s.contracts peg).pool.funds (i64 (satoshis + replenish s peg entry)) U.lock.margin.toNat U.marginamount ∧
      (paidOff s peg i U entry satoshis).bank.funds =
        peggyUpdatemargin s.bank.funds (i64 (satoshis + replenish s peg entry)) U.lock.margin.toNat U.marginamount := by
  simp only [paidOff, peggyChangereserve, Function.update_self, and_self]

theorem redemption_withdraws_iff (s : PeggyInfo) (peg i now : Nat) (U : PeggyUnit) (lockdays : BitVec 16) :
    Withdraws s (paidOff s peg i U (peggyRedeemhash s now U lockdays).1 (redeemPaid s now U lockdays)) peg U
        (redeemPaid s now U lockdays) ↔
      Idle s peg now U lockdays := by
  obtain ⟨hpool, hbank⟩ := paidOff_funds s peg i U (peggyRedeemhash s now U lockdays).1 (redeemPaid s now U lockdays)
  obtain ⟨hnonneg, hlt⟩ := redeemPaid_bounds s now U lockdays
  have hword := i64_eq_neg_iff (x := redeemPaid s now U lockdays + replenish s peg (peggyRedeemhash s now U lockdays).1)
    hnonneg hlt
  have hboth : Withdraws s (paidOff s peg i U (peggyRedeemhash s now U lockdays).1 (redeemPaid s now U lockdays)) peg U
      (redeemPaid s now U lockdays) ↔
      if U.lock.margin.toNat = 0 then
        i64 (redeemPaid s now U lockdays + replenish s peg (peggyRedeemhash s now U lockdays).1) = -redeemPaid s now U lockdays
      else U.marginamount = 0 := by
    constructor
    · intro h
      exact (updatemargin_eq_iff _ _ _ _ _).mp (hbank.symm.trans h.bank)
    · intro h
      exact ⟨hpool.trans ((updatemargin_eq_iff _ _ _ _ _).mpr h), hbank.trans ((updatemargin_eq_iff _ _ _ _ _).mpr h)⟩
  rw [hboth, hword]
  have hmargin : U.lock.margin.toNat = 0 ↔ U.lock.margin = 0 := by
    rw [← BitVec.toNat_inj]
    rfl
  by_cases hm : U.lock.margin = 0
  · rw [if_pos (hmargin.mpr hm)]
    by_cases hdays : Redeemable now U lockdays
    · have hdouble : ∀ paid fee : Int, paid + fee + paid = 2 * paid + fee := fun paid fee => by ring
      have hentry : (peggyRedeemhash s now U lockdays).1 = redeemEntry s U lockdays := by rw [redeem_on_days hdays]
      rw [hentry, redeemPaid_on_days hdays, hdouble]
      exact moves_iff_idle hm hdays
    · obtain ⟨hpaid, hfee⟩ := redeem_off_days (s := s) peg hdays
      rw [hpaid, hfee, Idle, if_pos hm]
      exact ⟨fun _ h => absurd h hdays, fun _ => rfl⟩
  · rw [if_neg (fun h => hm (hmargin.mp h)), Idle, if_neg hm]

section
variable (acct777Lockhash : BitVec 256 → BitVec 16 → BitVec 8 → BitVec 256)

/-- A redemption that deletes a unit takes what it pays out of pool and bank. -/
def Op.Withdraws (s : PeggyInfo) : Op → Prop
  | .redeem r => ∀ peg i U, r.target acct777Lockhash s = some (peg, i, U) → r.readonly = false →
      Peggy777.Withdraws s (step acct777Lockhash s (.redeem r)) peg U (peggyRedeem acct777Lockhash s r).2
  | _ => True

/-- No redemption moves funds of pool or bank. -/
def Op.Idle (s : PeggyInfo) : Op → Prop
  | .redeem r => ∀ peg i U, r.target acct777Lockhash s = some (peg, i, U) → r.readonly = false →
      Peggy777.Idle s peg r.now U r.lockdays
  | _ => True

theorem step_withdraws_iff (s : PeggyInfo) (op : Op) : op.Withdraws acct777Lockhash s ↔ op.Idle acct777Lockhash s := by
  cases op with
  | redeem r =>
    refine forall_congr' fun peg => forall_congr' fun i => forall_congr' fun U => forall_congr' fun htarget =>
      forall_congr' fun hread => ?_
    have hstep : peggyRedeem acct777Lockhash s r =
        (paidOff s peg i U (peggyRedeemhash s r.now U r.lockdays).1 (redeemPaid s r.now U r.lockdays),
          redeemPaid s r.now U r.lockdays) := by
      simp only [peggyRedeem, htarget, hread]
      rfl
    rw [step, hstep]
    exact redemption_withdraws_iff s peg i r.now U r.lockdays
  | createunit c => exact Iff.rfl
  | margincalls peg newprice shortprice => exact Iff.rfl
  | prices peg dayprice dayprices => exact Iff.rfl

/-- Over a whole run, redemptions lower the deposits by what they pay exactly when none of them moves
any funds. -/
theorem run_withdraws_iff (s : PeggyInfo) (ops : List Op) :
    Along acct777Lockhash (Op.Withdraws acct777Lockhash) s ops ↔ Along acct777Lockhash (Op.Idle acct777Lockhash) s ops := by
  induction ops generalizing s with
  | nil => exact Iff.rfl
  | cons op ops ih => exact and_congr (step_withdraws_iff acct777Lockhash s op) (ih _)

end

/-- Five coins deposited for a unit are ten once its redemption has paid five of them out. -/
theorem redemption_doubles_deposits :
    let held := step (fun _ _ _ => 7) (newBank false) (.createunit (fiveUnits 1 5))
    let left := step (fun _ _ _ => 7) held (.redeem redeemUnits)
    ((newBank false).bank.funds.deposits = 0 ∧ held.bank.funds.deposits = 500000000 ∧
      (peggyRedeem (fun _ _ _ => 7) held redeemUnits).2 = 500000000 ∧ left.bank.funds.deposits = 1000000000 ∧
      (left.contracts 1).pool.funds.deposits = 1000000000) ∧
    ¬ ∀ (acct777Lockhash : BitVec 256 → BitVec 16 → BitVec 8 → BitVec 256) (s : PeggyInfo) (ops : List Op),
      Opened s → Along acct777Lockhash (Op.Withdraws acct777Lockhash) s ops := by
  intro held left
  have hruns : (newBank false).bank.funds.deposits = 0 ∧ held.bank.funds.deposits = 500000000 ∧
      (peggyRedeem (fun _ _ _ => 7) held redeemUnits).2 = 500000000 ∧ left.bank.funds.deposits = 1000000000 ∧
      (left.contracts 1).pool.funds.deposits = 1000000000 := by
    decide +kernel
  refine ⟨hruns, fun h => ?_⟩
  have hplain : (redeemUnits.target (fun _ _ _ => 7) held).map (fun x => x.2.2.lock.margin) = some 0 := by decide +kernel
  obtain ⟨⟨peg, i, U⟩, htarget, hmargin⟩ := Option.map_eq_some_iff.mp hplain
  have hbank := ((h _ _ _ (newBank_opened false) :
    Along (fun _ _ _ => 7) _ (newBank false) [.createunit (fiveUnits 1 5), .redeem redeemUnits]).2.1 peg i U htarget rfl).bank
  have hzero : U.lock.margin.toNat = 0 := congrArg BitVec.toNat hmargin
  rw [peggyUpdatemargin, if_pos hzero] at hbank
  have hdeposits := congrArg PeggyMargin.deposits hbank
  rw [hruns.2.1, hruns.2.2.1, hruns.2.2.2.1] at hdeposits
  norm_num at hdeposits

end SuperNet.Peggy.Peggy777
