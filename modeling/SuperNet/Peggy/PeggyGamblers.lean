import SuperNet.Lib.Runs
import SuperNet.Lib.Shares
import SuperNet.Peggy.Peggy777

/-! Bets on the next price: `peggy_gamblers` shares out the stakes on the direction and on the distance. -/
namespace SuperNet.Peggy.Peggy777
open Lib.Words Lib.Runs Lib.Shares

structure PeggyBet where
  prediction : Int
  distbet : Nat
  dirbet : Nat
  payout : Nat
  shares : Nat
  dist : Nat
  timestamp : Nat
  minutes : Nat
  deriving DecidableEq, Inhabited

/-- The prices between which the bets are settled, and the time of the block. -/
structure PriceMove where
  blocktimestamp : Nat
  prevprice : Int
  newprice : Int

def peggyMinute : Nat := 60

section
variable (m : PriceMove) (bets : List PeggyBet) (b : PeggyBet)

def PriceMove.minutes : Nat := u32 (m.blocktimestamp - b.timestamp) / peggyMinute

/-- Positive when the price has moved in the predicted direction, negative when in the other. -/
def PriceMove.tmp : Int := (m.newprice - m.prevprice).sign * (b.prediction - m.prevprice).sign

/-- The number of price steps between the prediction and the price, counted from one. -/
def PriceMove.dist : Nat := (m.newprice - b.prediction).natAbs + 1

def scored : PeggyBet :=
  { b with
    minutes := m.minutes b
    shares := if b.dirbet ≠ 0 ∧ 0 < m.tmp b then u64 (b.dirbet * m.minutes b : Nat) else 0
    dist := if b.distbet ≠ 0 then u64 (m.dist b) else 0
    payout := 0 }

def totalbets : Nat := tally 64 (fun b => u64 (b.dirbet + b.distbet : Nat)) bets

def matchshares : Nat :=
  let matchshares := tally 64 (fun b => if 0 < m.tmp b then u64 (b.dirbet * (1 + m.minutes b) : Nat) else 0) bets
  u64 (matchshares + matchshares / 100 : Nat)

def oppobets : Nat := tally 64 (fun b => if m.tmp b < 0 then b.dirbet else 0) bets

def bestdist : Nat :=
  rounds (fun bestdist j =>
    if (bets.getD j default).distbet ≠ 0 ∧ (bestdist = 0 ∨ m.dist (bets.getD j default) < bestdist) then
      m.dist (bets.getD j default)
    else bestdist) 0 bets.length

def winningbets : Nat :=
  let winningbets := tally 64 (fun b => if (scored m b).dist = u64 (bestdist m bets) then b.distbet else 0) bets
  u64 (winningbets + winningbets / 100 : Nat)

def losingbets : Nat := tally 64 (fun b => if (scored m b).dist = u64 (bestdist m bets) then 0 else b.distbet) bets

/-- What is paid on the distance. -/
def distpayout : Nat :=
  if (scored m b).dist = u64 (bestdist m bets) ∧ winningbets m bets ≠ 0 then
    u64 (b.distbet + u64 (b.distbet * losingbets m bets : Nat) / winningbets m bets : Nat)
  else 0

/-- A payout on the direction is stored over the one on the distance. -/
def settled : PeggyBet :=
  let bet := scored m b
  { bet with
    payout :=
      if bet.shares ≠ 0 then u64 (bet.dirbet + u64 (bet.shares * oppobets m bets : Nat) / matchshares m bets : Nat)
      else distpayout m bets b }

/-- `bank.privatebetfees` and the bets. No bets at all are the null pointer, too. -/
def peggyGamblers (privatebetfees : Int) : Int × List PeggyBet :=
  let paid := bets.map (settled m bets)
  (i64 (privatebetfees + u64 ((totalbets bets : Int) - tally 64 PeggyBet.payout paid)), paid)

/-- The prediction is among the closest of those who have staked on the distance. -/
def Closest : Prop := ∀ c ∈ bets, c.distbet ≠ 0 → m.dist b ≤ m.dist c

instance : Decidable (Closest m bets b) := inferInstanceAs (Decidable (∀ c ∈ bets, _))

def PeggyBet.stakes : Nat := b.dirbet + b.distbet

/-- The stake on the direction, where it wins. -/
def dirstake : Nat := if 0 < m.tmp b then b.dirbet else 0

/-- The stake on the distance, where it wins. -/
def diststake : Nat := if Closest m bets b then b.distbet else 0

/-- The stakes on the direction that lose. A price that has not moved takes none. -/
def oppostakes : Nat := (bets.map fun b => if m.tmp b < 0 then b.dirbet else 0).sum

def lossstakes : Nat := (bets.map fun b => if Closest m bets b then 0 else b.distbet).sum

def padded (x : Nat) : Nat := x + x / 100

/-- The winning stakes on the direction, each counted once more than the minutes of its age, and one percent. -/
def dirweight : Nat := padded (bets.map fun b => dirstake m b * (1 + m.minutes b)).sum

def distweight : Nat := padded (bets.map (diststake m bets)).sum

/-- A winning stake on the direction with its share of the losing ones. -/
def dirpay : Nat := dirstake m b + dirstake m b * m.minutes b * oppostakes m bets / dirweight m bets

def distpay : Nat := diststake m bets b + diststake m bets b * lossstakes m bets / distweight m bets

/-- The sums and products that `peggy_gamblers` forms stay within 64 bits. -/
structure Fits : Prop where
  stakes : (bets.map PeggyBet.stakes).sum < 2^64
  dist : ∀ b ∈ bets, b.distbet ≠ 0 → m.dist b < 2^63
  dirtotal : dirweight m bets < 2^64
  disttotal : distweight m bets < 2^64
  dirshare : ∀ b ∈ bets, dirstake m b * m.minutes b * oppostakes m bets < 2^64
  distshare : ∀ b ∈ bets, diststake m bets b * lossstakes m bets < 2^64

end

variable {m : PriceMove} {bets : List PeggyBet} {b : PeggyBet}

theorem bestdist_spec (m : PriceMove) (bets : List PeggyBet) :
    (∀ b ∈ bets, b.distbet ≠ 0 → bestdist m bets ≠ 0 ∧ bestdist m bets ≤ m.dist b) ∧
      (bestdist m bets ≠ 0 → ∃ b ∈ bets, b.distbet ≠ 0 ∧ m.dist b = bestdist m bets) := by
  have hpick : (∀ j < bets.length, (bets.getD j default).distbet ≠ 0 →
        bestdist m bets ≠ 0 ∧ bestdist m bets ≤ m.dist (bets.getD j default)) ∧
      (bestdist m bets ≠ 0 → ∃ j < bets.length, (bets.getD j default).distbet ≠ 0 ∧
        m.dist (bets.getD j default) = bestdist m bets) := by
    refine rounds_pick (r := fun best x => best ≠ 0 ∧ best ≤ x) bets.length ?_ ?_ ?_
    · intro j _
      exact ⟨Nat.succ_ne_zero _, Nat.le_refl _⟩
    · intro best j x _ hless hbest
      exact ⟨Nat.succ_ne_zero _, by omega⟩
    · intro best j _ hnot
      omega
  obtain ⟨hleast, hsome⟩ := hpick
  constructor
  · intro b hb hbet
    obtain ⟨j, hj, rfl⟩ := List.mem_iff_getElem.mp hb
    have hget : bets.getD j default = bets[j] := by simp [hj]
    have hj' := hleast j hj (by rwa [hget])
    rwa [hget] at hj'
  · intro hbest
    obtain ⟨j, hj, hbet, heq⟩ := hsome hbest
    have hget : bets.getD j default = bets[j] := by simp [hj]
    rw [hget] at hbet heq
    exact ⟨bets[j], List.getElem_mem hj, hbet, heq⟩

/-- The winners on the distance are the closest predictions. -/
theorem Fits.scored_dist_iff (h : Fits m bets) (hb : b ∈ bets) (hbet : b.distbet ≠ 0) :
    (scored m b).dist = u64 (bestdist m bets) ↔ Closest m bets b := by
  obtain ⟨hleast, hsome⟩ := bestdist_spec m bets
  obtain ⟨hbest, hle⟩ := hleast b hb hbet
  obtain ⟨c, hc, hcbet, hcdist⟩ := hsome hbest
  have hfits := h.dist b hb hbet
  have hscored : (scored m b).dist = m.dist b := by
    rw [scored, if_pos hbet]
    exact unsigned_of_lt (by omega)
  have hword : u64 (bestdist m bets) = bestdist m bets := unsigned_of_lt (by omega)
  rw [hscored, hword]
  constructor
  · intro heq a ha habet
    rw [heq]
    exact (hleast a ha habet).2
  · intro hclosest
    have hcle := hclosest c hc hcbet
    omega

theorem Fits.scored_diststake (h : Fits m bets) (hb : b ∈ bets) :
    (if (scored m b).dist = u64 (bestdist m bets) then b.distbet else 0) = diststake m bets b := by
  rcases Nat.eq_zero_or_pos b.distbet with hzero | hpos
  · simp [diststake, hzero]
  · simp only [diststake, h.scored_dist_iff hb hpos.ne']

theorem sum_lossstakes (m : PriceMove) (bets : List PeggyBet) :
    (bets.map (diststake m bets)).sum + lossstakes m bets = (bets.map PeggyBet.distbet).sum := by
  rw [lossstakes, ← List.sum_map_add]
  apply congrArg List.sum
  apply List.map_congr_left
  intro b _
  rw [diststake]
  split <;> simp

theorem sum_oppostakes (m : PriceMove) (bets : List PeggyBet) :
    (bets.map (dirstake m)).sum + oppostakes m bets ≤ (bets.map PeggyBet.dirbet).sum := by
  rw [oppostakes, ← List.sum_map_add]
  apply List.sum_le_sum
  intro b _
  rw [dirstake]
  split <;> split <;> omega

theorem sum_stakes (bets : List PeggyBet) :
    (bets.map PeggyBet.stakes).sum = (bets.map PeggyBet.dirbet).sum + (bets.map PeggyBet.distbet).sum :=
  List.sum_map_add

theorem Fits.totalbets_eq (h : Fits m bets) : totalbets bets = (bets.map PeggyBet.stakes).sum :=
  (tally_words 64 PeggyBet.stakes bets).trans (tally_of_lt h.stakes)

theorem Fits.oppobets_eq (h : Fits m bets) : oppobets m bets = oppostakes m bets := by
  apply tally_of_lt
  have hopp := sum_oppostakes m bets
  have hstakes := h.stakes
  rw [sum_stakes] at hstakes
  rw [oppostakes] at hopp
  omega

theorem padded_lt {x y : Nat} (h : padded x < y) : x < y := by
  rw [padded] at h
  omega

theorem Fits.matchshares_eq (h : Fits m bets) : matchshares m bets = dirweight m bets := by
  have hshare : (fun b : PeggyBet => if 0 < m.tmp b then u64 (b.dirbet * (1 + m.minutes b) : Nat) else 0) =
      fun b => u64 (dirstake m b * (1 + m.minutes b) : Nat) := by
    funext b
    rw [dirstake]
    split
    · rfl
    · rw [Nat.zero_mul]
      rfl
  rw [matchshares, hshare, tally_words, tally_of_lt (padded_lt h.dirtotal)]
  exact unsigned_of_lt h.dirtotal

theorem Fits.winningbets_eq (h : Fits m bets) : winningbets m bets = distweight m bets := by
  have htally : tally 64 (fun b => if (scored m b).dist = u64 (bestdist m bets) then b.distbet else 0) bets =
      (bets.map (diststake m bets)).sum :=
    tally_congr (fun b hb => h.scored_diststake hb) (padded_lt h.disttotal)
  rw [winningbets, htally]
  exact unsigned_of_lt h.disttotal

theorem Fits.losingbets_eq (h : Fits m bets) : losingbets m bets = lossstakes m bets := by
  have hle := sum_lossstakes m bets
  have hstakes := h.stakes
  rw [sum_stakes] at hstakes
  refine tally_congr (fun b hb => ?_) (by rw [← lossstakes]; omega)
  rcases Nat.eq_zero_or_pos b.distbet with hzero | hpos
  · simp [hzero]
  · simp only [h.scored_dist_iff hb hpos.ne']

/-- All that is paid on the distance comes from the stakes on it. -/
theorem sum_distpay (m : PriceMove) (bets : List PeggyBet) :
    (bets.map (distpay m bets)).sum ≤ (bets.map PeggyBet.distbet).sum := by
  rw [← sum_lossstakes m]
  apply sum_settled_le
  rw [distweight, padded]
  omega

/-- All that is paid on the direction comes from the stakes on it. -/
theorem sum_dirpay (m : PriceMove) (bets : List PeggyBet) :
    (bets.map (dirpay m bets)).sum ≤ (bets.map PeggyBet.dirbet).sum := by
  refine Nat.le_trans ?_ (sum_oppostakes m bets)
  apply sum_settled_le
  have hle : (bets.map fun b => dirstake m b * m.minutes b).sum ≤
      (bets.map fun b => dirstake m b * (1 + m.minutes b)).sum := by
    apply List.sum_le_sum
    intro b _
    exact Nat.mul_le_mul_left _ (Nat.le_add_left _ _)
  rw [dirweight, padded]
  omega

/-- Payments that together do not exceed the stakes fit a word each. -/
theorem Fits.pay_lt (h : Fits m bets) {pay : PeggyBet → Nat} (hpay : (bets.map pay).sum ≤ (bets.map PeggyBet.stakes).sum)
    (hb : b ∈ bets) : pay b < 2^64 := by
  have hle : pay b ≤ (bets.map pay).sum := List.le_sum_of_mem (List.mem_map_of_mem hb)
  exact (hle.trans hpay).trans_lt h.stakes

theorem Fits.distpay_lt (h : Fits m bets) (hb : b ∈ bets) : distpay m bets b < 2^64 := by
  apply h.pay_lt _ hb
  rw [sum_stakes]
  exact Nat.le_add_left_of_le (sum_distpay m bets)

theorem Fits.dirpay_lt (h : Fits m bets) (hb : b ∈ bets) : dirpay m bets b < 2^64 := by
  apply h.pay_lt _ hb
  rw [sum_stakes]
  exact Nat.le_add_right_of_le (sum_dirpay m bets)

theorem diststake_le (hb : b ∈ bets) : diststake m bets b ≤ distweight m bets := by
  have hle : diststake m bets b ≤ (bets.map (diststake m bets)).sum := List.le_sum_of_mem (List.mem_map_of_mem hb)
  rw [distweight, padded]
  omega

theorem Fits.distpayout_eq (h : Fits m bets) (hb : b ∈ bets) : distpayout m bets b = distpay m bets b := by
  have hstake := h.scored_diststake hb
  have hshare : u64 (diststake m bets b * lossstakes m bets : Nat) = diststake m bets b * lossstakes m bets :=
    unsigned_of_lt (h.distshare b hb)
  rw [distpayout, h.winningbets_eq, h.losingbets_eq]
  split_ifs at hstake with hclosest
  · by_cases hweight : distweight m bets = 0
    · have hzero : diststake m bets b = 0 := Nat.le_zero.mp (hweight ▸ diststake_le hb)
      rw [if_neg fun hwon => hwon.2 hweight, distpay, hzero]
      simp
    · rw [if_pos ⟨hclosest, hweight⟩, hstake, hshare]
      exact unsigned_of_lt (h.distpay_lt hb)
  · rw [if_neg fun hwon => hclosest hwon.1, distpay, ← hstake]
    simp

theorem Fits.scored_shares (h : Fits m bets) (hb : b ∈ bets) : (scored m b).shares = dirstake m b * m.minutes b := by
  have hle : dirstake m b * (1 + m.minutes b) ≤ (bets.map fun b => dirstake m b * (1 + m.minutes b)).sum :=
    List.le_sum_of_mem (List.mem_map.mpr ⟨b, hb, rfl⟩)
  have hfits : dirstake m b * m.minutes b < 2^64 :=
    ((Nat.mul_le_mul_left _ (Nat.le_add_left _ _)).trans hle).trans_lt (padded_lt h.dirtotal)
  by_cases hwon : 0 < m.tmp b
  · rw [dirstake, if_pos hwon] at hfits ⊢
    by_cases hbet : b.dirbet = 0
    · simp [scored, hbet]
    · rw [scored, if_pos ⟨hbet, hwon⟩]
      exact unsigned_of_lt hfits
  · rw [scored, if_neg fun hboth => hwon hboth.2, dirstake, if_neg hwon, Nat.zero_mul]

theorem Fits.payout_eq (h : Fits m bets) (hb : b ∈ bets) :
    (settled m bets b).payout = if dirstake m b * m.minutes b ≠ 0 then dirpay m bets b else distpay m bets b := by
  have hword : u64 (dirstake m b * m.minutes b * oppostakes m bets : Nat) =
      dirstake m b * m.minutes b * oppostakes m bets := unsigned_of_lt (h.dirshare b hb)
  have hpaid : (settled m bets b).payout = if dirstake m b * m.minutes b ≠ 0 then
      u64 (b.dirbet + u64 (dirstake m b * m.minutes b * oppostakes m bets : Nat) / dirweight m bets : Nat)
    else distpay m bets b := by
    rw [← h.scored_shares hb, ← h.oppobets_eq, ← h.matchshares_eq, ← h.distpayout_eq hb]
    rfl
  rw [hpaid, hword]
  split_ifs with hshares
  · have hwon : dirstake m b = b.dirbet := by
      rw [dirstake, if_pos]
      by_contra hlost
      rw [dirstake, if_neg hlost, Nat.zero_mul] at hshares
      exact hshares rfl
    rw [← hwon]
    exact unsigned_of_lt (h.dirpay_lt hb)
  · rfl

/-- No mix of winners, losers and ties is paid more than has been staked. -/
theorem Fits.payouts_le (h : Fits m bets) :
    ((bets.map (settled m bets)).map PeggyBet.payout).sum ≤ (bets.map PeggyBet.stakes).sum := by
  have hmap : ((bets.map (settled m bets)).map PeggyBet.payout).sum ≤
      (bets.map fun b => dirpay m bets b + distpay m bets b).sum := by
    rw [List.map_map]
    apply List.sum_le_sum
    intro b hb
    rw [Function.comp_apply, h.payout_eq hb]
    split_ifs <;> omega
  calc ((bets.map (settled m bets)).map PeggyBet.payout).sum
      ≤ (bets.map fun b => dirpay m bets b + distpay m bets b).sum := hmap
    _ = (bets.map (dirpay m bets)).sum + (bets.map (distpay m bets)).sum := List.sum_map_add
    _ ≤ (bets.map PeggyBet.dirbet).sum + (bets.map PeggyBet.distbet).sum :=
        Nat.add_le_add (sum_dirpay m bets) (sum_distpay m bets)
    _ = (bets.map PeggyBet.stakes).sum := (sum_stakes bets).symm

/-- The fees grow by what is not paid out. -/
theorem gamblers_solvent {privatebetfees : Int} (h : Fits m bets) (hfees : -2^63 ≤ privatebetfees)
    (hkept : privatebetfees + ((bets.map PeggyBet.stakes).sum -
      ((peggyGamblers m bets privatebetfees).2.map PeggyBet.payout).sum) < 2^63) :
    ((peggyGamblers m bets privatebetfees).2.map PeggyBet.payout).sum ≤ (bets.map PeggyBet.stakes).sum ∧
      privatebetfees ≤ (peggyGamblers m bets privatebetfees).1 := by
  have hle := h.payouts_le
  have hstakes := h.stakes
  have htally : tally 64 PeggyBet.payout (bets.map (settled m bets)) =
      ((bets.map (settled m bets)).map PeggyBet.payout).sum := tally_of_lt (hle.trans_lt hstakes)
  refine ⟨hle, ?_⟩
  simp only [peggyGamblers] at hkept ⊢
  rw [h.totalbets_eq, htally]
  generalize ((bets.map (settled m bets)).map PeggyBet.payout).sum = paid at hle hkept ⊢
  generalize (bets.map PeggyBet.stakes).sum = stakes at hle hstakes hkept ⊢
  have hword : ((u64 ((stakes : Int) - paid) : Nat) : Int) = stakes - paid := by
    apply unsigned_of_bounds <;> omega
  rw [hword]
  have hfit : i64 (privatebetfees + (stakes - paid)) = privatebetfees + (stakes - paid) := by
    apply signed_of_bounds <;> omega
  omega

/-- Two bettors on opposite directions, the winner also on the distance. -/
def twoBets : List PeggyBet :=
  [{ (default : PeggyBet) with prediction := 110, dirbet := 100, distbet := 10 },
    { (default : PeggyBet) with prediction := 90, dirbet := 50, distbet := 20 }]

/-- The price rises an hour after they have bet. -/
def hourLater : PriceMove := ⟨3600, 100, 108⟩

theorem twoBets_fits : Fits hourLater twoBets := by
  constructor <;> decide +kernel

theorem gamblers_solvent_twoBets :
    ((peggyGamblers hourLater twoBets 0).2.map PeggyBet.payout).sum ≤ 180 ∧
      0 ≤ (peggyGamblers hourLater twoBets 0).1 :=
  gamblers_solvent twoBets_fits (by decide) (by decide +kernel)

/-- A winner gets his stakes back unless one payout is stored over the other, or never made, and does not cover it. -/
theorem winner_paid_iff {privatebetfees : Int} {j : Nat} {bet : PeggyBet} (h : Fits m bets) (hb : bets[j]? = some b)
    (hbet : (peggyGamblers m bets privatebetfees).2[j]? = some bet) :
    dirstake m b + diststake m bets b ≤ bet.payout ↔
      (m.minutes b ≠ 0 → dirstake m b ≠ 0 →
        diststake m bets b ≤ dirstake m b * m.minutes b * oppostakes m bets / dirweight m bets) ∧
      (m.minutes b = 0 → dirstake m b ≤ diststake m bets b * lossstakes m bets / distweight m bets) := by
  have hpaid : bet = settled m bets b := by
    simp only [peggyGamblers, List.getElem?_map, hb, Option.map_some, Option.some.injEq] at hbet
    exact hbet.symm
  rw [hpaid, h.payout_eq (List.mem_of_getElem? hb)]
  by_cases hminutes : m.minutes b = 0
  · rw [if_neg (by simp [hminutes]), distpay]
    constructor
    · intro hle
      exact ⟨fun hold => absurd hminutes hold, fun _ => by omega⟩
    · rintro ⟨-, hfresh⟩
      have hle := hfresh hminutes
      omega
  · by_cases hwon : dirstake m b = 0
    · rw [if_neg (by simp [hwon]), distpay, hwon]
      constructor
      · intro _
        exact ⟨fun _ hstake => absurd rfl hstake, fun _ => Nat.zero_le _⟩
      · intro _
        rw [Nat.zero_add]
        exact Nat.le_add_right _ _
    · rw [if_pos (Nat.mul_ne_zero hwon hminutes), dirpay]
      constructor
      · intro hle
        exact ⟨fun _ _ => by omega, fun hfresh => absurd hfresh hminutes⟩
      · rintro ⟨hold, -⟩
        have hle := hold hminutes hwon
        omega

theorem winner_paid_twoBets :
    let b := twoBets.getD 0 default
    dirstake hourLater b + diststake hourLater twoBets b ≤ (settled hourLater twoBets b).payout := by
  have hbet : (peggyGamblers hourLater twoBets 0).2[0]? = some (settled hourLater twoBets (twoBets.getD 0 default)) := rfl
  refine (winner_paid_iff twoBets_fits rfl hbet).mpr ⟨fun _ _ => ?_, fun hfresh => ?_⟩
  · decide +kernel
  · exact absurd hfresh (by decide +kernel)

/-- The same bets settled within a minute: the winner's 100 are not paid. -/
theorem winner_unpaid :
    let m : PriceMove := ⟨0, 100, 108⟩
    Fits m twoBets ∧ dirstake m (twoBets.getD 0 default) = 100 ∧
      (peggyGamblers m twoBets 0).2[0]?.map PeggyBet.payout = some 30 ∧
      ¬ ∀ (m : PriceMove) (bets : List PeggyBet) (privatebetfees : Int) (j : Nat) (b bet : PeggyBet), Fits m bets →
        bets[j]? = some b → (peggyGamblers m bets privatebetfees).2[j]? = some bet →
          dirstake m b + diststake m bets b ≤ bet.payout := by
  have hfits : Fits ⟨0, 100, 108⟩ twoBets := by
    constructor <;> decide +kernel
  refine ⟨hfits, by decide +kernel, by decide +kernel, fun h => ?_⟩
  have hpaid := h _ _ 0 0 _ _ hfits rfl rfl
  exact absurd hpaid (by decide +kernel)

end SuperNet.Peggy.Peggy777
