import SuperNet.Games.PangeaClosure

/-! When a bet that reaches the bet size is not turned into a fold, at any seating and in every run of messages. -/
namespace SuperNet.Games.Pangea.Table
open SuperNet.Lib.Words SuperNet.Lib.Runs

/-! ## Messages -/

/-- The largest of the bets, which are compared as unsigned words, as it is stored in the bet size. -/
def largestBet (t : Table) : Int :=
  i64 (rounds (fun betsize i => if betsize < u64 (t.hand.bets i) then u64 (t.hand.bets i) else betsize) 0 t.N : Nat)

def markTurn (t : Table) (senderind : Nat) (turni : Int) : Table :=
  t.updateHand fun hand => { hand with turnis := Function.update hand.turnis senderind (u8 turni) }

/-- `pangea_turn`. -/
def pangeaTurn (host : Bool) (t : Table) (senderind : Nat) (turni : Int) (cardi : Nat) : Table :=
  let t := t.markTurn senderind turni
  if senderind = 0 then
    let t := t.updateHand fun hand => { hand with cardi := cardi, betstarted := 1, undergun := u8 turni }
    if host then t
    else
      let t := t.pangeaCheckantes
      t.updateHand fun hand => { hand with
        snapshot := fun i => if i < t.N then hand.bets i else if i = t.N then t.largestBet else hand.snapshot i }
  else t

/-- Another player takes the turn and the snapshot from the host, and counts the bets. -/
def confirmFollow (t : Table) (turni : Int) (cardi : Nat) (data : Nat → Int) (betsize : Int) : Table :=
  t.updateHand fun hand => { hand with
    undergun := u8 turni
    cardi := cardi
    snapshot := fun i => if i ≤ t.N then data i else hand.snapshot i
    betsize := betsize }

/-- The host counts the bets when all players have the same turn. -/
def confirmAgreed (t : Table) (betsize : Int) : Table :=
  t.updateHand fun hand => { hand with
    betsize := betsize
    snapshot := Function.update hand.snapshot t.N betsize }

/-- The player is asked for an input. -/
def waitInput (t : Table) (cardi : Nat) (betsize : Int) : Table :=
  t.updateHand fun hand => { hand with cardi := cardi, betsize := betsize }

/-- `pangea_confirmturn` with the data of the message, for the player with index `mine`; `waits` is whether he would be
asked for an input. -/
def pangeaConfirmturn (host waits : Bool) (mine : Nat) (t : Table) (senderind : Nat) (turni : Int) (cardi : Nat)
    (data : Nat → Int) : Table :=
  let follows := decide (senderind = 0) && !host
  let t := (if follows then t.confirmFollow turni cardi data t.largestBet else t).markTurn senderind turni
  let agreed := host && decide (∀ i < t.N, signed 8 (t.hand.turnis i) = turni)
  let t := if agreed then t.confirmAgreed t.largestBet else t
  if senderind = 0 ∧ t.hand.undergun = mine ∧ waits then
    -- the local variable is still 0 when neither branch has counted the bets
    t.waitInput cardi (if follows || agreed then t.largestBet else 0)
  else t

/-- `pangea_addfunds`, as far as the balances go. -/
def pangeaAddfunds (t : Table) (senderind amount : Nat) : Table :=
  let slot := t.pangeaSlot senderind
  (if t.balances slot = 0 then { t with balances := Function.update t.balances slot (i64 amount) } else t).pangeaCheckantes

/-- What a player processes while a hand is bet on. -/
inductive Message where
  | startbets (cardi : Nat)
  | cards (community : Nat → Nat)
  | turn (senderind : Nat) (turni : Int) (cardi : Nat)
  | confirmturn (waits : Bool) (mine senderind : Nat) (turni : Int) (cardi : Nat) (data : Nat → Int)
  | addfunds (senderind amount : Nat)
  | action (senderind : Nat) (action : Int) (amount : Nat)

/-- One message, at the host or at another player; only the host starts the betting himself. -/
def receive (host : Bool) (t : Table) : Message → Table
  | .startbets cardi => if host then t.pangeaStartbets cardi else t
  | .cards community => t.updateHand fun hand => { hand with community := community }
  | .turn senderind turni cardi => pangeaTurn host t senderind turni cardi
  | .confirmturn waits mine senderind turni cardi data => pangeaConfirmturn host waits mine t senderind turni cardi data
  | .addfunds senderind amount => t.pangeaAddfunds senderind amount
  | .action senderind action amount => (pangeaAction host t senderind action amount).1

/-- The funds of a seat: its balance and its bets. -/
def stake (t : Table) (s : Nat) : Int := t.hand.bets s + t.balances s

/-- No seat has funds of `2^63` or more, nor have the two seats of a player who does not sit in the slot of his index. -/
structure Roomy (t : Table) : Prop where
  fits : ∀ s < CARDS777_MAXPLAYERS, t.stake s < 2^63
  apart : ∀ p < t.N, t.pangeaSlot p ≠ p → t.stake p + t.stake (t.pangeaSlot p) < 2^63

/-- A new hand: nobody has bet. -/
structure Fresh (t : Table) : Prop where
  bets : ∀ s < CARDS777_MAXPLAYERS, t.hand.bets s = 0
  betsize : t.hand.betsize = 0
  lastraise : t.hand.lastraise = 0
  roomy : t.Roomy

/-- Neither a negative amount nor new funds break the funds: a negative amount that a player sends in turn leaves his
bets at 0 or more and below the bet size (he is folded), and there is room for new funds, which are not negative. -/
def Sound (t : Table) : Message → Prop
  | .action senderind _ amount => senderind ≠ t.hand.undergun ∨ t.hand.betstatus (senderind % t.N) ≠ .live ∨
      0 ≤ i64 amount ∨ 0 ≤ t.hand.bets (senderind % t.N) + i64 amount ∧
        t.hand.bets (senderind % t.N) + i64 amount < t.hand.betsize
  | .addfunds senderind amount => t.balances (t.pangeaSlot senderind) = 0 → 0 ≤ i64 amount ∧
      Roomy { t with balances := Function.update t.balances (t.pangeaSlot senderind) (i64 amount) }
  | _ => True

def SoundRun (host : Bool) (t : Table) : List Message → Prop
  | [] => True
  | m :: messages => t.Sound m ∧ SoundRun host (t.receive host m) messages

/-- The player can bet, and the amount is covered by his balance and reaches the bet size. -/
structure Sufficient (t : Table) (p : Nat) (bet : Int) : Prop where
  player : p < t.N
  live : t.hand.betstatus p = .live
  owned : bet ≤ t.balance p
  reaches : t.hand.betsize ≤ t.hand.bets p + bet

/-- `pangea_bet` does not fold the player, and his bets then are up to the bet size that he was to reach. -/
def Kept (t : Table) (p : Nat) (bet : Int) : Prop :=
  (t.pangeaBet p bet .check).1.hand.betstatus p ≠ .fold ∧ t.hand.betsize ≤ (t.pangeaBet p bet .check).1.hand.bets p

/-- The bet is not all in and would be clipped to a last raise that is too small, or it would be credited to the seat of
another player while the own bets are too small. -/
def Lost (t : Table) (p : Nat) (bet : Int) : Prop :=
  (t.betAllin p bet = false ∧ t.betClip bet = true ∧ t.hand.bets p + t.hand.lastraise < t.hand.betsize) ∨
    (t.pangeaSlot p ≠ p ∧ t.hand.bets p < t.hand.betsize)

variable {t t' : Table} {p q : Nat} {bet : Int} {action : Act}

/-! ## The invariant -/

/-- Nobody has bet more than he had, and of the first `k` players those with a negative balance have folded. -/
structure Staked (t : Table) (k : Nat) : Prop where
  betsize : 0 ≤ t.hand.betsize ∧ t.hand.betsize < 2^63
  lastraise : 0 ≤ t.hand.lastraise
  bets : ∀ s < CARDS777_MAXPLAYERS, 0 ≤ t.hand.bets s
  broke : ∀ s < CARDS777_MAXPLAYERS, t.balances s < 0 → t.hand.bets s = 0
  roomy : t.Roomy
  solvent : ∀ j < k, j < t.N → t.hand.betstatus j ≠ .fold → 0 ≤ t.balance j

private theorem slot_lt (t : Table) (hq : q < t.N) : t.pangeaSlot q < CARDS777_MAXPLAYERS :=
  (t.seats.pangeaSlot_lt hq).trans_le t.seats.addrs_length

private theorem player_lt (t : Table) (hq : q < t.N) : q < CARDS777_MAXPLAYERS := hq.trans_le t.seats.N_le

theorem Staked.bets_lt {k s : Nat} (h : t.Staked k) (hs : s < CARDS777_MAXPLAYERS) : t.hand.bets s < 2^63 := by
  have hfits := h.roomy.fits s hs
  have hbroke := h.broke s hs
  rw [stake] at hfits
  by_cases hneg : t.balances s < 0
  · rw [hbroke hneg]
    norm_num
  · omega

/-- What a player has bet and what he can still bet is a signed word, wherever he sits. -/
theorem Staked.reach {k : Nat} (h : t.Staked k) (hq : q < t.N) : t.hand.bets q + t.balance q < 2^63 := by
  have hfits := h.roomy.fits _ (slot_lt t hq)
  have hbets := h.bets _ (slot_lt t hq)
  rw [stake] at hfits
  rw [balance]
  by_cases hown : t.pangeaSlot q = q
  · rw [hown] at hfits ⊢
    exact hfits
  · have hapart := h.roomy.apart q hq hown
    have hbroke := h.broke q (player_lt t hq)
    rw [stake, stake] at hapart
    by_cases hneg : t.balances q < 0
    · rw [hbroke hneg]
      omega
    · omega

/-- The same funds; more players may have folded. -/
theorem Staked.of_sameBets {k : Nat} (h : t.Staked k) (hs : SameBets t t')
    (hst : ∀ j, t'.hand.betstatus j ≠ .fold → t.hand.betstatus j ≠ .fold) : t'.Staked k := by
  have hN : t'.N = t.N := by rw [N, hs.seats]
  have hslot : t'.pangeaSlot = t.pangeaSlot := by
    funext j
    rw [pangeaSlot, hs.seats]
  have hstake : t'.stake = t.stake := by
    funext s
    rw [stake, hs.bets, hs.balances, stake]
  refine ⟨by rw [hs.betsize]; exact h.betsize, by rw [hs.lastraise]; exact h.lastraise, by rw [hs.bets]; exact h.bets,
    by rw [hs.bets, hs.balances]; exact h.broke, ⟨by rw [hstake]; exact h.roomy.fits, ?_⟩, ?_⟩
  · rw [hN, hslot, hstake]
    exact h.roomy.apart
  · intro j hj hjN hnf
    rw [balance, hslot, hs.balances]
    exact h.solvent j hj (hN ▸ hjN) (hst j hnf)

theorem Staked.mono {k l : Nat} (h : t.Staked k) (hl : l ≤ k) : t.Staked l :=
  ⟨h.betsize, h.lastraise, h.bets, h.broke, h.roomy, fun j hj => h.solvent j (hj.trans_le hl)⟩

theorem Staked.pangeaFold {k : Nat} (h : t.Staked k) (q : Nat) : (t.pangeaFold q).Staked k := by
  refine h.of_sameBets ⟨rfl, rfl, rfl, rfl, rfl⟩ fun j hnf hfold => ?_
  rcases pangeaFold_status t q j with he | he
  · exact hnf (he.trans hfold)
  · exact hnf he

private theorem Staked.betSeated {k : Nat} (h : t.Staked k) (hlive : t.hand.betstatus q = .live) (bet : Int) :
    (t.betSeated q bet).Staked k := by
  unfold Table.betSeated
  split
  case isTrue =>
    refine h.of_sameBets ⟨rfl, rfl, rfl, rfl, rfl⟩ fun j hnf => ?_
    by_cases hj : j = q
    · rw [hj, hlive]
      exact BetStatus.noConfusion
    · have hst : (t.setAllin q).hand.betstatus = Function.update t.hand.betstatus q .allin := rfl
      rwa [hst, Function.update_of_ne hj] at hnf
  case isFalse => exact h

private theorem Staked.bookBet {k : Nat} (h : t.Staked k) (hq : q < t.N) {chips : Int} (h0 : 0 ≤ chips)
    (hle : chips ≤ t.balance q) (action : Act) : (t.bookBet q chips action).1.Staked k := by
  have hslot := slot_lt t hq
  have hfits := h.roomy.fits _ hslot
  have hbets := h.bets _ hslot
  have hown := h.bets q (player_lt t hq)
  have hreach := h.reach hq
  rw [stake, ← balance] at hfits
  have hleft : 0 ≤ t.balance q - chips := sub_nonneg.mpr hle
  have hpaid : 0 ≤ t.hand.bets (t.pangeaSlot q) + chips := add_nonneg hbets h0
  have hsize : 0 ≤ t.hand.bets q + chips ∧ t.hand.bets q + chips < 2^63 := ⟨add_nonneg hown h0, by omega⟩
  have hdebit : i64 (t.balance q - chips) = t.balance q - chips := signed_of_bounds (by omega) (by omega)
  have hcredit : i64 (t.hand.bets (t.pangeaSlot q) + chips) = t.hand.bets (t.pangeaSlot q) + chips :=
    signed_of_bounds (by omega) (by omega)
  have hword : (t.betSum q chips : Int) = t.hand.bets q + chips := unsigned_of_bounds (by omega) (by omega)
  have hsum : i64 (t.betSum q chips) = t.hand.bets q + chips := by
    rw [hword]
    exact signed_of_bounds (by omega) (by omega)
  have hstake : (t.bookBet q chips action).1.stake = t.stake := by
    funext s
    rw [stake, stake, bookBet_bets, bookBet_balances, hdebit, hcredit]
    by_cases hs : s = t.pangeaSlot q
    · rw [hs, Function.update_self, Function.update_self, balance]
      ring
    · rw [Function.update_of_ne hs, Function.update_of_ne hs]
  have hbalance : ∀ s, t.balances s < 0 ∨ (t.bookBet q chips action).1.balances s < 0 →
      s ≠ t.pangeaSlot q := by
    rintro s hneg rfl
    rw [bookBet_balances, hdebit, Function.update_self, ← balance] at hneg
    exact hneg.elim (not_lt.mpr (h0.trans hle)) (not_lt.mpr hleft)
  refine ⟨?_, ?_, ?_, ?_, ⟨?_, ?_⟩, ?_⟩
  · rw [bookBet_betsize]
    split
    · rw [hsum]
      exact hsize
    · exact h.betsize
  · rcases bookBet_lastraise t q chips action with hl | hl | hl
    · rw [hl]
      exact h.lastraise
    · rw [hl]
      exact h0
    · rw [hl, hsum]
      exact hsize.1
  · intro s hs
    rw [bookBet_bets, hcredit]
    by_cases hs' : s = t.pangeaSlot q
    · rw [hs', Function.update_self]
      exact hpaid
    · rw [Function.update_of_ne hs']
      exact h.bets s hs
  · intro s hs hneg
    have hne := hbalance s (.inr hneg)
    rw [bookBet_balances, Function.update_of_ne hne] at hneg
    rw [bookBet_bets, Function.update_of_ne hne]
    exact h.broke s hs hneg
  · rw [hstake]
    exact h.roomy.fits
  · rw [hstake]
    exact h.roomy.apart
  · intro j hj hjN hnf
    have hold := h.solvent j hj hjN hnf
    rw [balance, bookBet_balances, hdebit]
    by_cases hj' : (t.bookBet q chips action).1.pangeaSlot j = t.pangeaSlot q
    · rw [hj', Function.update_self]
      exact hleft
    · rw [Function.update_of_ne hj']
      exact hold

theorem Staked.pangeaBet (h : t.Staked t.N) (hbet : t.hand.betstatus (q % t.N) = .live → 0 ≤ bet) :
    (t.pangeaBet q bet action).1.Staked t.N := by
  have hq : q % t.N < t.N := Nat.mod_lt q t.seats.N_pos
  apply pangeaBet_cases (motive := fun t' => t'.Staked t.N)
  case out => exact fun _ => h
  case folds => exact fun _ _ => h.pangeaFold _
  case books =>
    intro hlive _
    have hbal : 0 ≤ t.balance (q % t.N) := h.solvent _ hq hq (by rw [hlive]; exact BetStatus.noConfusion)
    obtain ⟨h0, hle⟩ := betClipped_bounds t (q % t.N) bet hbal h.lastraise (hbet hlive)
    have hseat := h.betSeated hlive bet
    refine hseat.bookBet ?_ h0 ?_ _
    · simpa only [N, betSeated_seats] using hq
    · simpa only [balance, pangeaSlot, betSeated_seats, betSeated_balances] using hle

/-! ## Antes and blinds -/

theorem Fresh.staked (h : t.Fresh) : t.Staked 0 where
  betsize := by rw [h.betsize]; norm_num
  lastraise := by rw [h.lastraise]
  bets s hs := by rw [h.bets s hs]
  broke s hs _ := h.bets s hs
  roomy := h.roomy
  solvent _ hj := absurd hj (Nat.not_lt_zero _)

theorem Staked.antesBroke {k : Nat} (h : t.Staked k) : (t.antesBroke k).Staked (k + 1) := by
  rw [Table.antesBroke]
  split
  case isTrue =>
    have hfold := h.pangeaFold k
    refine ⟨hfold.betsize, hfold.lastraise, hfold.bets, hfold.broke, hfold.roomy, fun j hj hjN hnf => ?_⟩
    rcases Nat.lt_succ_iff_lt_or_eq.mp hj with hj | rfl
    · exact hfold.solvent j hj hjN hnf
    · exact absurd (Function.update_self j _ _) hnf
  case isFalse hfunded =>
    refine ⟨h.betsize, h.lastraise, h.bets, h.broke, h.roomy, fun j hj hjN hnf => ?_⟩
    rcases Nat.lt_succ_iff_lt_or_eq.mp hj with hj | rfl
    · exact h.solvent j hj hjN hnf
    · exact (not_le.mp hfunded).le

theorem Staked.antesFunded (h : t.Staked 0) : t.antesFunded.Staked t.N ∧ t.antesFunded.seats = t.seats := by
  refine rounds_induct (motive := fun k (t' : Table) => t'.Staked k ∧ t'.seats = t.seats) t.N
    ⟨h.of_sameBets ⟨rfl, rfl, rfl, rfl, rfl⟩ fun _ hnf => hnf, rfl⟩ fun k _ ih => ⟨ih.1.antesBroke, ?_⟩
  rw [Table.antesBroke]
  split
  · exact ih.2
  · exact ih.2

theorem staked_betInvariant : BetInvariant fun t => t.Staked t.N where
  fold q h := h.pangeaFold q
  bet {t q bet action} h hq _ hbet := by
    rw [N, (pangeaBet_chips t q bet action).1]
    exact h.pangeaBet (by rwa [Nat.mod_eq_of_lt hq])
  button _ h := h.of_sameBets ⟨rfl, rfl, rfl, rfl, rfl⟩ fun _ hnf => hnf
  covered {t i} h hi hlive := by
    have hbal := h.solvent i hi hi (by rw [hlive]; exact BetStatus.noConfusion)
    have hbets := h.bets i (player_lt t hi)
    have hreach := h.reach hi
    rw [unsigned_of_bounds hbal (by omega)]
    omega

theorem Staked.pangeaAntes (h : t.Staked 0) : t.pangeaAntes.Staked t.pangeaAntes.N := by
  obtain ⟨hfunded, hseats⟩ := h.antesFunded
  refine staked_betInvariant.pangeaAntes ?_ hseats
  rwa [N, hseats]

theorem Staked.pangeaCheckantes (h : t.Staked t.N) : t.pangeaCheckantes.Staked t.pangeaCheckantes.N := by
  rw [Table.pangeaCheckantes]
  split
  · exact (h.mono (Nat.zero_le _)).pangeaAntes
  · exact h

/-! ## Runs -/

theorem pangeaAntes_finished (t : Table) : t.pangeaAntes.hand.finished = t.hand.finished :=
  pangeaAntes_keeps (I := fun t' => t'.hand.finished = t.hand.finished) (fun _ _ ih => ih)
    (fun t' q bet action ih => (pangeaBet_sameStage t' q bet action).finished.trans ih) (fun _ _ ih => ih) rfl

theorem pangeaCheckantes_finished (t : Table) : t.pangeaCheckantes.hand.finished = t.hand.finished := by
  rw [pangeaCheckantes]
  split
  · exact t.pangeaAntes_finished
  · rfl

/-- The counted bet size is a signed word that is not negative. -/
theorem Staked.largestBet {k : Nat} (h : t.Staked k) : 0 ≤ t.largestBet ∧ t.largestBet < 2^63 := by
  have hbound : ((rounds (fun betsize i => if betsize < u64 (t.hand.bets i) then u64 (t.hand.bets i) else betsize) 0 t.N
      : Nat) : Int) < 2^63 := by
    refine rounds_induct (motive := fun _ (betsize : Nat) => (betsize : Int) < 2^63) t.N (by norm_num) fun i hi ih => ?_
    split
    · have hbets := h.bets i (player_lt t hi)
      have hlt := h.bets_lt (player_lt t hi)
      rw [unsigned_of_bounds hbets (by omega)]
      exact hlt
    · exact ih
  rw [Table.largestBet, i64, signed_of_bounds (by omega) (by omega)]
  exact ⟨Int.natCast_nonneg _, hbound⟩

private theorem Staked.resize {k : Nat} (h : t.Staked k) (betsize : Int) (hs : t'.seats = t.seats) (hb : t'.balances = t.balances)
    (hd : t'.hand.bets = t.hand.bets) (hl : t'.hand.lastraise = t.hand.lastraise)
    (hst : t'.hand.betstatus = t.hand.betstatus) (hsize : t'.hand.betsize = betsize)
    (hbounds : 0 ≤ betsize ∧ betsize < 2^63) : t'.Staked k := by
  have hold : ({ t' with hand := { t'.hand with betsize := t.hand.betsize } } : Table).Staked k :=
    h.of_sameBets ⟨hs, hb, hd, rfl, hl⟩ fun j hnf => by rwa [← hst]
  exact ⟨by rwa [hsize], hold.lastraise, hold.bets, hold.broke, ⟨hold.roomy.fits, hold.roomy.apart⟩, hold.solvent⟩

/-- Funds, statuses and the end of the hand are the same. -/
structure SameSeats (t t' : Table) : Prop extends SameBets t t' where
  betstatus : t'.hand.betstatus = t.hand.betstatus
  finished : t'.hand.finished = t.hand.finished

private theorem hostAction_sameSeats (t : Table) : SameSeats t t.hostAction.1 := by
  obtain ⟨_, _, _, h⟩ := t.hostAction_updates
  rw [h]
  exact ⟨⟨rfl, rfl, rfl, rfl, rfl⟩, rfl, rfl⟩

theorem SameSeats.staked {k : Nat} (h : SameSeats t t') (hk : t.Staked k) : t'.Staked k :=
  hk.of_sameBets h.toSameBets fun j hnf => by rwa [← h.betstatus]

theorem pangeaFinish_finished (t : Table) : t.pangeaFinish.hand.finished = true := by
  rw [pangeaFinish]
  split
  · assumption
  · rfl

private theorem pangeaAction_seats (host : Bool) (t : Table) (senderind : Nat) (action : Int) (amount : Nat)
    (hturn : senderind = t.hand.undergun) : (pangeaAction host t senderind action amount).1.hand.finished = true ∨
      SameSeats (t.pangeaBet senderind (i64 amount) .check).1 (pangeaAction host t senderind action amount).1 := by
  have hbet : SameSeats (t.pangeaBet senderind (i64 amount) .check).1 (t.actionBet senderind action amount) :=
    ⟨⟨rfl, rfl, rfl, rfl, rfl⟩, rfl, rfl⟩
  rw [pangeaAction, if_neg (not_not.mpr hturn)]
  by_cases hlast : (t.actionBet senderind action amount).Dead
  case pos =>
    rw [hlast.pangeaLastman]
    exact .inl (pangeaFinish_finished _)
  case neg =>
    rw [pangeaLastman_of_not_dead hlast]
    cases host with
    | false => exact .inr hbet
    | true =>
      have hhost := hostAction_sameSeats (t.actionBet senderind action amount)
      exact .inr ⟨⟨hhost.seats.trans hbet.seats, hhost.balances.trans hbet.balances, hhost.bets.trans hbet.bets,
        hhost.betsize.trans hbet.betsize, hhost.lastraise.trans hbet.lastraise⟩, hhost.betstatus.trans hbet.betstatus,
        hhost.finished.trans hbet.finished⟩

private theorem Staked.folds_negative (h : t.Staked t.N) (hneg : bet < 0)
    (h0 : 0 ≤ t.hand.bets q + bet) (hlt : t.hand.bets q + bet < t.hand.betsize) :
    t.betFolds q bet .check = true := by
  have hsize := h.betsize
  have hallin : t.betAllin q bet = false := decide_eq_false (by omega)
  have hclip : t.betClip bet = false := decide_eq_false (by omega)
  have hclipped : t.betClipped q bet = bet := by
    rw [betClipped, hallin, hclip]
    rfl
  have haction : t.betAction q bet .check = .check := by
    rw [betAction, hallin, hclip]
    rfl
  have hsum : (t.betSum q bet : Int) = t.hand.bets q + bet := unsigned_of_bounds h0 (by omega)
  have hword : (u64 t.hand.betsize : Int) = t.hand.betsize := unsigned_of_bounds hsize.1 (by omega)
  rw [betFolds, hclipped, haction, betShort, decide_eq_true_eq]
  exact ⟨by omega, Act.noConfusion⟩

private theorem Staked.pangeaAction (h : t.Staked t.N) (host : Bool) {senderind : Nat} {act : Int} {amount : Nat}
    (hsound : t.Sound (.action senderind act amount)) :
    (pangeaAction host t senderind act amount).1.hand.finished = true ∨
      (pangeaAction host t senderind act amount).1.Staked (pangeaAction host t senderind act amount).1.N := by
  by_cases hturn : senderind = t.hand.undergun
  case neg =>
    rw [Table.pangeaAction, if_pos hturn]
    exact .inr h
  case pos =>
    have hbet : (t.pangeaBet senderind (i64 amount) .check).1.Staked t.N := by
      rcases hsound with hout | hout | hpos | ⟨h0, hlt⟩
      · exact absurd hturn hout
      · rw [pangeaBet_out _ _ _ _ hout]
        exact h
      · exact h.pangeaBet fun _ => hpos
      · by_cases hpos : 0 ≤ i64 amount
        · exact h.pangeaBet fun _ => hpos
        · by_cases hlive : t.hand.betstatus (senderind % t.N) = .live
          · have hfold := h.folds_negative (not_le.mp hpos) h0 hlt
            rw [pangeaBet_folds _ _ _ _ hlive hfold]
            exact h.pangeaFold _
          · rw [pangeaBet_out _ _ _ _ hlive]
            exact h
    refine (pangeaAction_seats host t senderind act amount hturn).imp_right fun hsame => ?_
    have hseats := hsame.seats.trans (pangeaBet_chips t senderind (i64 amount) .check).1
    rw [N, hseats]
    exact hsame.staked hbet

private theorem Staked.pangeaStartbets (h : t.Staked t.N) (cardi : Nat) :
    (t.pangeaStartbets cardi).Staked (t.pangeaStartbets cardi).N := by
  have hreset : (t.startbetsReset cardi).Staked (t.startbetsReset cardi).N :=
    h.of_sameBets ⟨rfl, rfl, rfl, rfl, rfl⟩ fun _ hnf => hnf
  have hfunds : ((t.startbetsReset cardi).startbetsFunds cardi).Staked ((t.startbetsReset cardi).startbetsFunds cardi).N := by
    rw [startbetsFunds]
    split
    · exact hreset.of_sameBets ⟨rfl, rfl, rfl, rfl, rfl⟩ fun _ hnf => hnf
    · exact hreset.pangeaCheckantes
  exact hfunds.of_sameBets ⟨rfl, rfl, rfl, rfl, rfl⟩ fun _ hnf => hnf

private theorem Staked.pangeaTurn (h : t.Staked t.N) (host : Bool) (senderind : Nat) (turni : Int) (cardi : Nat) :
    (pangeaTurn host t senderind turni cardi).Staked (pangeaTurn host t senderind turni cardi).N := by
  have hmark : (t.markTurn senderind turni).Staked (t.markTurn senderind turni).N :=
    h.of_sameBets ⟨rfl, rfl, rfl, rfl, rfl⟩ fun _ hnf => hnf
  rw [Table.pangeaTurn]
  split
  case isFalse => exact hmark
  case isTrue =>
    have hturn : ((t.markTurn senderind turni).updateHand fun hand => { hand with
        cardi := cardi, betstarted := 1, undergun := u8 turni }).Staked (t.markTurn senderind turni).N :=
      hmark.of_sameBets ⟨rfl, rfl, rfl, rfl, rfl⟩ fun _ hnf => hnf
    split
    · exact hturn
    · exact hturn.pangeaCheckantes.of_sameBets ⟨rfl, rfl, rfl, rfl, rfl⟩ fun _ hnf => hnf

private theorem Staked.markTurn {k : Nat} (h : t.Staked k) (senderind : Nat) (turni : Int) :
    (t.markTurn senderind turni).Staked k :=
  h.of_sameBets ⟨rfl, rfl, rfl, rfl, rfl⟩ fun _ hnf => hnf

private theorem Staked.confirmFollow {k : Nat} {betsize : Int} (h : t.Staked k) (turni : Int) (cardi : Nat)
    (data : Nat → Int) (hsize : 0 ≤ betsize ∧ betsize < 2^63) : (t.confirmFollow turni cardi data betsize).Staked k :=
  h.resize betsize rfl rfl rfl rfl rfl rfl hsize

private theorem Staked.confirmAgreed {k : Nat} {betsize : Int} (h : t.Staked k)
    (hsize : 0 ≤ betsize ∧ betsize < 2^63) : (t.confirmAgreed betsize).Staked k :=
  h.resize betsize rfl rfl rfl rfl rfl rfl hsize

private theorem Staked.waitInput {k : Nat} {betsize : Int} (h : t.Staked k) (cardi : Nat)
    (hsize : 0 ≤ betsize ∧ betsize < 2^63) : (t.waitInput cardi betsize).Staked k :=
  h.resize betsize rfl rfl rfl rfl rfl rfl hsize

private theorem Staked.followed (h : t.Staked t.N) (follows : Bool) (turni : Int) (cardi : Nat) (data : Nat → Int)
    {betsize : Int} (hsize : 0 ≤ betsize ∧ betsize < 2^63) :
    (if follows then t.confirmFollow turni cardi data betsize else t).Staked
      (if follows then t.confirmFollow turni cardi data betsize else t).N := by
  split
  · exact h.confirmFollow turni cardi data hsize
  · exact h

private theorem Staked.agreed (h : t.Staked t.N) (agreed : Bool) {betsize : Int} (hsize : 0 ≤ betsize ∧ betsize < 2^63) :
    (if agreed then t.confirmAgreed betsize else t).Staked (if agreed then t.confirmAgreed betsize else t).N := by
  split
  · exact h.confirmAgreed hsize
  · exact h

private theorem Staked.pangeaConfirmturn (h : t.Staked t.N) (host waits : Bool) (mine senderind : Nat) (turni : Int)
    (cardi : Nat) (data : Nat → Int) : (pangeaConfirmturn host waits mine t senderind turni cardi data).Staked
      (pangeaConfirmturn host waits mine t senderind turni cardi data).N := by
  unfold Table.pangeaConfirmturn
  extract_lets follows t' agreed t''
  have hmarked : t'.Staked t'.N := (h.followed follows turni cardi data h.largestBet).markTurn senderind turni
  have hagreed : t''.Staked t''.N := hmarked.agreed agreed hmarked.largestBet
  split
  case isTrue =>
    refine hagreed.waitInput cardi ?_
    split
    · exact hagreed.largestBet
    · norm_num
  case isFalse => exact hagreed

private theorem Staked.pangeaAddfunds (h : t.Staked t.N) {senderind amount : Nat}
    (hsound : t.Sound (.addfunds senderind amount)) :
    (t.pangeaAddfunds senderind amount).Staked (t.pangeaAddfunds senderind amount).N := by
  rw [Table.pangeaAddfunds]
  refine Staked.pangeaCheckantes ?_
  split
  case isFalse => exact h
  case isTrue hempty =>
    obtain ⟨hpos, hroom⟩ := hsound hempty
    refine ⟨h.betsize, h.lastraise, h.bets, fun s hs hneg => ?_, hroom, fun j hj hjN hnf => ?_⟩
    · by_cases hs' : s = t.pangeaSlot senderind
      · rw [hs'] at hneg
        exact absurd ((Function.update_self (t.pangeaSlot senderind) (i64 amount) t.balances) ▸ hneg) (not_lt.mpr hpos)
      · exact h.broke s hs ((Function.update_of_ne hs' (i64 amount) t.balances) ▸ hneg)
    · have hold := h.solvent j hj hjN hnf
      by_cases hj' : t.pangeaSlot j = t.pangeaSlot senderind
      · have hnew : Function.update t.balances (t.pangeaSlot senderind) (i64 amount) (t.pangeaSlot j) = i64 amount := by
          rw [hj', Function.update_self]
        exact hnew.ge.trans' hpos
      · have hnew : Function.update t.balances (t.pangeaSlot senderind) (i64 amount) (t.pangeaSlot j) = t.balance j := by
          rw [Function.update_of_ne hj', balance]
        exact hnew.ge.trans' hold

private theorem pangeaStartbets_finished (t : Table) (cardi : Nat) :
    (t.pangeaStartbets cardi).hand.finished = t.hand.finished := by
  have hfunds : ((t.startbetsReset cardi).startbetsFunds cardi).hand.finished = t.hand.finished := by
    rw [startbetsFunds]
    split
    · rfl
    · exact pangeaCheckantes_finished _
  exact hfunds

private theorem pangeaTurn_finished (host : Bool) (t : Table) (senderind : Nat) (turni : Int) (cardi : Nat) :
    (pangeaTurn host t senderind turni cardi).hand.finished = t.hand.finished := by
  rw [pangeaTurn]
  split
  case isFalse => rfl
  case isTrue =>
    split
    · rfl
    · exact pangeaCheckantes_finished _

private theorem followed_finished (t : Table) (follows : Bool) (turni : Int) (cardi : Nat) (data : Nat → Int) (betsize : Int) :
    (if follows then t.confirmFollow turni cardi data betsize else t).hand.finished = t.hand.finished := by
  split
  · rfl
  · rfl

private theorem agreed_finished (t : Table) (agreed : Bool) (betsize : Int) :
    (if agreed then t.confirmAgreed betsize else t).hand.finished = t.hand.finished := by
  split
  · rfl
  · rfl

private theorem waitInput_finished (t : Table) (cardi : Nat) (betsize : Int) :
    (t.waitInput cardi betsize).hand.finished = t.hand.finished := rfl

private theorem pangeaConfirmturn_finished (host waits : Bool) (mine : Nat) (t : Table) (senderind : Nat) (turni : Int)
    (cardi : Nat) (data : Nat → Int) :
    (pangeaConfirmturn host waits mine t senderind turni cardi data).hand.finished = t.hand.finished := by
  unfold pangeaConfirmturn
  extract_lets follows t' agreed t''
  have hmarked : t'.hand.finished = t.hand.finished := followed_finished t follows turni cardi data t.largestBet
  have hagreed : t''.hand.finished = t.hand.finished := (agreed_finished t' agreed t'.largestBet).trans hmarked
  split
  · exact (waitInput_finished t'' cardi _).trans hagreed
  · exact hagreed

private theorem pangeaAddfunds_finished (t : Table) (senderind amount : Nat) :
    (t.pangeaAddfunds senderind amount).hand.finished = t.hand.finished := by
  rw [pangeaAddfunds]
  refine (pangeaCheckantes_finished _).trans ?_
  split
  · rfl
  · rfl

theorem receive_finished (host : Bool) (h : t.hand.finished = true) (m : Message) :
    (t.receive host m).hand.finished = true := by
  cases m with
  | startbets cardi =>
    cases host with
    | false => exact h
    | true => exact (pangeaStartbets_finished t cardi).trans h
  | cards community => exact h
  | turn senderind turni cardi => exact (pangeaTurn_finished host t senderind turni cardi).trans h
  | confirmturn waits mine senderind turni cardi data =>
    exact (pangeaConfirmturn_finished host waits mine t senderind turni cardi data).trans h
  | addfunds senderind amount => exact (pangeaAddfunds_finished t senderind amount).trans h
  | action senderind act amount =>
    by_cases hturn : senderind = t.hand.undergun
    case neg =>
      rw [receive, pangeaAction, if_pos hturn]
      exact h
    case pos =>
      rcases pangeaAction_seats host t senderind act amount hturn with hdone | hsame
      · exact hdone
      · exact hsame.finished.trans ((pangeaBet_sameStage t senderind (i64 amount) .check).finished.trans h)

/-- One sound message: the hand is over, or the funds stay as they should be. -/
theorem receive_staked (host : Bool) (h : t.hand.finished = true ∨ t.Staked t.N) {m : Message} (hsound : t.Sound m) :
    (t.receive host m).hand.finished = true ∨ (t.receive host m).Staked (t.receive host m).N := by
  rcases h with hdone | h
  · exact .inl (receive_finished host hdone m)
  · cases m with
    | startbets cardi =>
      cases host with
      | false => exact .inr h
      | true => exact .inr (h.pangeaStartbets cardi)
    | cards community => exact .inr (h.of_sameBets ⟨rfl, rfl, rfl, rfl, rfl⟩ fun _ hnf => hnf)
    | turn senderind turni cardi => exact .inr (h.pangeaTurn host senderind turni cardi)
    | confirmturn waits mine senderind turni cardi data =>
      exact .inr (h.pangeaConfirmturn host waits mine senderind turni cardi data)
    | addfunds senderind amount => exact .inr (h.pangeaAddfunds hsound)
    | action senderind act amount => exact h.pangeaAction host hsound

theorem run_staked (host : Bool) (messages : List Message) (t : Table) (h : t.hand.finished = true ∨ t.Staked t.N)
    (hsound : SoundRun host t messages) : (messages.foldl (receive host) t).hand.finished = true ∨
      (messages.foldl (receive host) t).Staked (messages.foldl (receive host) t).N := by
  induction messages generalizing t with
  | nil => exact h
  | cons m messages ih => exact ih _ (receive_staked host h hsound.1) hsound.2

/-! ## Sufficient bets -/

private theorem not_kept_of_folds (hp : p < t.N) (hlive : t.hand.betstatus p = .live)
    (hf : t.betFolds p bet .check = true) : ¬ t.Kept p bet := by
  have hmod : p % t.N = p := Nat.mod_eq_of_lt hp
  rintro ⟨hstat, -⟩
  rw [pangeaBet_folds t p bet .check (by rwa [hmod]) (by rwa [hmod]), hmod, pangeaFold_betstatus, Function.update_self] at hstat
  exact hstat rfl

private theorem kept_of_books (hp : p < t.N) (hlive : t.hand.betstatus p = .live)
    (hf : t.betFolds p bet .check = false) :
    t.Kept p bet ↔ if t.pangeaSlot p = p then t.hand.betsize ≤ i64 (t.hand.bets p + t.betClipped p bet)
      else t.hand.betsize ≤ t.hand.bets p := by
  have hmod : p % t.N = p := Nat.mod_eq_of_lt hp
  have hbooks := pangeaBet_books t p bet .check (by rwa [hmod]) (by rwa [hmod])
  rw [hmod] at hbooks
  have hstat : ((t.betSeated p bet).bookBet p (t.betClipped p bet) (t.betAction p bet .check)).1.hand.betstatus p ≠ .fold := by
    have hseated : (t.betSeated p bet).hand.betstatus p ≠ .fold := by
      unfold betSeated
      split
      · have hall : (t.setAllin p).hand.betstatus p = .allin := Function.update_self p _ _
        rw [hall]
        exact BetStatus.noConfusion
      · rw [hlive]
        exact BetStatus.noConfusion
    exact hseated
  have hslot : (t.betSeated p bet).pangeaSlot p = t.pangeaSlot p := by rw [pangeaSlot, betSeated_seats, pangeaSlot]
  rw [Kept, hbooks, and_iff_right hstat, bookBet_bets, hslot, betSeated_bets]
  split
  case isTrue hown => rw [hown, Function.update_self]
  case isFalse hother => rw [Function.update_of_ne (Ne.symm hother)]

private theorem Staked.store {chips : Int} (h : t.Staked t.N) (hp : p < t.N) (h0 : 0 ≤ t.hand.bets p + chips)
    (hle : chips ≤ t.balance p) : i64 (t.hand.bets p + chips) = t.hand.bets p + chips ∧
      (t.betSum p chips : Int) = t.hand.bets p + chips := by
  have hreach := h.reach hp
  exact ⟨signed_of_bounds (by omega) (by omega), unsigned_of_bounds h0 (by omega)⟩

/-- A bet that is not all in keeps the player if what is left of it reaches the bet size, and is credited to him or was
not needed. -/
private theorem Staked.kept_of_rest (h : t.Staked t.N) (hp : p < t.N) (hlive : t.hand.betstatus p = .live)
    (hallin : t.betAllin p bet = false) (h0 : 0 ≤ t.hand.bets p + t.betClipped p bet)
    (hle : t.betClipped p bet ≤ t.balance p) :
    t.Kept p bet ↔ t.hand.betsize ≤ t.hand.bets p + t.betClipped p bet ∧
      (t.pangeaSlot p = p ∨ t.hand.betsize ≤ t.hand.bets p) := by
  obtain ⟨hstore, hsum⟩ := h.store hp h0 hle
  have hword : (u64 t.hand.betsize : Int) = t.hand.betsize :=
    unsigned_of_bounds h.betsize.1 (h.betsize.2.trans (by norm_num))
  have haction : t.betAction p bet .check ≠ .allin := by
    rw [betAction, hallin, if_neg Bool.false_ne_true]
    split
    · exact Act.noConfusion
    · exact Act.noConfusion
  by_cases hshort : t.hand.bets p + t.betClipped p bet < t.hand.betsize
  case pos =>
    have hf : t.betFolds p bet .check = true := by
      rw [betFolds, betShort, decide_eq_true_eq]
      exact ⟨by omega, haction⟩
    exact iff_of_false (not_kept_of_folds hp hlive hf) fun hkept => not_lt.mpr hkept.1 hshort
  case neg =>
    have hf : t.betFolds p bet .check = false := by
      rw [betFolds, betShort, decide_eq_false_iff_not]
      exact fun hfold => absurd hfold.1 (by omega)
    rw [kept_of_books hp hlive hf, hstore, and_iff_right (not_lt.mp hshort)]
    split
    case isTrue hown => exact iff_of_true (not_lt.mp hshort) (.inl hown)
    case isFalse hother => rw [or_iff_right hother]

private theorem Staked.kept_of_allin (h : t.Staked t.N) (hs : t.Sufficient p bet) (hallin : t.betAllin p bet = true) :
    t.Kept p bet ↔ t.pangeaSlot p = p ∨ t.hand.betsize ≤ t.hand.bets p := by
  have howned := hs.owned
  have hreaches := hs.reaches
  have hsize := h.betsize
  have hall := hallin
  rw [betAllin, decide_eq_true_eq] at hall
  have hclipped : t.betClipped p bet = t.balance p := if_pos hallin
  have hf : t.betFolds p bet .check = false := by
    rw [betFolds, betAction_allin _ _ _ _ hallin, betShort, decide_eq_false_iff_not]
    exact fun hshort => hshort.2 rfl
  rw [kept_of_books hs.player hs.live hf, hclipped, (h.store hs.player (by omega) le_rfl).1]
  split
  case isTrue hown => exact iff_of_true (by omega) (.inl hown)
  case isFalse hother => rw [or_iff_right hother]

/-- A sufficient bet is kept exactly when it is not lost. -/
theorem Staked.kept_iff (h : t.Staked t.N) (hs : t.Sufficient p bet) : t.Kept p bet ↔ ¬ t.Lost p bet := by
  have howned := hs.owned
  have hreaches := hs.reaches
  have hsize := h.betsize
  have hbets := h.bets p (player_lt t hs.player)
  have hlast := h.lastraise
  rw [Lost, not_or, not_and_or (a := t.pangeaSlot p ≠ p), not_not, not_lt]
  cases hallin : t.betAllin p bet with
  | true =>
    rw [h.kept_of_allin hs hallin, and_iff_right]
    exact fun hlost => Bool.noConfusion hlost.1
  | false =>
    cases hclip : t.betClip bet with
    | true =>
      have hclipped : t.betClipped p bet = t.hand.lastraise := by
        rw [betClipped, hallin, hclip]
        rfl
      rw [betClip, decide_eq_true_eq] at hclip
      rw [h.kept_of_rest hs.player hs.live hallin (by rw [hclipped]; omega) (by rw [hclipped]; omega), hclipped]
      simp only [true_and, not_lt]
    | false =>
      have hclipped : t.betClipped p bet = bet := by
        rw [betClipped, hallin, hclip]
        rfl
      rw [h.kept_of_rest hs.player hs.live hallin (by rw [hclipped]; omega) (by rw [hclipped]; exact howned), hclipped,
        and_iff_right hreaches, and_iff_right]
      exact fun hlost => Bool.noConfusion hlost.2.1

/-- In every sound run of a hand a sufficient bet is kept exactly when it is not lost: clipped to a last raise that
is too small, or credited to another seat. -/
theorem sufficient_kept_iff (host : Bool) (t : Table) (messages : List Message) (p : Nat) (bet : Int) (hfresh : t.Fresh)
    (hsound : SoundRun host t.pangeaAntes messages)
    (hopen : (messages.foldl (receive host) t.pangeaAntes).hand.finished = false)
    (hs : (messages.foldl (receive host) t.pangeaAntes).Sufficient p bet) :
    (messages.foldl (receive host) t.pangeaAntes).Kept p bet ↔
      ¬ (messages.foldl (receive host) t.pangeaAntes).Lost p bet := by
  rcases run_staked host messages t.pangeaAntes (.inr hfresh.staked.pangeaAntes) hsound with hdone | hstaked
  · exact absurd (hopen.symm.trans hdone) Bool.false_ne_true
  · exact hstaked.kept_iff hs

def fourSeats : Seating :=
  ⟨[11, 22, 33, 44], [11, 22, 33, 44], rfl, by decide, by decide, by decide, by decide⟩

/-- Four players with 100 each, big blind 10 and ante 3, after antes, blinds and the call of the player before the
button, whose turn it is now: the button has paid no ante. -/
def buttonTurn : Table := [.startbets 8, .action 3 5 10].foldl (receive true) (openTable fourSeats (fun _ => 100) 10 3).pangeaAntes

theorem sufficient_kept_iff_call : buttonTurn.Kept 0 13 := by
  have hfresh : (openTable fourSeats (fun _ => 100) 10 3).Fresh :=
    ⟨fun _ _ => rfl, rfl, rfl, ⟨by decide, by decide⟩⟩
  refine (sufficient_kept_iff true _ [.startbets 8, .action 3 5 10] 0 13 hfresh ?_ (by decide +kernel) ?_).mpr ?_
  · exact ⟨trivial, .inr (.inr (.inl (by decide))), trivial⟩
  · exact ⟨by decide +kernel, by decide +kernel, by decide +kernel, by decide +kernel⟩
  · rintro (⟨-, hclip, -⟩ | ⟨hslot, -⟩)
    · exact absurd hclip (by decide +kernel)
    · exact hslot (by decide +kernel)

/-- With 14 the button has more than the 13 that he needs, but his bet is clipped to the last raise of 10 and he is
folded. -/
theorem buttonTurn_folded : buttonTurn.hand.undergun = 0 ∧ buttonTurn.hand.betstatus 0 = .live ∧
    buttonTurn.hand.betsize ≤ buttonTurn.hand.bets 0 + 14 ∧ 14 ≤ buttonTurn.balance 0 ∧
    (pangeaAction true buttonTurn 0 5 14).1.hand.betstatus 0 = .fold ∧ ¬ buttonTurn.Kept 0 14 := by
  have hfold : (buttonTurn.pangeaBet 0 14 .check).1.hand.betstatus 0 = .fold := by decide +kernel
  refine ⟨by decide +kernel, by decide +kernel, by decide +kernel, by decide +kernel, by decide +kernel, ?_⟩
  exact fun hkept => hkept.1 hfold

end SuperNet.Games.Pangea.Table
