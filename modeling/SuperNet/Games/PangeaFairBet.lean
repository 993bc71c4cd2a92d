import SuperNet.Games.PangeaBet
import SuperNet.Games.PangeaPayout
import SuperNet.Games.PangeaHand

/-! When a bet moves chips from the balance of a player to his bets and does nothing else to the funds. -/
namespace SuperNet.Games.Pangea.Table
open SuperNet.Lib.Words

/-- No balance has grown or gone below zero, and player `p` has bet what his balance has lost. -/
def FairBet (t t' : Table) (p : Nat) : Prop :=
  (∀ i < t.seats.addrs.length, 0 ≤ t'.balances i ∧ t'.balances i ≤ t.balances i) ∧
    t'.hand.bets p - t.hand.bets p = t.balance p - t'.balance p

instance (t t' : Table) (p : Nat) : Decidable (t.FairBet t' p) :=
  inferInstanceAs (Decidable (_ ∧ _))

/-- The funds are values of `int64_t`. -/
structure InRange (t : Table) : Prop where
  balances : ∀ i < CARDS777_MAXPLAYERS, -2^63 ≤ t.balances i ∧ t.balances i < 2^63
  bets : ∀ i < CARDS777_MAXPLAYERS, -2^63 ≤ t.hand.bets i ∧ t.hand.bets i < 2^63
  lastraise : -2^63 ≤ t.hand.lastraise ∧ t.hand.lastraise < 2^63

/-- There is nothing to credit, or the player's slot is his own index and his bets do not overflow. -/
def Credited (t : Table) (p : Nat) (chips : Int) : Prop :=
  chips = 0 ∨ t.pangeaSlot p = p ∧ t.hand.bets p + chips < 2^63

/-- The player is out; or he is all in and what he has is credited; or the bet is clipped to the last
raise, or taken as it is, and either folds him in the unsigned comparison with the bet size or is not
negative and is credited. -/
def BetCovered (t : Table) (p : Nat) (bet : Int) : Prop :=
  t.hand.betstatus p ≠ .live ∨
    if 0 < bet ∧ t.balance p ≤ bet then t.Credited p (t.balance p)
    else if t.hand.betsize < bet ∧ t.hand.lastraise < bet ∧ bet < i64 (t.hand.lastraise * 2) then
      u64 (t.hand.bets p + t.hand.lastraise) < u64 t.hand.betsize ∨
        0 ≤ t.hand.lastraise ∧ t.Credited p t.hand.lastraise
    else u64 (t.hand.bets p + bet) < u64 t.hand.betsize ∨ 0 ≤ bet ∧ t.Credited p bet

variable {t t' : Table} {p : Nat} {bet : Int}

private theorem debit_bounds {balance : Int} (hbal : 0 ≤ balance) (hfit : balance < 2^63)
    (h0 : -2^63 ≤ bet) (hle : 0 ≤ i64 (balance - bet) ∧ i64 (balance - bet) ≤ balance) (hbet : bet < 2^63) :
    0 ≤ bet ∧ bet ≤ balance := by
  by_cases hsmall : balance - bet < 2^63
  · have hstore : i64 (balance - bet) = balance - bet := signed_of_bounds (by omega) (by omega)
    omega
  · have hwrap : i64 (balance - bet) = balance - bet - 2^64 := signed_wrap (by omega) (by omega)
    omega

/-- A booked bet is fair exactly if it is covered by the balance and credited to the player. -/
theorem bookBet_fair (hr : t.InRange) (hf : t.Funded) (hp : p < t.N) (hbet : -2^63 ≤ bet ∧ bet < 2^63) (action : Act) :
    t.FairBet (t.bookBet p bet action).1 p ↔ 0 ≤ bet ∧ bet ≤ t.balance p ∧ t.Credited p bet := by
  have hslot := t.seats.pangeaSlot_lt hp
  have hbal : 0 ≤ t.balance p := hf _ hslot
  have hfit : t.balance p < 2^63 := (hr.balances _ (hslot.trans_le t.seats.addrs_length)).2
  have hbets := hr.bets p (hp.trans_le t.seats.N_le)
  have hdebit : (t.bookBet p bet action).1.balance p = i64 (t.balance p - bet) := by
    rw [balance, pangeaSlot, bookBet_seats, bookBet_balances, Function.update_self]
  have hcredit : t.pangeaSlot p = p → (t.bookBet p bet action).1.hand.bets p = i64 (t.hand.bets p + bet) := by
    intro hown
    rw [bookBet_bets, hown, Function.update_self]
  have hother : t.pangeaSlot p ≠ p → (t.bookBet p bet action).1.hand.bets p = t.hand.bets p := by
    intro hown
    rw [bookBet_bets, Function.update_of_ne (Ne.symm hown)]
  rw [FairBet, hdebit]
  constructor
  · rintro ⟨hbalances, hmoved⟩
    have hkeep := hbalances _ hslot
    rw [bookBet_balances, Function.update_self] at hkeep
    obtain ⟨h0, hle⟩ := debit_bounds hbal hfit hbet.1 hkeep hbet.2
    have hstore : i64 (t.balance p - bet) = t.balance p - bet := signed_of_bounds (by omega) (by omega)
    refine ⟨h0, hle, ?_⟩
    by_cases hown : t.pangeaSlot p = p
    · refine .inr ⟨hown, ?_⟩
      have hbound := (signed_bounds (t.hand.bets p + bet)).2
      rw [hcredit hown, hstore] at hmoved
      omega
    · rw [hother hown, hstore] at hmoved
      exact .inl (by omega)
  · rintro ⟨h0, hle, hcredited⟩
    have hstore : i64 (t.balance p - bet) = t.balance p - bet := signed_of_bounds (by omega) (by omega)
    refine ⟨fun i hi => ?_, ?_⟩
    · rw [bookBet_balances, hstore]
      by_cases hslot' : i = t.pangeaSlot p
      · rw [hslot', Function.update_self, ← balance]
        omega
      · rw [Function.update_of_ne hslot']
        exact ⟨hf i hi, le_rfl⟩
    · rw [hstore]
      by_cases hown : t.pangeaSlot p = p
      · have hsum : i64 (t.hand.bets p + bet) = t.hand.bets p + bet := by
          rcases hcredited with hzero | ⟨-, hfits⟩
          · exact signed_of_bounds (by omega) (by omega)
          · exact signed_of_bounds (by omega) (by omega)
        rw [hcredit hown, hsum]
        ring
      · have hzero : bet = 0 := hcredited.resolve_right fun h => hown h.1
        rw [hother hown, hzero]
        ring

private theorem betCovered_live (hlive : t.hand.betstatus p = .live) (hbal : 0 ≤ t.balance p) :
    t.BetCovered p bet ↔ t.betFolds p bet .check = true ∨
      0 ≤ t.betClipped p bet ∧ t.betClipped p bet ≤ t.balance p ∧ t.Credited p (t.betClipped p bet) := by
  simp only [BetCovered, hlive, ne_eq, not_true_eq_false, false_or, betFolds, betShort, betSum, betClipped,
    betAction, betAllin, betClip, decide_eq_true_eq]
  split_ifs with hall hclip
  · simp [hbal]
  · have hle : t.hand.lastraise ≤ t.balance p ∨ t.hand.lastraise < 0 := by omega
    constructor
    · rintro (hshort | ⟨h0, hcredit⟩)
      · exact .inl ⟨hshort, by simp⟩
      · exact .inr ⟨h0, by omega, hcredit⟩
    · rintro (hshort | ⟨h0, -, hcredit⟩)
      · exact .inl hshort.1
      · exact .inr ⟨h0, hcredit⟩
  · constructor
    · rintro (hshort | ⟨h0, hcredit⟩)
      · exact .inl ⟨hshort, by simp⟩
      · exact .inr ⟨h0, by omega, hcredit⟩
    · rintro (hshort | ⟨h0, -, hcredit⟩)
      · exact .inl hshort.1
      · exact .inr ⟨h0, hcredit⟩

private theorem fairBet_same (hf : t.Funded) (hs : t'.seats = t.seats) (hb : t'.balances = t.balances)
    (hd : t'.hand.bets = t.hand.bets) : t.FairBet t' p := by
  refine ⟨fun i hi => ?_, ?_⟩
  · rw [hb]
    exact ⟨hf i hi, le_rfl⟩
  · simp only [hd, balance, pangeaSlot, hs, hb, sub_self]

private theorem betClipped_range (hr : t.InRange) (hp : p < t.N) (hbet : -2^63 ≤ bet ∧ bet < 2^63) :
    -2^63 ≤ t.betClipped p bet ∧ t.betClipped p bet < 2^63 := by
  rw [betClipped]
  split_ifs
  · exact hr.balances _ ((t.seats.pangeaSlot_lt hp).trans_le t.seats.addrs_length)
  · exact hr.lastraise
  · exact hbet

/-- A player's bet is fair exactly if it is covered. -/
theorem pangeaBet_fair (hr : t.InRange) (hf : t.Funded) (hp : p < t.N) (hbet : -2^63 ≤ bet ∧ bet < 2^63) :
    t.FairBet (t.pangeaBet p bet .check).1 p ↔ t.BetCovered p bet := by
  have hmod : p % t.N = p := Nat.mod_eq_of_lt hp
  have hbal : 0 ≤ t.balance p := hf _ (t.seats.pangeaSlot_lt hp)
  apply pangeaBet_cases (motive := fun t' => t.FairBet t' p ↔ t.BetCovered p bet)
  all_goals rw [hmod]
  case out => exact fun hlive => iff_of_true (fairBet_same hf rfl rfl rfl) (.inl hlive)
  case folds =>
    intro hlive hfold
    rw [betCovered_live hlive hbal]
    exact iff_of_true (fairBet_same hf rfl rfl rfl) (.inl hfold)
  case books =>
    intro hlive hfold
    rw [betCovered_live hlive hbal]
    have hseat : ∀ u : Table, t.FairBet u p ↔ (t.betSeated p bet).FairBet u p := by
      intro u
      simp only [FairBet, balance, pangeaSlot, betSeated_seats, betSeated_balances, betSeated_bets]
    have hrange : (t.betSeated p bet).InRange := by
      unfold betSeated
      split
      · exact ⟨hr.balances, hr.bets, hr.lastraise⟩
      · exact hr
    have hfunded : (t.betSeated p bet).Funded := by
      simpa only [Funded, betSeated_seats, betSeated_balances] using hf
    rw [hseat, bookBet_fair hrange hfunded (by simpa only [N, betSeated_seats] using hp) (betClipped_range hr hp hbet)]
    simp only [Credited, balance, pangeaSlot, betSeated_seats, betSeated_balances, betSeated_bets, hfold,
      Bool.false_eq_true, false_or]

/-- What the host does after a bet leaves the funds alone. -/
structure SameFunds (t t' : Table) : Prop where
  seats : t'.seats = t.seats
  balances : t'.balances = t.balances
  bets : t'.hand.bets = t.hand.bets

private theorem hostAction_sameFunds (t : Table) : SameFunds t t.hostAction.1 := by
  obtain ⟨_, _, _, h⟩ := t.hostAction_updates
  rw [h]
  exact ⟨rfl, rfl, rfl⟩

private theorem fairBet_congr {u u' : Table} (h : SameFunds u u') : t.FairBet u' p ↔ t.FairBet u p := by
  simp only [FairBet, balance, pangeaSlot, h.seats, h.balances, h.bets]

/-- An action in turn either ends the hand, which then pays out, or has moved the chips of its bet only. -/
theorem pangeaAction_funds (host : Bool) (t : Table) (p : Nat) (action : Int) (amount : Nat)
    (hturn : p = t.hand.undergun) :
    if (pangeaAction host t p action amount).2 = .lastman then
      (pangeaAction host t p action amount).1 = (t.actionBet p action amount).pangeaFinish
    else SameFunds (t.pangeaBet p (i64 amount) .check).1 (pangeaAction host t p action amount).1 := by
  have hbet : SameFunds (t.pangeaBet p (i64 amount) .check).1 (t.actionBet p action amount) := ⟨rfl, rfl, rfl⟩
  rw [pangeaAction, if_neg (not_not.mpr hturn), pangeaLastman]
  by_cases hlast : (t.actionBet p action amount).hand.betstarted ≠ 0 ∧
      (t.actionBet p action amount).pangeaActives ≤ 1
  · simp only [if_pos hlast, if_true]
  · simp only [if_neg hlast, Bool.false_eq_true, if_false]
    cases host with
    | false => exact hbet
    | true =>
      have hhost := hostAction_sameFunds (t.actionBet p action amount)
      have hgoes : (t.actionBet p action amount).hostAction.2 ≠ .lastman := by
        simp only [hostAction, nextStreet]
        split
        · exact Outcome.noConfusion
        · split <;> exact Outcome.noConfusion
      simp only [if_true, if_neg hgoes]
      exact ⟨hhost.seats.trans hbet.seats, hhost.balances.trans hbet.balances, hhost.bets.trans hbet.bets⟩

/-- The bet of an action message in turn, of whatever 64-bit amount, is fair exactly if it is covered; so
is the whole action, unless it ends the hand and the pots are paid out. -/
theorem action_fair_iff_covered (host : Bool) (t : Table) (p : Nat) (action : Int) (amount : Nat)
    (hr : t.InRange) (hf : t.Funded) (hp : p < t.N) (hturn : p = t.hand.undergun) :
    (t.FairBet (t.pangeaBet p (i64 amount) .check).1 p ↔ t.BetCovered p (i64 amount)) ∧
      ((pangeaAction host t p action amount).2 ≠ .lastman →
        (t.FairBet (pangeaAction host t p action amount).1 p ↔ t.BetCovered p (i64 amount))) := by
  have hbet := pangeaBet_fair hr hf hp (signed_bounds amount)
  refine ⟨hbet, fun hgoes => ?_⟩
  have hfunds := pangeaAction_funds host t p action amount hturn
  rw [if_neg hgoes] at hfunds
  rw [fairBet_congr hfunds]
  exact hbet

theorem action_fair_iff_covered_call :
    (firstRound threeSeats 100).FairBet (pangeaAction true (firstRound threeSeats 100) 0 5 10).1 0 := by
  have h := action_fair_iff_covered true (firstRound threeSeats 100) 0 5 10
    ⟨by decide +kernel, by decide +kernel, by decide +kernel⟩ (by decide +kernel)
    (by decide +kernel) (by decide +kernel)
  refine (h.2 (by decide +kernel)).mpr (.inr ?_)
  rw [if_neg (by decide +kernel), if_neg (by decide +kernel)]
  exact .inr ⟨by decide +kernel, .inr (by decide +kernel)⟩

/-- A negative amount passes the unsigned comparison with the bet size: the balance grows by 5 and the
player's bets fall below zero. A player who does not sit in the slot of his index pays into the bets of
another one. -/
theorem action_mints_chips :
    (firstRound threeSeats 100).Funded ∧ (firstRound threeSeats 100).hand.undergun = 0 ∧
      (pangeaAction true (firstRound threeSeats 100) 0 5 (2^64 - 5)).2 = .turn 1 ∧
      (pangeaAction true (firstRound threeSeats 100) 0 5 (2^64 - 5)).1.balances 0 = 105 ∧
      ¬ (firstRound threeSeats 100).FairBet (pangeaAction true (firstRound threeSeats 100) 0 5 (2^64 - 5)).1 0 ∧
      (let swapped := (pangeaAction true (firstRound swappedSeats 100) 0 5 15).1
      swapped.Funded ∧ swapped.hand.undergun = 1 ∧ ¬ swapped.FairBet (pangeaAction true swapped 1 5 20).1 1) := by
  decide +kernel

end SuperNet.Games.Pangea.Table
