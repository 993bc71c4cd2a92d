import SuperNet.Games.PangeaChips

/-! Conservation of chips over a hand. Where nobody owes and no bet is negative the count is exact. -/
namespace SuperNet.Games.Pangea.Table
open SuperNet.Lib.Words SuperNet.Lib.Runs SuperNet.Lib.Ledger

/-- Nobody owes chips, and all chips together fit in a signed word. -/
structure Solvent (t : Table) (T : Int) : Prop where
  funded : t.Funded
  bets : ∀ j < t.N, 0 ≤ t.hand.bets j
  lastraise : 0 ≤ t.hand.lastraise
  chips : t.chips = T
  fits : T < 2^63

variable {t : Table} {T : Int}

theorem Solvent.bounds (h : t.Solvent T) {p : Nat} (hp : p < t.N) :
    0 ≤ t.balance p ∧ t.balance p ≤ t.bank ∧ 0 ≤ t.hand.bets p ∧ t.hand.bets p ≤ t.pot ∧ t.bank + t.pot < 2^63 := by
  have hslot := t.seats.pangeaSlot_lt hp
  refine ⟨h.funded _ hslot, le_total h.funded hslot, h.bets p hp, le_total h.bets hp, ?_⟩
  exact h.chips.trans_lt h.fits

/-- A step that keeps balances, bets and the last raise. -/
theorem Solvent.of_eq (h : t.Solvent T) {t' : Table} (hs : t'.seats = t.seats) (hb : t'.balances = t.balances)
    (hd : t'.hand.bets = t.hand.bets) (hl : t'.hand.lastraise = t.hand.lastraise) : t'.Solvent T := by
  refine ⟨?_, ?_, ?_, ?_, h.fits⟩
  · simpa only [Funded, hs, hb] using h.funded
  · simpa only [N, hs, hd] using h.bets
  · rw [hl]
    exact h.lastraise
  · rw [← h.chips]
    simp only [Table.chips, bank, pot, N, hs, hb, hd]

theorem bookBet_solvent (h : t.Solvent T) {p : Nat} {bet : Int} (hp : p < t.N) (h0 : 0 ≤ bet) (hle : bet ≤ t.balance p)
    (hcounted : bet = 0 ∨ t.pangeaSlot p < t.N) (action : Act) : (t.bookBet p bet action).1.Solvent T := by
  obtain ⟨hbal, hbank, hbet, hpot, hfit⟩ := h.bounds hp
  have hslot := t.seats.pangeaSlot_lt hp
  have hdebit : i64 (t.balance p - bet) = t.balance p - bet := signed_of_bounds (by omega) (by omega)
  have hbank' : (t.bookBet p bet action).1.bank = t.bank - bet := by
    rw [bank, bookBet_balances, hdebit, bookBet_seats, total_update hslot, bank, balance]
    ring
  have hpots : (t.bookBet p bet action).1.pot = t.pot + bet ∧
      ∀ j < t.N, 0 ≤ (t.bookBet p bet action).1.hand.bets j := by
    by_cases hn : t.pangeaSlot p < t.N
    · have hfit' : 2 * (t.pot + bet) < 2^64 := by omega
      exact total_credit h.bets hn h0 hfit'
    · have hzero : bet = 0 := hcounted.resolve_right hn
      refine ⟨?_, fun j hj => ?_⟩
      · rw [hzero, add_zero]
        exact total_update_of_le (not_lt.mp hn) _
      · rw [bookBet_bets, Function.update_of_ne (by omega)]
        exact h.bets j hj
  refine ⟨fun i hi => ?_, hpots.2, ?_, ?_, h.fits⟩
  · rw [bookBet_balances, hdebit]
    by_cases hi' : i = t.pangeaSlot p
    · rw [hi', Function.update_self]
      omega
    · rw [Function.update_of_ne hi']
      exact h.funded i hi
  · have hsum : i64 (t.betSum p bet) = t.hand.bets p + bet := by
      rw [betSum, u64, unsigned_of_bounds (by omega) (by omega)]
      exact signed_of_bounds (by omega) (by omega)
    rcases bookBet_lastraise t p bet action with hl | hl | hl
    · rw [hl]
      exact h.lastraise
    · rw [hl]
      exact h0
    · rw [hl, hsum]
      exact add_nonneg hbet h0
  · rw [Table.chips, hbank', hpots.1, ← h.chips, Table.chips]
    ring

theorem pangeaBet_solvent (h : t.Solvent T) {player : Nat} {bet : Int} {action : Act} (hbet : 0 ≤ bet)
    (hsafe : t.BetSafe player bet action) : (t.pangeaBet player bet action).1.Solvent T := by
  have hp : player % t.N < t.N := Nat.mod_lt player t.seats.N_pos
  apply pangeaBet_cases (motive := (Solvent · T))
  case out => exact fun _ => h
  case folds => exact fun _ _ => h.of_eq rfl rfl rfl rfl
  case books =>
    intro hlive hf
    have hseat : (t.betSeated (player % t.N) bet).Solvent T := by
      unfold betSeated
      split
      · exact h.of_eq rfl rfl rfl rfl
      · exact h
    obtain ⟨h0, hle⟩ := betClipped_bounds t (player % t.N) bet (h.bounds hp).1 h.lastraise hbet
    have hcounted : t.betClipped (player % t.N) bet = 0 ∨ t.pangeaSlot (player % t.N) < t.N := by
      rcases hsafe with hs | hs | hs
      · exact absurd hlive hs
      · exact absurd (hf.symm.trans hs) Bool.false_ne_true
      · exact hs
    refine bookBet_solvent hseat ?_ h0 ?_ ?_ _
    · simpa only [N, betSeated_seats] using hp
    · simpa only [balance, pangeaSlot, betSeated_seats, betSeated_balances] using hle
    · simpa only [N, pangeaSlot, betSeated_seats] using hcounted

theorem antesFunded_solvent (h : t.Solvent T) : t.antesFunded.Solvent T := by
  apply rounds_induct (motive := fun _ (t' : Table) => t'.Solvent T)
  · exact h.of_eq rfl rfl rfl rfl
  · intro k _ ih
    rw [antesBroke]
    split
    · exact ih.of_eq rfl rfl rfl rfl
    · exact ih

/-- An ante that the balance covers is not negative as a signed word. -/
theorem antesPost_solvent (h : t.Solvent T) {i : Nat} (hi : i < t.N) (hsafe : t.AntePostSafe i) :
    (t.antesPost i).Solvent T := by
  rw [antesPost]
  split
  case isFalse => exact h
  case isTrue hpost =>
    split
    case isTrue => exact h.of_eq rfl rfl rfl rfl
    case isFalse hfund =>
      obtain ⟨hbal, hbank, hbet, hpot, hfit⟩ := h.bounds hi
      have hword : (u64 (t.balance i) : Int) = t.balance i := unsigned_of_bounds hbal (by omega)
      have hante : i64 t.ante = t.ante := signed_of_bounds (by omega) (by omega)
      refine pangeaBet_solvent h ?_ (hsafe hpost.1 hpost.2 (not_lt.mp hfund))
      rw [hante]
      exact Int.natCast_nonneg t.ante

theorem antesPosted_solvent (h : t.Solvent T)
    (hsafe : t.ante ≠ 0 → ∀ k < t.N, AntePostSafe (rounds antesPost t.antesFunded k) k) :
    t.antesPosted.Solvent T := by
  rw [antesPosted]
  split
  case isFalse => exact antesFunded_solvent h
  case isTrue hante =>
    have hboth : (rounds antesPost t.antesFunded t.N).Solvent T ∧
        (rounds antesPost t.antesFunded t.N).seats = t.seats := by
      refine rounds_induct (motive := fun _ (t' : Table) => t'.Solvent T ∧ t'.seats = t.seats) t.N
        ⟨antesFunded_solvent h, t.antesFunded_sameChips.seats⟩ fun k hk ih => ?_
      have hk' : k < (rounds antesPost t.antesFunded k).N := by
        rw [N, ih.2]
        exact hk
      exact ⟨antesPost_solvent ih.1 hk' (hsafe hante k hk), (antesPost_sameChips (hsafe hante k hk)).seats.trans ih.2⟩
    exact hboth.1

/-- What the blinds loop knows: a second player was found only if he covers the big blind. -/
structure Seated (T : Int) (acc : Table × List Nat) : Prop where
  solvent : acc.1.Solvent T
  covered : 2 ≤ acc.2.length → acc.1.bigblind < 2^63

theorem antesSeat_seated {acc : Table × List Nat} (h : Seated T acc) (i : Nat) : Seated T (antesSeat acc i) := by
  have hj : u32 (1 + acc.1.button + i) % acc.1.N < acc.1.N := Nat.mod_lt _ acc.1.seats.N_pos
  simp only [antesSeat]
  split
  case isFalse => exact ⟨h.solvent.of_eq rfl rfl rfl rfl, h.covered⟩
  case isTrue hfund =>
    refine ⟨h.solvent, fun hlen => ?_⟩
    rw [List.length_append, List.length_singleton] at hlen
    dsimp only
    by_cases h1 : acc.2.length = 1
    · obtain ⟨hbal, hbank, hbet, hpot, hfit⟩ := h.solvent.bounds hj
      have hword : (u64 (acc.1.balance _) : Int) = acc.1.balance _ := unsigned_of_bounds hbal (by omega)
      rw [h1] at hfund
      exact bigblind_of_threshold acc.1 hfund (by omega)
    · exact h.covered (by omega)

theorem antesBlinds_solvent {acc : Table × List Nat} (h : Seated T acc) (hsafe : acc.1.BlindsSafe acc.2) :
    (acc.1.antesBlinds acc.2).Solvent T := by
  obtain ⟨t, actives⟩ := acc
  match actives, h, hsafe with
  | [], h, _ => exact h.solvent
  | [_], h, _ => exact h.solvent
  | small :: big :: _, h, ⟨hsmall, hbig⟩ =>
    have hlt := t.bigblind_lt
    have hcover : t.bigblind < 2^63 := h.covered (by simp)
    have hhalf : i64 (t.bigblind / 2 : Nat) = (t.bigblind / 2 : Nat) := signed_of_bounds (by omega) (by omega)
    have hfull : i64 t.bigblind = t.bigblind := signed_of_bounds (by omega) (by omega)
    have hfirst := pangeaBet_solvent h.solvent (by rw [hhalf]; exact Int.natCast_nonneg _) hsmall
    have hbutton : (t.antesSmallblind small).Solvent T := hfirst.of_eq rfl rfl rfl rfl
    exact pangeaBet_solvent hbutton (by rw [hfull]; exact Int.natCast_nonneg _) hbig

theorem pangeaAntes_solvent (h : t.Solvent T) (hsafe : t.AntesSafe) : t.pangeaAntes.Solvent T := by
  have hseated : Seated T t.antesSeated :=
    rounds_induct (motive := fun _ acc => Seated T acc) t.N
      ⟨antesPosted_solvent h hsafe.1, fun hlen => absurd hlen (by simp)⟩ fun k _ ih => antesSeat_seated ih k
  exact antesBlinds_solvent hseated hsafe.2

/-- The amount of a bet is not negative. -/
def Op.Nonneg : Op → Prop
  | .bet _ amount _ => 0 ≤ amount
  | .antes => True

theorem run_solvent (t : Table) (ops : List Op) (h : t.Solvent T) (hsafe : t.RunSafe ops)
    (hops : ∀ op ∈ ops, op.Nonneg) : (t.run ops).Solvent T := by
  induction ops generalizing t with
  | nil => exact h
  | cons op ops ih =>
    have hop := hops op List.mem_cons_self
    refine ih (t.apply op) ?_ hsafe.2 fun op' hop' => hops op' (List.mem_cons_of_mem _ hop')
    cases op with
    | bet player amount action => exact pangeaBet_solvent h hop hsafe.1
    | antes => exact pangeaAntes_solvent h hsafe.1

theorem wordBets_exact (h : t.Solvent T) : (t.potTotal t.wordBets : Int) = t.pot := by
  simp only [potTotal, pot, total, Nat.cast_sum]
  refine Finset.sum_congr rfl fun j hj => ?_
  obtain ⟨hbal, hbank, hbet, hpot, hfit⟩ := h.bounds (Finset.mem_range.mp hj)
  exact unsigned_of_bounds hbet (by omega)

private theorem finishPayout_exact (h : t.Solvent T) (hlive : t.PotLive) :
    t.finishPayout.held = T ∧ t.finishPayout.table.Funded := by
  obtain ⟨-, -, hbet, hpot, hfit⟩ := h.bounds t.seats.N_pos
  have hchips : t.bank + t.pot = T := h.chips
  rcases Finset.eq_empty_or_nonempty (t.contributors t.wordBets) with hnone | hsome
  · have hzero : (t.pot : Word) = 0 := hlive.resolve_left (Finset.not_nonempty_iff_eq_empty.mpr hnone)
    obtain ⟨k, hk⟩ := (ZMod.intCast_zmod_eq_zero_iff_dvd t.pot (2^64)).mp hzero
    have hbank : 0 ≤ t.bank := total_nonneg h.funded
    have hpot0 : t.pot = 0 := by
      push_cast at hk
      omega
    rw [finishPayout_abandoned hnone]
    refine ⟨?_, h.funded⟩
    simp only [Payout.held, Nat.cast_zero, add_zero]
    omega
  · have hpaid := (finishPayout_paidOut hsome).exact h.funded
    simp only [wordBets_exact h, Payout.held, Nat.cast_zero, add_zero] at hpaid
    obtain ⟨hheld, hfunded⟩ := hpaid hfit
    exact ⟨hheld.trans hchips, hfunded⟩

theorem pangeaFinish_exact (h : t.Solvent T) (hopen : t.hand.finished = false) (hlive : t.PotLive) :
    t.pangeaFinish.settled = T := by
  obtain ⟨hheld, hfunded⟩ := finishPayout_exact h hlive
  have hbank : 0 ≤ t.finishPayout.table.bank := total_nonneg hfunded
  have hfits := h.fits
  rw [Payout.held] at hheld
  have hrake : i64 t.finishPayout.rake = t.finishPayout.rake := signed_of_bounds (by omega) (by omega)
  have hpangea : i64 t.finishPayout.pangearake = t.finishPayout.pangearake :=
    signed_of_bounds (by omega) (by omega)
  rw [settled_pangeaFinish hopen, hrake, hpangea, hheld]

private theorem pot_of_bets_zero (h : ∀ j, t.hand.bets j = 0) : t.pot = 0 := by
  simp [pot, total, h]

/-- Chip conservation over one hand, from any table state without bets: before the finish balances and
bets, after it balances and rakes add up to the initial balances, as words. If nobody owes chips at the
start, the chips fit in a signed word and no amount is negative, they add up as integers. -/
theorem hand_conserves_chips (t : Table) (ops : List Op) (hbets : ∀ j, t.hand.bets j = 0)
    (hopen : t.hand.finished = false) (hsafe : t.RunSafe ops) :
    ((t.run ops).chips : Word) = t.bank ∧
      ((t.run ops).PotLive → ((t.run ops).pangeaFinish.settled : Word) = t.bank) ∧
      (t.Funded → t.bank < 2^63 → 0 ≤ t.hand.lastraise → (∀ op ∈ ops, op.Nonneg) →
        (t.run ops).chips = t.bank ∧ ((t.run ops).PotLive → (t.run ops).pangeaFinish.settled = t.bank)) := by
  have hsame := run_sameChips t ops hsafe
  have hclosed : (t.run ops).hand.finished = false := hsame.finished.trans hopen
  have hstart : t.chips = t.bank := by rw [chips, pot_of_bets_zero hbets, add_zero]
  have hword : ((t.run ops).chips : Word) = t.bank := hsame.chips.trans (by rw [hstart])
  refine ⟨hword, fun hlive => (pangeaFinish_settled hclosed hlive).trans hword, fun hfunded hfits hlast hops => ?_⟩
  have hsolvent : t.Solvent t.bank := ⟨hfunded, fun j _ => (hbets j).ge, hlast, hstart, hfits⟩
  have hrun := run_solvent t ops hsolvent hsafe hops
  exact ⟨hrun.chips, pangeaFinish_exact hrun hclosed⟩

theorem hand_conserves_chips_three :
    ((openTable threeSeats (fun _ => 100) 10 0).run
      [.antes, .bet 0 10 .check, .bet 1 20 .check, .bet 2 0 .check]).pangeaFinish.settled = 300 := by
  have hsafe := runSafe_of_slots (openTable threeSeats (fun _ => 100) 10 0)
    [.antes, .bet 0 10 .check, .bet 1 20 .check, .bet 2 0 .check] (by decide)
  have h := hand_conserves_chips _ _ (fun _ => rfl) rfl hsafe
  have hbank : (openTable threeSeats (fun _ => 100) 10 0).bank = 300 := by decide +kernel
  rw [hbank] at h
  refine (h.2.2 (fun _ _ => by norm_num [openTable]) (by norm_num) (by decide) ?_).2 (.inl ⟨0, by decide +kernel⟩)
  simp [Op.Nonneg]

/-- A bet by a player whose slot is not below `N` leaves the table, and a pot whose contributors have all
folded is paid to nobody: here the players cannot cover the blinds after the ante. -/
theorem chips_lost :
    (openTable skippedSeat (fun _ => 100) 10 0).bank = 300 ∧
      ((openTable skippedSeat (fun _ => 100) 10 0).run [.bet 1 10 .check]).chips = 290 ∧
      (openTable threeSeats (fun _ => 20) 100 10).bank = 60 ∧
      ((openTable threeSeats (fun _ => 20) 100 10).run [.antes]).pangeaFinish.settled = 50 ∧
      ((290 : Int) : Word) ≠ (300 : Int) ∧ ((50 : Int) : Word) ≠ (60 : Int) := by
  refine ⟨?_, ?_, ?_, ?_, ?_, ?_⟩
  · decide +kernel
  · decide +kernel
  · decide +kernel
  · decide +kernel
  · rw [Ne, ZMod.intCast_eq_intCast_iff]
    decide
  · rw [Ne, ZMod.intCast_eq_intCast_iff]
    decide

end SuperNet.Games.Pangea.Table
