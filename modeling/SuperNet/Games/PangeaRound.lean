import SuperNet.Lib.Rotation
import SuperNet.Games.PangeaBet
import SuperNet.Games.PangeaHand

/-! The invariant of the betting rounds at a table where everybody sits in the slot of his index. -/
namespace SuperNet.Games.Pangea.Table
open SuperNet.Lib.Words SuperNet.Lib.Runs SuperNet.Lib.Rotation

/-- Player `s` has nothing left to do: he is out or his bets are up to the bet size. -/
def Settled (t : Table) (s : Nat) : Prop := t.hand.betstatus s = .live → t.hand.bets s = t.hand.betsize

/-- The bet size is the largest of the bets. -/
structure TopBet (t : Table) : Prop where
  le : ∀ j < t.N, t.hand.bets j ≤ t.hand.betsize
  attained : ∃ j < t.N, t.hand.bets j = t.hand.betsize

/-- The last `numactions` players before the one under the gun are settled. -/
structure Round (t : Table) : Prop where
  own : ∀ i < t.N, t.pangeaSlot i = i
  top : t.TopBet
  nonneg : ∀ j < t.N, 0 ≤ t.hand.bets j
  fits : t.hand.betsize < 2^63
  lastraise : 0 ≤ t.hand.lastraise
  funds : ∀ j < t.N, t.hand.betstatus j ≠ .fold → 0 ≤ t.balances j ∧ t.hand.bets j + t.balances j < 2^63
  turn : t.hand.undergun < t.N
  passed : Passed t.N t.Settled t.hand.undergun t.hand.numactions

variable {t : Table} {q : Nat} {bet : Int} {action : Act}

structure SameBets (t t' : Table) : Prop where
  seats : t'.seats = t.seats
  balances : t'.balances = t.balances
  bets : t'.hand.bets = t.hand.bets
  betsize : t'.hand.betsize = t.hand.betsize
  lastraise : t'.hand.lastraise = t.hand.lastraise

theorem Round.of_sameBets {t' : Table} (h : t.Round) (hs : SameBets t t')
    (hst : ∀ j, t'.hand.betstatus j = t.hand.betstatus j ∨
      t'.hand.betstatus j = .fold ∨ t'.hand.betstatus j = .allin ∧ t.hand.betstatus j = .live)
    (hturn : t'.hand.undergun < t.N) (hpass : Passed t.N t.Settled t'.hand.undergun t'.hand.numactions) : t'.Round := by
  have hN : t'.N = t.N := by rw [N, hs.seats]
  refine ⟨?_, ⟨?_, ?_⟩, ?_, ?_, ?_, ?_, ?_, ?_⟩
  · intro i hi
    rw [pangeaSlot, hs.seats]
    exact h.own i (hN ▸ hi)
  · intro j hj
    rw [hs.bets, hs.betsize]
    exact h.top.le j (hN ▸ hj)
  · rw [hN, hs.bets, hs.betsize]
    exact h.top.attained
  · intro j hj
    rw [hs.bets]
    exact h.nonneg j (hN ▸ hj)
  · rw [hs.betsize]
    exact h.fits
  · rw [hs.lastraise]
    exact h.lastraise
  · intro j hj hnf
    rw [hs.bets, hs.balances]
    refine h.funds j (hN ▸ hj) fun hfold => ?_
    rcases hst j with he | he | ⟨-, he⟩
    · exact hnf (he.trans hfold)
    · exact hnf he
    · exact absurd (he.symm.trans hfold) BetStatus.noConfusion
  · rw [hN]
    exact hturn
  · rw [hN]
    refine hpass.mono le_rfl fun s _ hset hlive => ?_
    rw [hs.bets, hs.betsize]
    rcases hst s with he | he | ⟨he, -⟩
    · exact hset (he.symm.trans hlive)
    · exact absurd (he.symm.trans hlive) BetStatus.noConfusion
    · exact absurd (he.symm.trans hlive) BetStatus.noConfusion

theorem pangeaFold_status (t : Table) (q j : Nat) :
    (t.pangeaFold q).hand.betstatus j = t.hand.betstatus j ∨ (t.pangeaFold q).hand.betstatus j = .fold := by
  by_cases hj : j = q
  · rw [pangeaFold_betstatus, hj, Function.update_self]
    exact .inr rfl
  · rw [pangeaFold_betstatus, Function.update_of_ne hj]
    exact .inl rfl

theorem Round.pangeaFold (h : t.Round) (q : Nat) : (t.pangeaFold q).Round := by
  refine h.of_sameBets ⟨rfl, rfl, rfl, rfl, rfl⟩ (fun j => ?_) h.turn h.passed
  exact (pangeaFold_status t q j).imp_right .inl

theorem Round.setAllin (h : t.Round) (hlive : t.hand.betstatus q = .live) : (t.setAllin q).Round := by
  refine h.of_sameBets ⟨rfl, rfl, rfl, rfl, rfl⟩ (fun j => ?_) h.turn h.passed
  have hst : (t.setAllin q).hand.betstatus = Function.update t.hand.betstatus q .allin := rfl
  by_cases hj : j = q
  · rw [hst, hj, Function.update_self]
    exact .inr (.inr ⟨rfl, hlive⟩)
  · rw [hst, Function.update_of_ne hj]
    exact .inl rfl

theorem Round.betsize_nonneg (h : t.Round) : 0 ≤ t.hand.betsize := by
  obtain ⟨j, hj, htop⟩ := h.top.attained
  rw [← htop]
  exact h.nonneg j hj

theorem Round.betsize_word (h : t.Round) : (u64 t.hand.betsize : Int) = t.hand.betsize :=
  unsigned_of_bounds h.betsize_nonneg (by have := h.fits; omega)

theorem Round.betSum_eq (h : t.Round) (hq : q < t.N) (hnf : t.hand.betstatus q ≠ .fold) {chips : Int}
    (h0 : 0 ≤ chips) (hle : chips ≤ t.balances q) : (t.betSum q chips : Int) = t.hand.bets q + chips := by
  have hfit := h.funds q hq hnf
  have hbet := h.nonneg q hq
  exact unsigned_of_bounds (by omega) (by omega)

/-- The effect of a covered bet on a round, without the words. -/
private structure Booked (t t' : Table) (q : Nat) (chips : Int) : Prop where
  seats : t'.seats = t.seats
  betstatus : t'.hand.betstatus = t.hand.betstatus
  undergun : t'.hand.undergun = t.hand.undergun
  balances : t'.balances = Function.update t.balances q (t.balances q - chips)
  bets : t'.hand.bets = Function.update t.hand.bets q (t.hand.bets q + chips)
  lastraise : 0 ≤ t'.hand.lastraise
  raised : t.hand.betsize < t.hand.bets q + chips →
    t'.hand.betsize = t.hand.bets q + chips ∧ t'.hand.numactions = 0
  called : t.hand.bets q + chips ≤ t.hand.betsize →
    t'.hand.betsize = t.hand.betsize ∧ t'.hand.numactions ≤ t.hand.numactions

private theorem bookBet_booked (h : t.Round) (hq : q < t.N) (hnf : t.hand.betstatus q ≠ .fold) {chips : Int}
    (h0 : 0 ≤ chips) (hle : chips ≤ t.balances q) (action : Act) :
    Booked t (t.bookBet q chips action).1 q chips := by
  have hslot := h.own q hq
  obtain ⟨hbal, hfit⟩ := h.funds q hq hnf
  have hbet := h.nonneg q hq
  have hdebit : i64 (t.balances q - chips) = t.balances q - chips := signed_of_bounds (by omega) (by omega)
  have hcredit : i64 (t.hand.bets q + chips) = t.hand.bets q + chips := signed_of_bounds (by omega) (by omega)
  have hsum := h.betSum_eq hq hnf h0 hle
  have hsize := h.betsize_word
  have hover : t.betOver q chips = true ↔ t.hand.betsize < t.hand.bets q + chips := by
    rw [betOver, decide_eq_true_eq]
    omega
  refine ⟨rfl, rfl, rfl, ?_, ?_, ?_, fun hraise => ?_, fun hcall => ?_⟩
  · rw [bookBet_balances, balance, hslot, hdebit]
  · rw [bookBet_bets, hslot, hcredit]
  · rcases bookBet_lastraise t q chips action with hl | hl | hl
    · rw [hl]
      exact h.lastraise
    · rw [hl]
      exact h0
    · rw [hl, hsum, hcredit]
      exact add_nonneg hbet h0
  · rw [bookBet_betsize, bookBet_numactions, if_pos (hover.mpr hraise), if_pos (.inr (hover.mpr hraise)), hsum, hcredit]
    exact ⟨rfl, rfl⟩
  · have hnot : ¬ t.betOver q chips = true := fun hb => absurd (hover.mp hb) (by omega)
    rw [bookBet_betsize, bookBet_numactions, if_neg hnot]
    refine ⟨rfl, ?_⟩
    split
    · exact Nat.zero_le _
    · exact le_rfl

private theorem Booked.settled {t' : Table} {chips : Int} (h : Booked t t' q chips)
    (hclose : t.hand.betsize ≤ t.hand.bets q + chips ∨ t.hand.betstatus q = .allin) : t'.Settled q := by
  intro hlive
  rw [h.bets, Function.update_self]
  rw [h.betstatus] at hlive
  rcases lt_or_ge t.hand.betsize (t.hand.bets q + chips) with hraise | hcall
  · exact (h.raised hraise).1.symm
  · have hreach : t.hand.betsize ≤ t.hand.bets q + chips :=
      hclose.resolve_right fun hall => absurd (hlive.symm.trans hall) BetStatus.noConfusion
    rw [(h.called hcall).1]
    exact le_antisymm hcall hreach

private theorem Booked.round {t' : Table} {chips : Int} (hb : Booked t t' q chips) (h : t.Round) (hq : q < t.N)
    (hnf : t.hand.betstatus q ≠ .fold) (h0 : 0 ≤ chips) (hle : chips ≤ t.balances q) (hset : t'.Settled q) :
    t'.Round := by
  have hN : t'.N = t.N := by rw [N, hb.seats]
  have hfunds := h.funds q hq hnf
  have hgrow : t.hand.betsize ≤ t'.hand.betsize ∧ t.hand.bets q + chips ≤ t'.hand.betsize ∧ t'.hand.betsize < 2^63 := by
    rcases lt_or_ge t.hand.betsize (t.hand.bets q + chips) with hraise | hcall
    · rw [(hb.raised hraise).1]
      exact ⟨hraise.le, le_rfl, by omega⟩
    · rw [(hb.called hcall).1]
      exact ⟨le_rfl, hcall, h.fits⟩
  have hown : t'.hand.bets q = t.hand.bets q + chips := by rw [hb.bets, Function.update_self]
  have hother : ∀ j ≠ q, t'.hand.bets j = t.hand.bets j := fun j hj => by rw [hb.bets, Function.update_of_ne hj]
  refine ⟨?_, ⟨?_, ?_⟩, ?_, hgrow.2.2, hb.lastraise, ?_, ?_, ?_⟩
  · intro i hi
    rw [pangeaSlot, hb.seats]
    exact h.own i (hN ▸ hi)
  · intro j hj
    by_cases hjq : j = q
    · rw [hjq, hown]
      exact hgrow.2.1
    · rw [hother j hjq]
      exact (h.top.le j (hN ▸ hj)).trans hgrow.1
  · rw [hN]
    rcases lt_or_ge t.hand.betsize (t.hand.bets q + chips) with hraise | hcall
    · exact ⟨q, hq, hown.trans (hb.raised hraise).1.symm⟩
    · obtain ⟨j, hj, htop⟩ := h.top.attained
      refine ⟨j, hj, ?_⟩
      rw [(hb.called hcall).1]
      by_cases hjq : j = q
      · rw [hjq] at htop ⊢
        omega
      · rw [hother j hjq, htop]
  · intro j hj
    have hold := h.nonneg j (hN ▸ hj)
    by_cases hjq : j = q
    · rw [hjq] at hold ⊢
      omega
    · rwa [hother j hjq]
  · intro j hj hstat
    by_cases hjq : j = q
    · rw [hjq, hown, hb.balances, Function.update_self]
      omega
    · rw [hother j hjq, hb.balances, Function.update_of_ne hjq]
      exact h.funds j (hN ▸ hj) (hb.betstatus ▸ hstat)
  · rw [hb.undergun, hN]
    exact h.turn
  · rw [hN, hb.undergun]
    rcases lt_or_ge t.hand.betsize (t.hand.bets q + chips) with hraise | hcall
    · rw [(hb.raised hraise).2]
      exact passed_zero
    · refine h.passed.mono (hb.called hcall).2 fun s _ hs => ?_
      by_cases hsq : s = q
      · rw [hsq]
        exact hset
      · intro hlive
        rw [hother s hsq, (hb.called hcall).1]
        exact hs (hb.betstatus ▸ hlive)

theorem Round.betSeated (h : t.Round) (hlive : t.hand.betstatus q = .live) (bet : Int) : (t.betSeated q bet).Round := by
  unfold Table.betSeated
  split
  · exact h.setAllin hlive
  · exact h

private theorem betFolds_close (hne : action ≠ .allin) (hf : t.betFolds q bet action = false) :
    u64 t.hand.betsize ≤ t.betSum q (t.betClipped q bet) ∨ (t.betSeated q bet).hand.betstatus q = .allin := by
  by_cases hall : t.betAllin q bet = true
  · right
    rw [Table.betSeated, if_pos hall]
    exact Function.update_self q _ _
  · left
    have hact : t.betAction q bet action ≠ .allin := by
      rw [betAction, if_neg hall]
      split
      · exact Act.noConfusion
      · exact hne
    rw [betFolds, betShort, decide_eq_false_iff_not] at hf
    exact not_lt.mp fun hlt => hf ⟨hlt, hact⟩

private theorem betSeated_live (bet : Int) (hlive : t.hand.betstatus q = .live) : (t.betSeated q bet).hand.betstatus q ≠ .fold := by
  unfold Table.betSeated
  split
  · have hall : (t.setAllin q).hand.betstatus q = .allin := Function.update_self q _ _
    rw [hall]
    exact BetStatus.noConfusion
  · rw [hlive]
    exact BetStatus.noConfusion

/-- One bet, by whomever: the round goes on and the bettor is settled. -/
theorem pangeaBet_round (h : t.Round) (hq : q < t.N) (hne : action ≠ .allin)
    (hbet : t.hand.betstatus q = .live → 0 ≤ bet) :
    (t.pangeaBet q bet action).1.Round ∧ (t.pangeaBet q bet action).1.Settled q := by
  have hmod : q % t.N = q := Nat.mod_eq_of_lt hq
  apply pangeaBet_cases (motive := fun t' => t'.Round ∧ t'.Settled q)
  all_goals rw [hmod]
  case out => exact fun hlive => ⟨h, fun hstat => absurd hstat hlive⟩
  case folds =>
    intro _ _
    refine ⟨h.pangeaFold q, fun hstat => ?_⟩
    rw [pangeaFold_betstatus, Function.update_self] at hstat
    exact absurd hstat BetStatus.noConfusion
  case books =>
    intro hlive hf
    have hseat := h.betSeated hlive bet
    have hq' : q < (t.betSeated q bet).N := by rwa [N, betSeated_seats]
    have hbal : t.balance q = t.balances q := by rw [balance, h.own q hq]
    have hpos : 0 ≤ t.balance q := by
      rw [hbal]
      exact (h.funds q hq (by rw [hlive]; exact BetStatus.noConfusion)).1
    obtain ⟨h0, hle⟩ := betClipped_bounds t q bet hpos h.lastraise (hbet hlive)
    have hle' : t.betClipped q bet ≤ (t.betSeated q bet).balances q := by rwa [betSeated_balances, ← hbal]
    have hnf := betSeated_live bet hlive
    have hbook := bookBet_booked hseat hq' hnf h0 hle' (t.betAction q bet action)
    have hsum := hseat.betSum_eq hq' hnf h0 hle'
    have hclose : (t.betSeated q bet).hand.betsize ≤ (t.betSeated q bet).hand.bets q + t.betClipped q bet ∨
        (t.betSeated q bet).hand.betstatus q = .allin := by
      refine (betFolds_close hne hf).imp_left fun hreach => ?_
      have hword := h.betsize_word
      rw [← hsum, betSeated_betsize, ← hword]
      simpa only [betSum, betSeated_bets, Nat.cast_le] using hreach
    have hset := hbook.settled hclose
    exact ⟨hbook.round hseat hq' hnf h0 hle' hset, hset⟩

/-! ## Folds are final -/

/-- A status that may follow `a`: a player folds at any time and goes all in while he is live. -/
def Follows (a b : BetStatus) : Prop := b = a ∨ b = .fold ∨ a = .live

/-- The hand moves on: nobody gets up from a fold, the betting stays open. -/
structure Progress (t t' : Table) : Prop where
  seats : t'.seats = t.seats
  betstarted : t.hand.betstarted ≤ t'.hand.betstarted
  status : ∀ j, Follows (t.hand.betstatus j) (t'.hand.betstatus j)

theorem Progress.refl (t : Table) : Progress t t := ⟨rfl, le_rfl, fun _ => .inl rfl⟩

theorem Progress.trans {t t' t'' : Table} (h : Progress t t') (h' : Progress t' t'') : Progress t t'' := by
  refine ⟨h'.seats.trans h.seats, h.betstarted.trans h'.betstarted, fun j => ?_⟩
  rcases h'.status j with h2 | h2 | h2
  · rw [h2]
    exact h.status j
  · exact .inr (.inl h2)
  · rcases h.status j with h1 | h1 | h1
    · exact .inr (.inr (h1.symm.trans h2))
    · exact absurd (h1.symm.trans h2) BetStatus.noConfusion
    · exact .inr (.inr h1)

theorem progress_of_eq {t t' : Table} (hs : t'.seats = t.seats) (hb : t.hand.betstarted ≤ t'.hand.betstarted)
    (hst : t'.hand.betstatus = t.hand.betstatus) : Progress t t' :=
  ⟨hs, hb, fun j => .inl (by rw [hst])⟩

theorem pangeaFold_progress (t : Table) (q : Nat) : Progress t (t.pangeaFold q) := by
  refine ⟨rfl, le_rfl, fun j => ?_⟩
  exact (pangeaFold_status t q j).imp_right .inl

private theorem betSeated_progress (t : Table) {q : Nat} (hlive : t.hand.betstatus q = .live) (bet : Int) :
    Progress t (t.betSeated q bet) := by
  unfold Table.betSeated
  split
  · refine ⟨rfl, le_rfl, fun j => ?_⟩
    by_cases hj : j = q
    · rw [hj]
      exact .inr (.inr hlive)
    · exact .inl (Function.update_of_ne hj _ _)
  · exact .refl t

theorem pangeaBet_progress (t : Table) (player : Nat) (bet : Int) (action : Act) :
    Progress t (t.pangeaBet player bet action).1 := by
  apply pangeaBet_cases (motive := Progress t)
  case out => exact fun _ => .refl t
  case folds => exact fun _ _ => t.pangeaFold_progress _
  case books => exact fun hlive _ => (t.betSeated_progress hlive bet).trans (progress_of_eq rfl le_rfl rfl)

/-- With one player left the hand is over, whatever happens next. -/
theorem Progress.actives {t' : Table} (h : Progress t t') : t'.pangeaActives ≤ t.pangeaActives := by
  rw [pangeaActives, pangeaActives, N, N, h.seats]
  refine List.Sublist.length_le (List.monotone_filter_right _ fun j hj => ?_)
  simp only [decide_eq_true_eq] at hj ⊢
  intro hfold
  rcases h.status j with he | he | he
  · exact hj (he.trans hfold)
  · exact hj he
  · exact absurd (he.symm.trans hfold) BetStatus.noConfusion

end SuperNet.Games.Pangea.Table
