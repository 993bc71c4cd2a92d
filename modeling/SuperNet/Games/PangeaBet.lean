import SuperNet.Games.Pangea

/-! What one call of `pangea_fold` and `pangea_bet` can do to the table. -/
namespace SuperNet.Games.Pangea.Table
open SuperNet.Lib.Words

variable (t : Table) (player : Nat) (bet : Int) (action : Act)

@[simp] theorem pangeaFold_seats : (t.pangeaFold player).seats = t.seats := rfl
@[simp] theorem pangeaFold_balances : (t.pangeaFold player).balances = t.balances := rfl
@[simp] theorem pangeaFold_bets : (t.pangeaFold player).hand.bets = t.hand.bets := rfl
@[simp] theorem pangeaFold_betsize : (t.pangeaFold player).hand.betsize = t.hand.betsize := rfl
@[simp] theorem pangeaFold_lastraise : (t.pangeaFold player).hand.lastraise = t.hand.lastraise := rfl
@[simp] theorem pangeaFold_numactions : (t.pangeaFold player).hand.numactions = t.hand.numactions := rfl
@[simp] theorem pangeaFold_undergun : (t.pangeaFold player).hand.undergun = t.hand.undergun := rfl
@[simp] theorem pangeaFold_finished : (t.pangeaFold player).hand.finished = t.hand.finished := rfl
@[simp] theorem pangeaFold_betstatus :
    (t.pangeaFold player).hand.betstatus = Function.update t.hand.betstatus player .fold := rfl

@[simp] theorem setAllin_seats : (t.setAllin player).seats = t.seats := rfl
@[simp] theorem setAllin_balances : (t.setAllin player).balances = t.balances := rfl
@[simp] theorem setAllin_bets : (t.setAllin player).hand.bets = t.hand.bets := rfl

/-- The call folds the player: his bet is neither all in nor up to the bet size. -/
def betFolds : Bool := t.betShort player (t.betClipped player bet) (t.betAction player bet action)

/-- The status of the player after a bet that stands. -/
def betSeated : Table := if t.betAllin player bet then t.setAllin player else t

@[simp] theorem betSeated_seats : (t.betSeated player bet).seats = t.seats := by
  unfold betSeated; split <;> rfl

@[simp] theorem betSeated_balances : (t.betSeated player bet).balances = t.balances := by
  unfold betSeated; split <;> rfl

@[simp] theorem betSeated_bets : (t.betSeated player bet).hand.bets = t.hand.bets := by
  unfold betSeated; split <;> rfl

@[simp] theorem betSeated_betsize : (t.betSeated player bet).hand.betsize = t.hand.betsize := by
  unfold betSeated; split <;> rfl

theorem betAction_allin (h : t.betAllin player bet = true) : t.betAction player bet action = .allin := by
  rw [betAction, if_pos h]

theorem betFolds_not_allin (h : t.betFolds player bet action = true) : t.betAllin player bet = false := by
  by_contra hall
  rw [betFolds, betAction_allin _ _ _ _ (by simpa using hall)] at h
  simp [betShort] at h

/-- A player who has folded or is all in changes nothing by betting. -/
theorem pangeaBet_out (h : t.hand.betstatus (player % t.N) ≠ .live) : (t.pangeaBet player bet action).1 = t := by
  unfold pangeaBet
  cases hs : t.hand.betstatus (player % t.N) with
  | live => exact absurd hs h
  | fold => simp only [hs]
  | allin => simp only [hs]

theorem pangeaBet_folds (hlive : t.hand.betstatus (player % t.N) = .live)
    (h : t.betFolds (player % t.N) bet action = true) :
    (t.pangeaBet player bet action).1 = t.pangeaFold (player % t.N) := by
  have hall := betFolds_not_allin _ _ _ _ h
  rw [betFolds] at h
  simp [pangeaBet, hlive, hall, h]

theorem pangeaBet_books (hlive : t.hand.betstatus (player % t.N) = .live)
    (h : t.betFolds (player % t.N) bet action = false) :
    t.pangeaBet player bet action = (t.betSeated (player % t.N) bet).bookBet (player % t.N)
      (t.betClipped (player % t.N) bet) (t.betAction (player % t.N) bet action) := by
  have hshort : (t.betSeated (player % t.N) bet).betShort (player % t.N) (t.betClipped (player % t.N) bet)
      (t.betAction (player % t.N) bet action) = false := by
    rw [← h]
    unfold betSeated
    split <;> rfl
  unfold betSeated at hshort ⊢
  simp only [pangeaBet, hlive]
  rw [hshort, if_neg Bool.false_ne_true]

/-- A bet does nothing, folds the hand of the player or is booked. -/
theorem pangeaBet_cases {motive : Table → Prop} (out : t.hand.betstatus (player % t.N) ≠ .live → motive t)
    (folds : t.hand.betstatus (player % t.N) = .live → t.betFolds (player % t.N) bet action = true →
      motive (t.pangeaFold (player % t.N)))
    (books : t.hand.betstatus (player % t.N) = .live → t.betFolds (player % t.N) bet action = false →
      motive ((t.betSeated (player % t.N) bet).bookBet (player % t.N) (t.betClipped (player % t.N) bet)
        (t.betAction (player % t.N) bet action)).1) : motive (t.pangeaBet player bet action).1 := by
  by_cases hlive : t.hand.betstatus (player % t.N) = .live
  · cases hf : t.betFolds (player % t.N) bet action with
    | true =>
      rw [pangeaBet_folds _ _ _ _ hlive hf]
      exact folds hlive hf
    | false =>
      rw [pangeaBet_books _ _ _ _ hlive hf]
      exact books hlive hf
  · rw [pangeaBet_out _ _ _ _ hlive]
    exact out hlive

theorem betClipped_bounds (hbal : 0 ≤ t.balance player) (hlast : 0 ≤ t.hand.lastraise) (hbet : 0 ≤ bet) :
    0 ≤ t.betClipped player bet ∧ t.betClipped player bet ≤ t.balance player := by
  simp only [betClipped, betAllin, betClip, decide_eq_true_eq]
  split_ifs <;> omega

@[simp] theorem bookBet_seats : (t.bookBet player bet action).1.seats = t.seats := rfl

theorem bookBet_balances : (t.bookBet player bet action).1.balances =
    Function.update t.balances (t.pangeaSlot player) (i64 (t.balance player - bet)) := rfl

theorem bookBet_bets : (t.bookBet player bet action).1.hand.bets =
    Function.update t.hand.bets (t.pangeaSlot player) (i64 (t.hand.bets (t.pangeaSlot player) + bet)) := rfl

theorem bookBet_betsize : (t.bookBet player bet action).1.hand.betsize =
    if t.betOver player bet then i64 (t.betSum player bet) else t.hand.betsize := rfl

theorem bookBet_numactions : (t.bookBet player bet action).1.hand.numactions =
    if t.betFull bet ∨ t.betOver player bet then 0 else t.hand.numactions := rfl

theorem bookBet_lastraise : (t.bookBet player bet action).1.hand.lastraise = t.hand.lastraise ∨
    (t.bookBet player bet action).1.hand.lastraise = bet ∨
    (t.bookBet player bet action).1.hand.lastraise = i64 (t.betSum player bet) := by
  simp only [bookBet, raiseHand]
  split_ifs <;> simp only [true_or, or_true]

/-- What betting leaves alone: the turn, the state of the hand and the stakes of the table. -/
structure SameStage (t t' : Table) : Prop where
  finished : t'.hand.finished = t.hand.finished
  betstarted : t'.hand.betstarted = t.hand.betstarted
  undergun : t'.hand.undergun = t.hand.undergun
  bigblind : t'.bigblind = t.bigblind
  ante : t'.ante = t.ante

theorem pangeaBet_sameStage : SameStage t (t.pangeaBet player bet action).1 := by
  apply pangeaBet_cases (motive := SameStage t)
  case out => exact fun _ => ⟨rfl, rfl, rfl, rfl, rfl⟩
  case folds => exact fun _ _ => ⟨rfl, rfl, rfl, rfl, rfl⟩
  case books =>
    intro _ _
    unfold betSeated
    split <;> exact ⟨rfl, rfl, rfl, rfl, rfl⟩

/-- Everything a bet does to the chips: nothing, or the clipped bet moves from the balance of the
player's slot to the bets of that slot. -/
theorem pangeaBet_chips : (t.pangeaBet player bet action).1.seats = t.seats ∧
    (((t.pangeaBet player bet action).1.balances = t.balances ∧
        (t.pangeaBet player bet action).1.hand.bets = t.hand.bets) ∨
      t.hand.betstatus (player % t.N) = .live ∧ t.betFolds (player % t.N) bet action = false ∧
        (t.pangeaBet player bet action).1.balances = Function.update t.balances (t.pangeaSlot (player % t.N))
          (i64 (t.balance (player % t.N) - t.betClipped (player % t.N) bet)) ∧
        (t.pangeaBet player bet action).1.hand.bets = Function.update t.hand.bets (t.pangeaSlot (player % t.N))
          (i64 (t.hand.bets (t.pangeaSlot (player % t.N)) + t.betClipped (player % t.N) bet))) := by
  by_cases hlive : t.hand.betstatus (player % t.N) = .live
  · cases hf : t.betFolds (player % t.N) bet action with
    | true =>
      rw [pangeaBet_folds _ _ _ _ hlive hf]
      exact ⟨rfl, .inl ⟨rfl, rfl⟩⟩
    | false =>
      rw [pangeaBet_books _ _ _ _ hlive hf]
      refine ⟨by simp, .inr ⟨hlive, rfl, ?_, ?_⟩⟩
      · simp [bookBet_balances, balance, pangeaSlot]
      · simp [bookBet_bets, pangeaSlot]
  · rw [pangeaBet_out _ _ _ _ hlive]
    exact ⟨rfl, .inl ⟨rfl, rfl⟩⟩

/-- A balance that is not negative exceeds the second threshold only if the big blind is a positive
signed word. -/
theorem bigblind_of_threshold {j : Nat} (hfund : t.antesThreshold 1 < u64 (t.balance j))
    (hword : (u64 (t.balance j) : Int) < 2^63) : t.bigblind < 2^63 := by
  have hthreshold : t.antesThreshold 1 = u64 ((t.bigblind : Int) - 1) := rfl
  rw [hthreshold] at hfund
  by_contra hbig
  have hlt := t.bigblind_lt
  have hblind : (u64 ((t.bigblind : Int) - 1) : Int) = t.bigblind - 1 := unsigned_of_bounds (by omega) (by omega)
  omega

end SuperNet.Games.Pangea.Table
