import SuperNet.Lib.Ledger
import SuperNet.Games.PangeaBet
import SuperNet.Games.PangeaPayout

/-! Chips of one pangea hand. They are counted as the code counts them, in 64-bit words: equality of
chip counts is equality modulo `2^64`. -/
namespace SuperNet.Games.Pangea.Table
open SuperNet.Lib.Words SuperNet.Lib.Runs SuperNet.Lib.Ledger

/-- The sum of the bets over the active players. -/
def pot (t : Table) : Int := total t.N t.hand.bets

def chips (t : Table) : Int := t.bank + t.pot

/-- The bet moves no chips, or moves them into a bet that the pot counts: the player is out, he folds,
his clipped bet is zero, or his slot is among the first `N`. -/
def BetSafe (t : Table) (player : Nat) (bet : Int) (action : Act) : Prop :=
  t.hand.betstatus (player % t.N) ≠ .live ∨ t.betFolds (player % t.N) bet action = true ∨
    t.betClipped (player % t.N) bet = 0 ∨ t.pangeaSlot (player % t.N) < t.N

/-- The round of the ante loop bets, and safely. -/
def AntePostSafe (t : Table) (i : Nat) : Prop :=
  i ≠ t.button → i ≠ u32 (t.button + 1) % t.N → t.ante ≤ u64 (t.balance i) → t.BetSafe i (i64 t.ante) .ante

def BlindsSafe (t : Table) : List Nat → Prop
  | small :: big :: _ =>
    t.BetSafe small (i64 (t.bigblind / 2 : Nat)) .smallblind ∧
      (t.antesSmallblind small).BetSafe big (i64 t.bigblind) .bigblind
  | _ => True

/-- Every bet that `pangea_antes` makes is safe. -/
def AntesSafe (t : Table) : Prop :=
  (t.ante ≠ 0 → ∀ k < t.N, AntePostSafe (rounds antesPost t.antesFunded k) k) ∧
    BlindsSafe t.antesSeated.1 t.antesSeated.2

/-- Chips and seating are the same, in words. -/
structure SameChips (t t' : Table) : Prop where
  seats : t'.seats = t.seats
  finished : t'.hand.finished = t.hand.finished
  chips : (t'.chips : Word) = t.chips

theorem SameChips.refl (t : Table) : SameChips t t := ⟨rfl, rfl, rfl⟩

theorem SameChips.trans {t t' t'' : Table} (h : SameChips t t') (h' : SameChips t' t'') : SameChips t t'' :=
  ⟨h'.seats.trans h.seats, h'.finished.trans h.finished, h'.chips.trans h.chips⟩

/-- A step that leaves balances and bets alone. -/
theorem sameChips_of_eq {t t' : Table} (hs : t'.seats = t.seats) (hf : t'.hand.finished = t.hand.finished)
    (hb : t'.balances = t.balances) (hd : t'.hand.bets = t.hand.bets) : SameChips t t' :=
  ⟨hs, hf, by simp only [Table.chips, bank, pot, N, hs, hb, hd]⟩

theorem pangeaBet_sameChips {t : Table} {player : Nat} {bet : Int} {action : Act}
    (h : t.BetSafe player bet action) : SameChips t (t.pangeaBet player bet action).1 := by
  have hopen := (pangeaBet_sameStage t player bet action).finished
  obtain ⟨hs, ⟨hb, hd⟩ | ⟨hlive, hf, hb, hd⟩⟩ := pangeaBet_chips t player bet action
  · exact sameChips_of_eq hs hopen hb hd
  · have hslot := t.seats.pangeaSlot_lt (Nat.mod_lt player t.seats.N_pos)
    have hbank : ((t.pangeaBet player bet action).1.bank : Word) =
        t.bank - t.betClipped (player % t.N) bet := by
      simp only [bank, hs, hb]
      rw [sub_eq_add_neg _ (t.betClipped _ _), balance, total_store 64 hslot, Int.cast_neg, sub_eq_add_neg]
    have hpot : ((t.pangeaBet player bet action).1.pot : Word) = t.pot + t.betClipped (player % t.N) bet := by
      simp only [pot, N, hs, hd]
      by_cases hn : t.pangeaSlot (player % t.N) < t.N
      · exact total_store 64 hn _
      · have hzero : t.betClipped (player % t.N) bet = 0 := by
          rcases h with h | h | h | h
          · exact absurd hlive h
          · exact absurd (hf.symm.trans h) Bool.false_ne_true
          · exact h
          · exact absurd h hn
        rw [total_update_of_le (not_lt.mp hn), hzero, Int.cast_zero, add_zero]
    refine ⟨hs, hopen, ?_⟩
    simp only [Table.chips, Int.cast_add]
    rw [hbank, hpot]
    ring

theorem pangeaFold_sameChips (t : Table) (player : Nat) : SameChips t (t.pangeaFold player) :=
  sameChips_of_eq rfl rfl rfl rfl

theorem antesFunded_sameChips (t : Table) : SameChips t t.antesFunded := by
  apply rounds_induct (motive := fun _ t' => SameChips t t')
  · exact sameChips_of_eq rfl rfl rfl rfl
  · intro k _ h
    refine h.trans ?_
    rw [antesBroke]
    split
    · exact pangeaFold_sameChips _ _
    · exact .refl _

theorem antesPost_sameChips {t : Table} {i : Nat} (h : t.AntePostSafe i) : SameChips t (t.antesPost i) := by
  rw [antesPost]
  split
  case isFalse => exact .refl t
  case isTrue hpost =>
    split
    · exact pangeaFold_sameChips t i
    · rename_i hfund
      exact pangeaBet_sameChips (h hpost.1 hpost.2 (not_lt.mp hfund))

theorem antesPosted_sameChips {t : Table}
    (h : t.ante ≠ 0 → ∀ k < t.N, AntePostSafe (rounds antesPost t.antesFunded k) k) :
    SameChips t t.antesPosted := by
  rw [antesPosted]
  split
  · rename_i hante
    exact rounds_induct (motive := fun _ t' => SameChips t t') t.N t.antesFunded_sameChips fun k hk ih => ih.trans (antesPost_sameChips (h hante k hk))
  · exact t.antesFunded_sameChips

theorem antesSeat_sameChips (acc : Table × List Nat) (i : Nat) : SameChips acc.1 (antesSeat acc i).1 := by
  simp only [antesSeat]
  split
  · exact .refl acc.1
  · exact pangeaFold_sameChips _ _

theorem antesBlinds_sameChips {t : Table} {actives : List Nat} (h : t.BlindsSafe actives) :
    SameChips t (t.antesBlinds actives) := by
  match actives, h with
  | [], _ => exact .refl t
  | [_], _ => exact .refl t
  | small :: big :: _, ⟨hsmall, hbig⟩ =>
    have hfirst := pangeaBet_sameChips hsmall
    have hbutton : SameChips t (t.antesSmallblind small) := ⟨hfirst.seats, hfirst.finished, hfirst.chips⟩
    exact hbutton.trans (pangeaBet_sameChips hbig)

theorem pangeaAntes_sameChips {t : Table} (h : t.AntesSafe) : SameChips t t.pangeaAntes := by
  have hseated : SameChips t t.antesSeated.1 :=
    rounds_induct (motive := fun _ (acc : Table × List Nat) => SameChips t acc.1) t.N (antesPosted_sameChips h.1)
      fun k _ ih => ih.trans (antesSeat_sameChips _ k)
  exact hseated.trans (antesBlinds_sameChips h.2)

inductive Op where
  | bet (player : Nat) (amount : Int) (action : Act)
  | antes

def apply (t : Table) : Op → Table
  | .bet player amount action => (t.pangeaBet player amount action).1
  | .antes => t.pangeaAntes

def run (t : Table) (ops : List Op) : Table := ops.foldl apply t

def OpSafe (t : Table) : Op → Prop
  | .bet player amount action => t.BetSafe player amount action
  | .antes => t.AntesSafe

/-- Every bet of the run is safe in the state in which it is made. -/
def RunSafe (t : Table) : List Op → Prop
  | [] => True
  | op :: ops => t.OpSafe op ∧ (t.apply op).RunSafe ops

/-- Some player who has not folded has chips in the pot, or there is nothing in it. -/
def PotLive (t : Table) : Prop := (t.contributors t.wordBets).Nonempty ∨ (t.pot : Word) = 0

theorem apply_sameChips {t : Table} {op : Op} (h : t.OpSafe op) : SameChips t (t.apply op) := by
  cases op with
  | bet player amount action => exact pangeaBet_sameChips h
  | antes => exact pangeaAntes_sameChips h

theorem run_sameChips (t : Table) (ops : List Op) (h : t.RunSafe ops) : SameChips t (t.run ops) := by
  induction ops generalizing t with
  | nil => exact .refl t
  | cons op ops ih => exact (apply_sameChips h.1).trans (ih (t.apply op) h.2)

private theorem antesPost_seats (t : Table) (i : Nat) : (t.antesPost i).seats = t.seats := by
  rw [antesPost]
  split_ifs
  · rfl
  · exact (pangeaBet_chips _ _ _ _).1
  · rfl

private theorem antesRounds_seats (t : Table) (k : Nat) : (rounds antesPost t.antesFunded k).seats = t.seats :=
  rounds_induct (motive := fun _ (t' : Table) => t'.seats = t.seats) k t.antesFunded_sameChips.seats
    fun _ _ ih => (antesPost_seats _ _).trans ih

private theorem antesSeated_seats (t : Table) : t.antesSeated.1.seats = t.seats := by
  have hposted : t.antesPosted.seats = t.seats := by
    rw [antesPosted]
    split
    · exact t.antesRounds_seats t.N
    · exact t.antesFunded_sameChips.seats
  exact rounds_induct (motive := fun _ (acc : Table × List Nat) => acc.1.seats = t.seats) t.N hposted
    fun k _ ih => (antesSeat_sameChips _ k).seats.trans ih

/-- Every player sits in one of the first `N` slots, in whatever order. -/
def SlotsCounted (s : Seating) : Prop := ∀ p < s.N, s.pangeaSlot p < s.N

instance (s : Seating) : Decidable (SlotsCounted s) :=
  inferInstanceAs (Decidable (∀ p < s.N, s.pangeaSlot p < s.N))

theorem betSafe_of_slots {t : Table} (h : SlotsCounted t.seats) (player : Nat) (bet : Int) (action : Act) :
    t.BetSafe player bet action :=
  .inr (.inr (.inr (h _ (Nat.mod_lt player t.seats.N_pos))))

theorem antesSafe_of_slots {t : Table} (h : SlotsCounted t.seats) : t.AntesSafe := by
  refine ⟨fun _ k _ _ _ _ => betSafe_of_slots ?_ _ _ _, ?_⟩
  · rw [antesRounds_seats]
    exact h
  · have hseats : SlotsCounted t.antesSeated.1.seats := by
      rw [antesSeated_seats]
      exact h
    unfold BlindsSafe
    split
    · refine ⟨betSafe_of_slots hseats _ _ _, betSafe_of_slots ?_ _ _ _⟩
      rw [antesSmallblind, (pangeaBet_chips _ _ _ _).1]
      exact hseats
    · trivial

theorem runSafe_of_slots (t : Table) (ops : List Op) (h : SlotsCounted t.seats) : t.RunSafe ops := by
  induction ops generalizing t with
  | nil => trivial
  | cons op ops ih =>
    have hop : t.OpSafe op := by
      cases op with
      | bet player amount action => exact betSafe_of_slots h player amount action
      | antes => exact antesSafe_of_slots h
    refine ⟨hop, ih (t.apply op) ?_⟩
    rw [(apply_sameChips hop).seats]
    exact h

theorem wordBets_total (t : Table) : (t.potTotal t.wordBets : Word) = t.pot := by
  simp only [potTotal, wordBets, pot, total, Nat.cast_sum, Int.cast_sum, unsigned_cast]

/-- The balances and what the finished hand recorded as rakes. -/
def settled (t : Table) : Int := t.bank + t.hand.hostrake + t.hand.pangearake

theorem settled_pangeaFinish {t : Table} (hopen : t.hand.finished = false) :
    t.pangeaFinish.settled =
      t.finishPayout.table.bank + i64 t.finishPayout.rake + i64 t.finishPayout.pangearake := by
  rw [pangeaFinish, hopen, if_neg Bool.false_ne_true]
  simp only [settled, finishRecords, pangeaSummary, bank]

theorem pangeaFinish_settled {t : Table} (hopen : t.hand.finished = false) (h : t.PotLive) :
    (t.pangeaFinish.settled : Word) = t.chips := by
  have hrecords : (t.pangeaFinish.settled : Word) = t.finishPayout.held := by
    rw [settled_pangeaFinish hopen, Payout.held]
    push_cast [signed_cast]
    rfl
  rw [hrecords, chips, Int.cast_add]
  rcases Finset.eq_empty_or_nonempty (t.contributors t.wordBets) with hnone | hsome
  · have hzero : (t.pot : Word) = 0 := h.resolve_left (Finset.not_nonempty_iff_eq_empty.mpr hnone)
    rw [finishPayout_abandoned hnone, hzero]
    simp [Payout.held]
  · rw [(finishPayout_paidOut hsome).words, wordBets_total]
    simp [Payout.held]

end SuperNet.Games.Pangea.Table
