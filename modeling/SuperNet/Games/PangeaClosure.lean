import SuperNet.Games.PangeaAntes
import SuperNet.Games.PangeaPayout

/-! Closure of the betting rounds: when the host deals the next street or asks for the showdown, every
player still betting has matched the bet size. -/
namespace SuperNet.Games.Pangea.Table
open SuperNet.Lib.Words SuperNet.Lib.Runs SuperNet.Lib.Rotation

variable {t : Table}

/-! ## Antes and blinds -/

/-- A new hand of which the first `k` players have been looked at: those without funds have folded. -/
structure Opening (t : Table) (k : Nat) : Prop where
  own : ∀ i < t.N, t.pangeaSlot i = i
  bets : ∀ j < t.N, t.hand.bets j = 0
  betsize : t.hand.betsize = 0
  lastraise : t.hand.lastraise = 0
  numactions : t.hand.numactions = 0
  turn : t.hand.undergun < t.N
  fits : ∀ j < t.N, t.balances j < 2^63
  broke : ∀ j < k, t.balances j ≤ 0 → t.hand.betstatus j = .fold

theorem Opening.antesBroke {k : Nat} (h : t.Opening k) (hk : k < t.N) : (t.antesBroke k).Opening (k + 1) := by
  have hbal : t.balance k = t.balances k := by rw [balance, h.own k hk]
  rw [Table.antesBroke, hbal]
  split
  case isTrue =>
    refine ⟨h.own, h.bets, h.betsize, h.lastraise, h.numactions, h.turn, h.fits, fun j hj hbroke => ?_⟩
    rw [pangeaFold_betstatus]
    by_cases hjk : j = k
    · rw [hjk, Function.update_self]
    · rw [Function.update_of_ne hjk]
      exact h.broke j (by omega) hbroke
  case isFalse hfunded =>
    refine ⟨h.own, h.bets, h.betsize, h.lastraise, h.numactions, h.turn, h.fits, fun j hj hbroke => ?_⟩
    rcases Nat.lt_succ_iff_lt_or_eq.mp hj with hj | rfl
    · exact h.broke j hj hbroke
    · exact absurd hbroke hfunded

theorem Opening.round {k : Nat} (h : t.Opening k) (hk : k = t.N) : t.Round := by
  subst hk
  refine ⟨h.own, ⟨fun j hj => ?_, 0, t.seats.N_pos, ?_⟩, fun j hj => ?_, ?_, ?_, fun j hj hstat => ?_, h.turn, ?_⟩
  · rw [h.bets j hj, h.betsize]
  · rw [h.bets 0 t.seats.N_pos, h.betsize]
  · rw [h.bets j hj]
  · rw [h.betsize]
    norm_num
  · rw [h.lastraise]
  · have hfunded : 0 < t.balances j := not_le.mp fun hbroke => hstat (h.broke j hj hbroke)
    rw [h.bets j hj, zero_add]
    exact ⟨hfunded.le, h.fits j hj⟩
  · rw [h.numactions]
    exact passed_zero

/-- The first loop of the antes turns a new hand into a round. -/
theorem Opening.antesFunded (h : t.Opening 0) : t.antesFunded.Round ∧ t.antesFunded.seats = t.seats := by
  have hloop : (rounds Table.antesBroke t.antesSnapshot t.N).Opening t.N ∧
      (rounds Table.antesBroke t.antesSnapshot t.N).seats = t.seats := by
    refine rounds_induct (motive := fun k (t' : Table) => t'.Opening k ∧ t'.seats = t.seats) t.N
      ⟨⟨h.own, h.bets, h.betsize, h.lastraise, h.numactions, h.turn, h.fits, h.broke⟩, rfl⟩ fun k hk ih => ?_
    refine ⟨ih.1.antesBroke (by rw [N, ih.2]; exact hk), ?_⟩
    rw [Table.antesBroke]
    split
    · exact ih.2
    · exact ih.2
  have hN : t.N = (rounds Table.antesBroke t.antesSnapshot t.N).N := by rw [N, N, hloop.2]
  exact ⟨hloop.1.round hN, hloop.2⟩

theorem Round.antesFunded (h : t.Round) : t.antesFunded.Round ∧ t.antesFunded.seats = t.seats := by
  refine rounds_induct (motive := fun _ (t' : Table) => t'.Round ∧ t'.seats = t.seats) t.N
    ⟨h.of_sameBets ⟨rfl, rfl, rfl, rfl, rfl⟩ (fun _ => .inl rfl) h.turn h.passed, rfl⟩ fun k _ ih => ?_
  rw [antesBroke]
  split
  · exact ⟨ih.1.pangeaFold k, ih.2⟩
  · exact ih

theorem Round.balance_eq (h : t.Round) {i : Nat} (hi : i < t.N) : t.balance i = t.balances i := by
  rw [balance, h.own i hi]

/-- The funds of a player who can still bet, as a word. -/
theorem Round.live_funds (h : t.Round) {i : Nat} (hi : i < t.N) (hlive : t.hand.betstatus i = .live) :
    (u64 (t.balance i) : Int) < 2^63 := by
  have hfunds := h.funds i hi (by rw [hlive]; exact BetStatus.noConfusion)
  have hbets := h.nonneg i hi
  rw [h.balance_eq hi, unsigned_of_bounds hfunds.1 (by omega)]
  omega

theorem round_betInvariant : BetInvariant Round where
  fold q h := h.pangeaFold q
  bet h hq hne hbet := (pangeaBet_round h hq hne hbet).1
  button _ h := h.of_sameBets ⟨rfl, rfl, rfl, rfl, rfl⟩ (fun _ => .inl rfl) h.turn h.passed
  covered h hi hlive := h.live_funds hi hlive

theorem Opening.pangeaAntes (h : t.Opening 0) : t.pangeaAntes.Round :=
  round_betInvariant.pangeaAntes h.antesFunded.1 h.antesFunded.2

theorem Round.pangeaAntes (h : t.Round) : t.pangeaAntes.Round :=
  round_betInvariant.pangeaAntes h.antesFunded.1 h.antesFunded.2

theorem pangeaAntes_progress (t : Table) : Progress t t.pangeaAntes :=
  pangeaAntes_keeps (I := Progress t) (fun _ q ih => ih.trans (pangeaFold_progress _ q))
    (fun _ q bet action ih => ih.trans (pangeaBet_progress _ q bet action))
    (fun _ _ ih => ih.trans (progress_of_eq rfl le_rfl rfl)) (progress_of_eq rfl le_rfl rfl)

/-! ## Actions and streets -/

/-- Nobody is left to bet against. -/
def Dead (t : Table) : Prop := t.hand.betstarted ≠ 0 ∧ t.pangeaActives ≤ 1

theorem Dead.pangeaLastman (h : t.Dead) : t.pangeaLastman = (t.pangeaFinish, true) := if_pos h

theorem pangeaLastman_of_not_dead (h : ¬ t.Dead) : t.pangeaLastman = (t, false) := if_neg h

theorem Dead.progress {t' : Table} (h : t.Dead) (hp : Progress t t') : t'.Dead :=
  ⟨(Nat.pos_of_ne_zero h.1).trans_le hp.betstarted |>.ne', hp.actives.trans h.2⟩

theorem pangeaFinish_progress (t : Table) : Progress t t.pangeaFinish := by
  rw [pangeaFinish]
  split
  · exact .refl t
  · have hpay : Progress t t.finishPayout.table := by
      rcases Finset.eq_empty_or_nonempty (t.contributors t.wordBets) with hnone | hsome
      · rw [finishPayout_abandoned hnone]
        exact .refl t
      · have hpaid := finishPayout_paidOut hsome
        exact progress_of_eq hpaid.seats hpaid.betstarted.ge hpaid.betstatus
    refine hpay.trans (progress_of_eq ?_ ?_ ?_)
    · rfl
    · rw [finishRecords_hand]
    · rw [finishRecords_hand]

private theorem u8_le (n : Nat) : u8 ((n : Int) + 1) ≤ n + 1 := by
  rw [← Nat.cast_succ, u8, unsigned_natCast]
  exact Nat.mod_le _ _

private theorem settled_of_isOut {s : Nat} (h : t.isOut s = true) : t.Settled s := by
  intro hlive
  simp [isOut, hlive] at h

/-- The host's loop changes the marks of players who are out and the count of actions. -/
structure Skipped (t t' : Table) : Prop where
  same : SameBets t t'
  betstatus : t'.hand.betstatus = t.hand.betstatus
  betstarted : t'.hand.betstarted = t.hand.betstarted

private theorem skipOut_skipped (n i j : Nat) (t : Table) : Skipped t (skipOut n i j t).1 := by
  obtain ⟨_, _, h⟩ := skipOut_updates n i j t
  rw [h]
  exact ⟨⟨rfl, rfl, rfl, rfl, rfl⟩, rfl, rfl⟩

private theorem skipOut_passed (n i j : Nat) (t : Table) (hi : i + n = t.N)
    (hout : ∀ k < i, t.isOut ((t.hand.undergun + k) % t.N) = true) (hj : j < t.N)
    (hpass : Passed t.N t.Settled (t.hand.undergun + i) t.hand.numactions) :
    (skipOut n i j t).2 < t.N ∧ Passed t.N t.Settled (skipOut n i j t).2 (skipOut n i j t).1.hand.numactions := by
  induction n generalizing i j t with
  | zero =>
    refine ⟨hj, passed_of_forall fun s hs => ?_⟩
    obtain ⟨k, hk, hseat⟩ := exists_round t.hand.undergun hs
    have hnow := hout k (by omega)
    rw [hseat] at hnow
    exact settled_of_isOut hnow
  | succ n ih =>
    have hlt : (t.hand.undergun + i) % t.N < t.N := Nat.mod_lt _ t.seats.N_pos
    rw [skipOut]
    split
    case isTrue hnow =>
      have hpass' := (hpass.advance (settled_of_isOut hnow)).mono (u8_le t.hand.numactions) fun _ _ hs => hs
      have hout' : ∀ k < i + 1, t.isOut ((t.hand.undergun + k) % t.N) = true := by
        intro k hk
        rcases Nat.lt_succ_iff_lt_or_eq.mp hk with hk | rfl
        · exact hout k hk
        · exact hnow
      have hi' : i + 1 + n = t.N := by omega
      exact ih (i + 1) ((t.hand.undergun + i) % t.N) (t.updateHand fun hand => { hand with
        actions := Function.update hand.actions ((t.hand.undergun + i) % t.N) (hand.betstatus ((t.hand.undergun + i) % t.N)).code
        numactions := u8 (hand.numactions + 1) }) hi' hout' hlt hpass'
    case isFalse =>
      exact ⟨hlt, hpass.congr (Nat.mod_modEq _ _)⟩

/-- Every player who is neither folded nor all in has bet the bet size, the largest of the bets. -/
structure Closed (t : Table) : Prop where
  matched : ∀ j < t.N, t.hand.betstatus j ≠ .fold → t.hand.betstatus j ≠ .allin → t.hand.bets j = t.hand.betsize
  top : t.TopBet

private theorem Round.closed (h : t.Round) (hall : ∀ s < t.N, t.Settled s) : t.Closed := by
  refine ⟨fun j hj hnf hna => hall j hj ?_, h.top⟩
  cases hs : t.hand.betstatus j with
  | live => rfl
  | fold => exact absurd hs hnf
  | allin => exact absurd hs hna

/-- The outcomes by which `pangea_action` leaves the betting round. -/
def Outcome.EndsRound : Outcome → Prop
  | .decoded _ _ => True
  | .showdown _ => True
  | _ => False

private theorem showdownFirst_lt (t : Table) : t.showdownFirst < t.N := by
  rw [showdownFirst]
  cases hfind : ((List.range t.N).map fun i => u32 (t.hand.lastbettor + i) % t.N).find? (fun j => ¬ t.folded j) with
  | none => exact Nat.mod_lt _ t.seats.N_pos
  | some j =>
    obtain ⟨i, -, rfl⟩ := List.mem_map.mp (List.mem_of_find?_eq_some hfind)
    exact Nat.mod_lt _ t.seats.N_pos

private theorem nextStreet_round (h : t.Round) (hall : ∀ s < t.N, t.Settled s) :
    t.nextStreet.1.Round ∧ t.nextStreet.1.Closed ∧ Progress t t.nextStreet.1 := by
  have hfirst := t.showdownFirst_lt
  rw [nextStreet]
  split
  · exact ⟨h, h.closed hall, .refl t⟩
  · exact ⟨h, h.closed hall, .refl t⟩
  · exact ⟨h, h.closed hall, .refl t⟩
  · have hround : (t.updateHand fun hand => { hand with undergun := t.showdownFirst }).Round :=
      h.of_sameBets ⟨rfl, rfl, rfl, rfl, rfl⟩ (fun _ => .inl rfl) hfirst (passed_of_forall hall)
    exact ⟨hround, hround.closed hall, progress_of_eq rfl le_rfl rfl⟩

theorem hostAction_round (h : t.Round) :
    t.hostAction.1.Round ∧ (t.hostAction.2.EndsRound → t.hostAction.1.Closed) ∧ Progress t t.hostAction.1 := by
  have hsk := skipOut_skipped t.N 0 0 t
  obtain ⟨hj, hpass⟩ := skipOut_passed t.N 0 0 t (Nat.zero_add _) (fun k hk => absurd hk (Nat.not_lt_zero k))
    t.seats.N_pos h.passed
  rw [hostAction]
  generalize hskip : skipOut t.N 0 0 t = skipped at hsk hj hpass
  obtain ⟨t', j⟩ := skipped
  dsimp only at hsk hj hpass ⊢
  have hround : (t'.updateHand fun hand => { hand with undergun := j }).Round := by
    refine h.of_sameBets ⟨hsk.same.seats, hsk.same.balances, hsk.same.bets, hsk.same.betsize, hsk.same.lastraise⟩
      (fun s => .inl ?_) hj hpass
    exact congrFun hsk.betstatus s
  have hprog : Progress t (t'.updateHand fun hand => { hand with undergun := j }) :=
    progress_of_eq hsk.same.seats hsk.betstarted.ge hsk.betstatus
  split
  · exact ⟨hround, False.elim, hprog⟩
  · rename_i hmany
    obtain ⟨h1, h2, h3⟩ := nextStreet_round hround (hround.passed.all (not_lt.mp hmany))
    exact ⟨h1, fun _ => h2, hprog.trans h3⟩

theorem actionBet_round (h : t.Round) {p : Nat} (hp : p = t.hand.undergun) (action : Int) {amount : Nat}
    (hamount : amount < 2^62) : (t.actionBet p action amount).Round ∧ Progress t (t.actionBet p action amount) := by
  have hsmall : i64 amount = amount := signed_of_bounds (by omega) (by omega)
  have hpos : 0 ≤ i64 amount := by
    rw [hsmall]
    exact Int.natCast_nonneg _
  have hturn : p < t.N := by
    rw [hp]
    exact h.turn
  have hbet : (t.pangeaBet p (i64 amount) .check).1.Round ∧ (t.pangeaBet p (i64 amount) .check).1.Settled p :=
    pangeaBet_round h hturn Act.noConfusion fun _ => hpos
  have hprog := t.pangeaBet_progress p (i64 amount) .check
  have hstage := pangeaBet_sameStage t p (i64 amount) .check
  have hN : (t.pangeaBet p (i64 amount) .check).1.N = t.N := by rw [N, hprog.seats]
  have hsettled : (t.pangeaBet p (i64 amount) .check).1.Settled
      ((t.pangeaBet p (i64 amount) .check).1.hand.undergun % (t.pangeaBet p (i64 amount) .check).1.N) := by
    rw [hN, hstage.undergun, ← hp, Nat.mod_eq_of_lt hturn]
    exact hbet.2
  have hpass := (hbet.1.passed.advance hsettled).mono (u8_le _) fun _ _ hs => hs
  refine ⟨hbet.1.of_sameBets ⟨rfl, rfl, rfl, rfl, rfl⟩ (fun _ => .inl rfl) ?_ (hpass.congr ?_),
    hprog.trans (progress_of_eq rfl le_rfl rfl)⟩
  · rw [hN]
    exact Nat.mod_lt _ t.seats.N_pos
  · rw [hN]
    exact Nat.mod_modEq _ _

/-- One action message at the host keeps the round, or the hand is over; if it ends the round, the
round is closed. -/
theorem pangeaAction_round (h : t.Dead ∨ t.Round) (p : Nat) (action : Int) {amount : Nat} (hamount : amount < 2^62) :
    ((pangeaAction true t p action amount).1.Dead ∨ (pangeaAction true t p action amount).1.Round) ∧
      ((pangeaAction true t p action amount).2.EndsRound → (pangeaAction true t p action amount).1.Closed) := by
  rw [pangeaAction]
  split
  case isTrue => exact ⟨h, False.elim⟩
  case isFalse hturn =>
    have hp : p = t.hand.undergun := not_not.mp hturn
    by_cases hlast : (t.actionBet p action amount).Dead
    · have hfinish := hlast.progress (pangeaFinish_progress _)
      rw [hlast.pangeaLastman]
      exact ⟨.inl hfinish, False.elim⟩
    · have hround : t.Round := by
        refine h.resolve_left fun hdead => hlast (hdead.progress ?_)
        exact (t.pangeaBet_progress p (i64 amount) .check).trans (progress_of_eq rfl le_rfl rfl)
      obtain ⟨h1, h2, -⟩ := hostAction_round (actionBet_round hround hp action hamount).1
      rw [pangeaLastman_of_not_dead hlast]
      exact ⟨.inr h1, h2⟩

/-! ## Whole hands -/

/-- What the host processes during a hand: the start of a betting round, decoded community cards, an
action message. -/
inductive HostEvent where
  | startbets (cardi : Nat)
  | cards (community : Nat → Nat)
  | action (senderind : Nat) (action : Int) (amount : Nat)

def hostStep (t : Table) : HostEvent → Table
  | .startbets cardi => t.pangeaStartbets cardi
  | .cards community => t.updateHand fun hand => { hand with community := community }
  | .action senderind action amount => (pangeaAction true t senderind action amount).1

/-- The amounts of the action messages are below `2^62`. -/
def HostEvent.Small : HostEvent → Prop
  | .action _ _ amount => amount < 2^62
  | _ => True

theorem pangeaCheckantes_round (h : t.Round) : t.pangeaCheckantes.Round := by
  rw [pangeaCheckantes]
  split
  · exact h.pangeaAntes
  · exact h

theorem pangeaCheckantes_progress (t : Table) : Progress t t.pangeaCheckantes := by
  rw [pangeaCheckantes]
  split
  · exact t.pangeaAntes_progress
  · exact .refl t

private theorem pangeaStartbets_round (h : t.Round) (cardi : Nat) : (t.pangeaStartbets cardi).Round := by
  have hreset : (t.startbetsReset cardi).Round :=
    h.of_sameBets ⟨rfl, rfl, rfl, rfl, rfl⟩ (fun _ => .inl rfl) (Nat.mod_lt _ t.seats.N_pos) passed_zero
  have hfunds : ((t.startbetsReset cardi).startbetsFunds cardi).Round := by
    rw [startbetsFunds]
    split
    · exact hreset.of_sameBets ⟨rfl, rfl, rfl, rfl, rfl⟩ (fun _ => .inl rfl) hreset.turn hreset.passed
    · exact pangeaCheckantes_round hreset
  exact hfunds.of_sameBets ⟨rfl, rfl, rfl, rfl, rfl⟩ (fun _ => .inl rfl) hfunds.turn hfunds.passed

private theorem pangeaStartbets_progress (t : Table) (cardi : Nat) : Progress t (t.pangeaStartbets cardi) := by
  have hreset : Progress t (t.startbetsReset cardi) := progress_of_eq rfl (Nat.le_succ _) rfl
  have hfunds : Progress t ((t.startbetsReset cardi).startbetsFunds cardi) := by
    rw [startbetsFunds]
    split
    · exact hreset.trans (progress_of_eq rfl le_rfl rfl)
    · exact hreset.trans (pangeaCheckantes_progress _)
  exact hfunds.trans (progress_of_eq rfl le_rfl rfl)

theorem hostStep_round (h : t.Dead ∨ t.Round) {event : HostEvent} (hsmall : event.Small) :
    (t.hostStep event).Dead ∨ (t.hostStep event).Round := by
  cases event with
  | startbets cardi =>
    rcases h with h | h
    · exact .inl (h.progress (t.pangeaStartbets_progress cardi))
    · exact .inr (pangeaStartbets_round h cardi)
  | cards community =>
    rcases h with h | h
    · exact .inl h
    · exact .inr (h.of_sameBets ⟨rfl, rfl, rfl, rfl, rfl⟩ (fun _ => .inl rfl) h.turn h.passed)
  | action senderind action amount => exact (pangeaAction_round h senderind action hsmall).1

theorem hostRun_round (events : List HostEvent) (t : Table) (h : t.Dead ∨ t.Round) (hsmall : ∀ e ∈ events, e.Small) :
    (events.foldl hostStep t).Dead ∨ (events.foldl hostStep t).Round := by
  induction events generalizing t with
  | nil => exact h
  | cons event events ih =>
    exact ih _ (hostStep_round h (hsmall event List.mem_cons_self)) fun e he => hsmall e (List.mem_cons_of_mem _ he)

/-- Betting-round closure: in every run of the host after the antes of a new hand, whenever an action
ends the round, everybody still betting has matched the bet size, and it is the largest bet. -/
theorem round_closes (t : Table) (events : List HostEvent) (p : Nat) (action : Int) (amount : Nat)
    (hopen : t.Opening 0) (hsmall : ∀ e ∈ events, e.Small) (hamount : amount < 2^62)
    (hends : (pangeaAction true (events.foldl hostStep t.pangeaAntes) p action amount).2.EndsRound) :
    (pangeaAction true (events.foldl hostStep t.pangeaAntes) p action amount).1.Closed :=
  (pangeaAction_round (hostRun_round events _ (.inr hopen.pangeaAntes) hsmall) p action hamount).2 hends

/-- The two blinds are called and the big blind checks: the flop is dealt. -/
theorem round_closes_flop :
    (pangeaAction true (List.foldl hostStep (openTable threeSeats (fun _ => 100) 10 0).pangeaAntes
      [.startbets 6, .action 0 5 10, .action 1 5 5]) 2 5 0).1.Closed := by
  have hends : (pangeaAction true (List.foldl hostStep (openTable threeSeats (fun _ => 100) 10 0).pangeaAntes
      [.startbets 6, .action 0 5 10, .action 1 5 5]) 2 5 0).2 = .decoded 6 3 := by decide +kernel
  refine round_closes _ _ 2 5 0 ?_ ?_ (by norm_num) ?_
  · exact ⟨by decide, fun _ _ => rfl, rfl, rfl, rfl, by decide, by decide, fun _ h => absurd h (Nat.not_lt_zero _)⟩
  · simp [HostEvent.Small]
  · rw [hends]
    trivial

end SuperNet.Games.Pangea.Table
