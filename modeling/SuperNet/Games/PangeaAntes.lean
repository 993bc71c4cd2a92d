import SuperNet.Games.PangeaRound

/-! What the antes and the blinds of a hand keep: every property that folds and bets keep, when these are not negative. -/
namespace SuperNet.Games.Pangea.Table
open SuperNet.Lib.Words SuperNet.Lib.Runs

/-- Folds, bets of at least 0 and the button keep the property, and the funds of a player who can still bet are not
negative as a signed word. -/
structure BetInvariant (I : Table → Prop) : Prop where
  fold : ∀ {t : Table} (q : Nat), I t → I (t.pangeaFold q)
  bet : ∀ {t : Table} {q : Nat} {bet : Int} {action : Act}, I t → q < t.N → action ≠ .allin →
    (t.hand.betstatus q = .live → 0 ≤ bet) → I (t.pangeaBet q bet action).1
  button : ∀ {t : Table} (button : Nat), I t → I { t with button := button }
  covered : ∀ {t : Table} {i : Nat}, I t → i < t.N → t.hand.betstatus i = .live → (u64 (t.balance i) : Int) < 2^63

variable {I : Table → Prop} {t : Table}

/-- What every fold, every bet and a change of the button keep holds after the antes and blinds. -/
theorem pangeaAntes_keeps (fold : ∀ (t : Table) (q : Nat), I t → I (t.pangeaFold q))
    (bet : ∀ (t : Table) (q : Nat) (bet : Int) (action : Act), I t → I (t.pangeaBet q bet action).1)
    (button : ∀ (t : Table) (button : Nat), I t → I { t with button := button }) (h : I t.antesSnapshot) :
    I t.pangeaAntes := by
  have hfunded : I t.antesFunded := by
    refine rounds_induct (motive := fun _ t' => I t') t.N h fun k _ ih => ?_
    rw [antesBroke]
    split
    · exact fold _ k ih
    · exact ih
  have hposted : I t.antesPosted := by
    rw [Table.antesPosted]
    split
    · refine rounds_induct (motive := fun _ t' => I t') t.N hfunded fun k _ ih => ?_
      rw [Table.antesPost]
      split_ifs
      · exact fold _ k ih
      · exact bet _ k _ _ ih
      · exact ih
    · exact hfunded
  have hseated : I t.antesSeated.1 := by
    refine rounds_induct (motive := fun _ (acc : Table × List Nat) => I acc.1) t.N hposted fun k _ ih => ?_
    simp only [Table.antesSeat]
    split
    · exact ih
    · exact fold _ _ ih
  rw [Table.pangeaAntes]
  unfold Table.antesBlinds
  split
  · exact bet _ _ _ _ (button _ _ (bet _ _ _ _ hseated))
  · exact hseated

theorem antesPost_progress (t : Table) (i : Nat) : Progress t (t.antesPost i) := by
  rw [Table.antesPost]
  split_ifs
  · exact t.pangeaFold_progress i
  · exact t.pangeaBet_progress _ _ _
  · exact .refl t

theorem BetInvariant.antesPost (hI : BetInvariant I) (h : I t) {i : Nat} (hi : i < t.N) : I (t.antesPost i) := by
  rw [Table.antesPost]
  split
  case isFalse => exact h
  case isTrue =>
    split
    case isTrue => exact hI.fold i h
    case isFalse hcover =>
      refine hI.bet h hi Act.noConfusion fun hlive => ?_
      have hword := hI.covered h hi hlive
      have hante : i64 t.ante = t.ante := signed_of_bounds (by omega) (by omega)
      rw [hante]
      exact Int.natCast_nonneg _

theorem BetInvariant.antesPosted (hI : BetInvariant I) (h : I t.antesFunded) (hs : t.antesFunded.seats = t.seats) :
    I t.antesPosted := by
  rw [Table.antesPosted]
  split
  case isFalse => exact h
  case isTrue =>
    refine (rounds_induct (motive := fun _ (t' : Table) => I t' ∧ t'.seats = t.seats) t.N ⟨h, hs⟩ fun k hk ih => ?_).1
    exact ⟨hI.antesPost ih.1 (by rw [N, ih.2]; exact hk), (antesPost_progress _ _).seats.trans ih.2⟩

/-- The players found by the blinds loop. A second one who can bet covers the big blind, which then is
not negative as a signed word. -/
structure Found (I : Table → Prop) (acc : Table × List Nat) : Prop where
  keeps : I acc.1
  mem : ∀ j ∈ acc.2, j < acc.1.N
  covered : ∀ small big rest, acc.2 = small :: big :: rest →
    acc.1.hand.betstatus big = .live → acc.1.bigblind < 2^63

theorem Found.antesSeat {acc : Table × List Nat} (hI : BetInvariant I) (h : Found I acc) (i : Nat) :
    Found I (antesSeat acc i) := by
  obtain ⟨t, actives⟩ := acc
  have hj : u32 (1 + t.button + i) % t.N < t.N := Nat.mod_lt _ t.seats.N_pos
  simp only [Table.antesSeat]
  split
  case isFalse =>
    refine ⟨hI.fold _ h.keeps, h.mem, fun small big rest heq hlive => h.covered small big rest heq ?_⟩
    rw [pangeaFold_betstatus] at hlive
    by_cases hbig : big = u32 (1 + t.button + i) % t.N
    · rw [hbig, Function.update_self] at hlive
      exact absurd hlive BetStatus.noConfusion
    · rwa [Function.update_of_ne hbig] at hlive
  case isTrue hfund =>
    refine ⟨h.keeps, fun j hmem => ?_, fun small big rest heq hlive => ?_⟩
    · rcases List.mem_append.mp hmem with hold | hnew
      · exact h.mem j hold
      · rw [List.mem_singleton.mp hnew]
        exact hj
    · match actives, h, hfund, heq with
      | [], _, _, heq => simp at heq
      | [small'], h, hfund, heq =>
        obtain ⟨-, rfl, -⟩ : small' = small ∧ _ = big ∧ _ := by simpa using heq
        exact bigblind_of_threshold t hfund (hI.covered h.keeps hj hlive)
      | small' :: big' :: rest', h, _, heq =>
        obtain ⟨-, rfl, -⟩ : small' = small ∧ big' = big ∧ _ := by simpa using heq
        exact h.covered small' big' rest' rfl hlive

theorem Found.antesBlinds {acc : Table × List Nat} (hI : BetInvariant I) (h : Found I acc) :
    I (acc.1.antesBlinds acc.2) := by
  obtain ⟨t, actives⟩ := acc
  match actives, h with
  | [], h => exact h.keeps
  | [_], h => exact h.keeps
  | small :: big :: rest, h =>
    have hlt := t.bigblind_lt
    have hhalf : i64 (t.bigblind / 2 : Nat) = (t.bigblind / 2 : Nat) := signed_of_bounds (by omega) (by omega)
    have hpos : 0 ≤ i64 (t.bigblind / 2 : Nat) := by
      rw [hhalf]
      exact Int.natCast_nonneg _
    have hprog := t.pangeaBet_progress small (i64 (t.bigblind / 2 : Nat)) .smallblind
    have hbutton : I (t.antesSmallblind small) :=
      hI.button _ (hI.bet h.keeps (h.mem small (by simp)) Act.noConfusion fun _ => hpos)
    have hbig : big < (t.antesSmallblind small).N := by
      rw [N, antesSmallblind, hprog.seats]
      exact h.mem big (by simp)
    refine hI.bet hbutton hbig Act.noConfusion fun hlive => ?_
    have hlive' : t.hand.betstatus big = .live := by
      rcases hprog.status big with he | he | he
      · exact he.symm.trans hlive
      · exact absurd (he.symm.trans hlive) BetStatus.noConfusion
      · exact he
    have hcover : t.bigblind < 2^63 := h.covered small big rest rfl hlive'
    have hfull : i64 t.bigblind = t.bigblind := signed_of_bounds (by omega) (by omega)
    rw [hfull]
    exact Int.natCast_nonneg _

/-- From the players with funds on, the antes and the blinds keep the property. -/
theorem BetInvariant.pangeaAntes (hI : BetInvariant I) (h : I t.antesFunded) (hs : t.antesFunded.seats = t.seats) :
    I t.pangeaAntes := by
  have hfound : Found I t.antesSeated :=
    rounds_induct (motive := fun _ acc => Found I acc) t.N
      ⟨hI.antesPosted h hs, fun _ hj => absurd hj (List.not_mem_nil), fun _ _ _ heq => absurd heq (List.cons_ne_nil _ _).symm⟩
      fun k _ ih => ih.antesSeat hI k
  exact hfound.antesBlinds hI

end SuperNet.Games.Pangea.Table
