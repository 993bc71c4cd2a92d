import SuperNet.Games.PangeaClosure
import SuperNet.Games.PangeaRake
import SuperNet.Games.PangeaSidepots

/-! The rake of a whole hand: what pangea_finish takes of all its side pots together, against the cap of the hand. -/
namespace SuperNet.Games.Pangea.Table
open SuperNet.Lib.Words

variable {t t' : Table} {pot : Nat → Nat} {rakemillis : Nat}

/-- The side pots that are paid out. -/
def wonPots (t : Table) : List (Nat → Nat) := t.pangeaSidepots.filter fun pot => t.splitpotWinners pot ≠ []

/-- The host rake and the pangea rake of a hand together. -/
def handRake (t : Table) : Nat :=
  (t.wonPots.map fun pot =>
    (t.splitpotWinnings t.finishRakemillis pot).hostrake + (t.splitpotWinnings t.finishRakemillis pot).pangearake).sum

/-- So many big blinds as the players with a bet allow. -/
def blindsCap (t : Table) : Nat := maxrakes.getD ((List.range t.N).countP fun j => 0 < t.hand.bets j) 0 * t.bigblind

/-- The documented cap: the big blinds, at most the `maxrake` of the table. -/
def rakeCap (t : Table) : Nat := min t.blindsCap t.maxrake

/-- The rake due on a pot, without the rest of its division. -/
def splitpotDue (t : Table) (pot : Nat → Nat) : Nat :=
  potDue (t.splitpotTotal pot) t.finishRakemillis t.splitpotMaxrake

def rakeDue (t : Table) : Nat := (t.wonPots.map t.splitpotDue).sum

/-- What the divisions among the winners leave over. -/
def splitRemainders (t : Table) : Nat :=
  (t.wonPots.map fun pot => (t.splitpotTotal pot - t.splitpotDue pot) % (t.splitpotWinners pot).length).sum

/-- What a payment does not change of the data the rakes are computed from. -/
structure SameStakes (t t' : Table) : Prop where
  seats : t'.seats = t.seats
  bets : t'.hand.bets = t.hand.bets
  betstatus : t'.hand.betstatus = t.hand.betstatus
  handranks : t'.hand.handranks = t.hand.handranks
  bigblind : t'.bigblind = t.bigblind
  maxrake : t'.maxrake = t.maxrake
  coinstr : t'.coinstr = t.coinstr

theorem SameStakes.refl (t : Table) : SameStakes t t := ⟨rfl, rfl, rfl, rfl, rfl, rfl, rfl⟩

theorem SameStakes.trans {t'' : Table} (h : SameStakes t t') (h' : SameStakes t' t'') : SameStakes t t'' where
  seats := h'.seats.trans h.seats
  bets := h'.bets.trans h.bets
  betstatus := h'.betstatus.trans h.betstatus
  handranks := h'.handranks.trans h.handranks
  bigblind := h'.bigblind.trans h.bigblind
  maxrake := h'.maxrake.trans h.maxrake
  coinstr := h'.coinstr.trans h.coinstr

private theorem sameStakes_payWinners (split : Nat) (winners : List Nat) (t : Table) :
    SameStakes t (winners.foldl (payWinner split) t) := by
  induction winners generalizing t with
  | nil => exact .refl t
  | cons winner winners ih =>
    have hfirst : SameStakes t (payWinner split t winner) := ⟨rfl, rfl, rfl, rfl, rfl, rfl, rfl⟩
    exact hfirst.trans (ih (payWinner split t winner))

theorem SameStakes.folded (h : SameStakes t t') (j : Nat) : t'.folded j = t.folded j := by
  rw [Table.folded, Table.folded, h.betstatus]

theorem SameStakes.bestrank (h : SameStakes t t') : t'.splitpotBestrank pot = t.splitpotBestrank pot := by
  rw [splitpotBestrank, splitpotBestrank, N, N, h.seats]
  refine congrArg (fun f => Lib.Runs.rounds f 0 t.seats.N) (funext fun bestrank => funext fun j => ?_)
  rw [h.handranks]
  exact if_congr (by rw [Contributes, Contributes, h.folded]) rfl rfl

theorem SameStakes.winners (h : SameStakes t t') : t'.splitpotWinners pot = t.splitpotWinners pot := by
  rw [splitpotWinners, splitpotWinners, N, N, h.seats]
  refine List.filter_congr fun j _ => decide_eq_decide.mpr ?_
  rw [h.folded, h.bestrank, h.handranks]

theorem SameStakes.winnings (h : SameStakes t t') :
    t'.splitpotWinnings rakemillis pot = t.splitpotWinnings rakemillis pot := by
  have hmax : t'.splitpotMaxrake = t.splitpotMaxrake := by
    simp only [splitpotMaxrake, N, h.seats, h.bets, h.bigblind, h.maxrake, h.coinstr]
  have htotal : t'.splitpotTotal pot = t.splitpotTotal pot := by
    simp only [splitpotTotal, N, h.seats]
  rw [splitpotWinnings, splitpotWinnings, hmax, htotal, h.winners]

private theorem payout_rakes (rakemillis : Nat) (pots : List (Nat → Nat)) (p : Payout) (h : SameStakes t p.table) :
    (((pots.foldl (pangeaSplitpot rakemillis) p).rake + (pots.foldl (pangeaSplitpot rakemillis) p).pangearake : Nat) :
        Word) =
      (p.rake + p.pangearake + ((pots.filter fun pot => t.splitpotWinners pot ≠ []).map fun pot =>
        (t.splitpotWinnings rakemillis pot).hostrake + (t.splitpotWinnings rakemillis pot).pangearake).sum : Nat) := by
  induction pots generalizing p with
  | nil => simp
  | cons pot pots ih =>
    rw [List.foldl_cons]
    by_cases hwon : t.splitpotWinners pot = []
    case pos =>
      have hskip : pangeaSplitpot rakemillis p pot = p := by
        rw [pangeaSplitpot, h.winners, hwon]
        exact if_pos rfl
      rw [hskip, ih p h, List.filter_cons_of_neg (by simpa using hwon)]
    case neg =>
      have hsome : ¬ (p.table.splitpotWinners pot).length = 0 := by
        rw [h.winners, List.length_eq_zero_iff]
        exact hwon
      have hpaid : pangeaSplitpot rakemillis p pot =
          ⟨(p.table.splitpotWinners pot).foldl (payWinner (t.splitpotWinnings rakemillis pot).split) p.table,
            u64 (p.rake + (t.splitpotWinnings rakemillis pot).hostrake),
            u64 (p.pangearake + (t.splitpotWinnings rakemillis pot).pangearake)⟩ := by
        rw [← h.winnings, pangeaSplitpot, if_neg hsome]
        rfl
      rw [ih _ (by rw [hpaid]; exact h.trans (sameStakes_payWinners _ _ _)),
        List.filter_cons_of_pos (by simpa using hwon), List.map_cons, List.sum_cons, hpaid]
      push_cast [unsigned_cast]
      ring

/-- The rake of a hand is what is due on its pots and what their divisions leave over. -/
theorem handRake_eq (t : Table) : t.handRake = t.rakeDue + t.splitRemainders := by
  rw [handRake, rakeDue, splitRemainders, ← List.sum_map_add]
  refine congrArg List.sum (List.map_congr_left fun pot hpot => ?_)
  have hwon : t.splitpotWinners pot ≠ [] := by simpa using (List.mem_filter.mp hpot).2
  have htotal : t.splitpotTotal pot < 2^64 := by
    rw [splitpotTotal_eq]
    exact Nat.mod_lt _ (by norm_num)
  exact pangeaWinnings_rakes _ htotal t.finishRakemillis_le (List.length_pos_iff.mpr hwon)

/-! ## The bets by levels -/

/-- What the players who have not folded have bet. -/
def levels (t : Table) : Finset Nat := (t.contributors t.wordBets).image t.wordBets

/-- The level before, 0 before the first. -/
def below (levels : Finset Nat) (level : Nat) : Nat := (levels.filter (· < level)).sup id

/-- The chips that all players have bet between a level and the one before; above the highest level there is no other. -/
def layer (t : Table) (level : Nat) : Nat :=
  ∑ j ∈ Finset.range t.N,
    ((if ∃ higher ∈ t.levels, level < higher then min (t.wordBets j) level else t.wordBets j) - below t.levels level)

/-- The rake of a layer before any cap. -/
def layerRake (t : Table) (level : Nat) : Nat :=
  t.layer level % 2^64 - u64 (((t.layer level % 2^64 : Nat) : Int) * (1000 - t.finishRakemillis)) / 1000

/-- A `maxrake` of the table that a floor replaces. -/
def Floored (t : Table) : Prop :=
  t.maxrake < t.blindsCap % 2^64 ∧ (t.maxrake < PANGEA_MAXRAKE ∨ t.coinstr = "BTC" ∧ t.maxrake < PANGEA_BTCMAXRAKE)

/-- The cap of a pot when the product of the big blinds leaves its word. -/
def WrappedCap (t : Table) : Prop :=
  2^64 ≤ t.blindsCap ∧ t.blindsCap % 2^64 ≤ t.maxrake ∧
    ∑ level ∈ t.levels, min (t.layerRake level) (t.blindsCap % 2^64) ≤ t.rakeCap

/-- The rakes of the layers add up to the cap at most; or there is no cap to exceed; or a single layer is raked and no
floor replaces its cap. -/
def WithinCap (t : Table) : Prop :=
  ∑ level ∈ t.levels, t.layerRake level ≤ t.rakeCap ∨ t.blindsCap = 0 ∨
    ¬ t.Floored ∧ (t.levels.filter (0 < t.layerRake ·)).card ≤ 1 ∨ t.WrappedCap

theorem below_eq {levels : Finset Nat} {lo level : Nat} (hlo : lo = 0 ∨ lo ∈ levels) (hlt : lo < level)
    (hnone : ∀ l ∈ levels, l < level → l ≤ lo) : below levels level = lo := by
  rw [below]
  refine Nat.le_antisymm (Finset.sup_le fun l hl => ?_) ?_
  · obtain ⟨hmem, hl⟩ := Finset.mem_filter.mp hl
    exact hnone l hmem hl
  · rcases hlo with rfl | hmem
    · exact Nat.zero_le _
    · exact Finset.le_sup (f := id) (Finset.mem_filter.mpr ⟨hmem, hlt⟩)

private theorem mem_contributors_above {lo j : Nat} :
    j ∈ t.contributors (fun j => t.wordBets j - lo) ↔ j ∈ t.contributors t.wordBets ∧ lo < t.wordBets j := by
  simp only [mem_contributors, Contributes]
  constructor
  · rintro ⟨hj, hne, hlive⟩
    exact ⟨⟨hj, by omega, hlive⟩, by omega⟩
  · rintro ⟨⟨hj, -, hlive⟩, hlt⟩
    exact ⟨hj, by omega, hlive⟩

private theorem mem_levels {level : Nat} : level ∈ t.levels ↔ ∃ j ∈ t.contributors t.wordBets, t.wordBets j = level :=
  Finset.mem_image

private theorem next_level {lo : Nat} (h : (t.contributors fun j => t.wordBets j - lo).Nonempty) :
    lo + t.sidepotMinbet (fun j => t.wordBets j - lo) ∈ t.levels ∧ 0 < t.sidepotMinbet (fun j => t.wordBets j - lo) ∧
      ∀ l ∈ t.levels, lo < l → lo + t.sidepotMinbet (fun j => t.wordBets j - lo) ≤ l := by
  obtain ⟨hall, hex⟩ := sidepotMinbet_spec t fun j => t.wordBets j - lo
  obtain ⟨i, hi⟩ := h
  have hpos := (hall i hi).1
  obtain ⟨j, hj, hmin⟩ := hex hpos
  obtain ⟨hcontributes, hlt⟩ := mem_contributors_above.mp hj
  refine ⟨mem_levels.mpr ⟨j, hcontributes, by omega⟩, Nat.pos_of_ne_zero hpos, fun l hl hlo => ?_⟩
  obtain ⟨k, hk, rfl⟩ := mem_levels.mp hl
  have hle := (hall k (mem_contributors_above.mpr ⟨hk, hlo⟩)).2
  omega

private theorem excess_above (lo minbet : Nat) :
    excess minbet (fun j => t.wordBets j - lo) = fun j => t.wordBets j - (lo + minbet) := by
  funext j
  rw [excess]
  split
  · omega
  · omega

private theorem sidepotsFrom_layers (f : Nat → Nat) (rows : Nat) : ∀ lo, (lo = 0 ∨ lo ∈ t.levels) →
    (t.contributors fun j => t.wordBets j - lo).card ≤ rows → (t.contributors fun j => t.wordBets j - lo).Nonempty →
    ((t.sidepotsFrom rows fun j => t.wordBets j - lo).map fun pot => f (t.potTotal pot)).sum =
      ∑ level ∈ t.levels.filter (lo < ·), f (t.layer level) := by
  induction rows with
  | zero =>
    intro lo _ hcard hsome
    exact absurd hsome.card_pos (by omega)
  | succ rows ih =>
    intro lo hlo hcard hsome
    obtain ⟨hfirst, hpos, hleast⟩ := next_level hsome
    have hfewer := excess_card_lt hsome
    have hnonz : 0 < t.sidepotNonz (fun j => t.wordBets j - lo) (t.sidepotMinbet fun j => t.wordBets j - lo) ↔ _ :=
      sidepotNonz_pos
    rw [excess_above] at hfewer hnonz
    rw [sidepotsFrom]
    generalize t.sidepotMinbet (fun j => t.wordBets j - lo) = minbet at *
    have hbelow : below t.levels (lo + minbet) = lo :=
      below_eq hlo (by omega) fun l hl hlt => Nat.le_of_not_lt fun hlo => by have := hleast l hl hlo; omega
    by_cases hmore : (t.contributors fun j => t.wordBets j - (lo + minbet)).Nonempty
    case pos =>
      have hlevels : t.levels.filter (lo < ·) = insert (lo + minbet) (t.levels.filter (lo + minbet < ·)) := by
        ext l
        rw [Finset.mem_insert, Finset.mem_filter, Finset.mem_filter]
        constructor
        · rintro ⟨hl, hlt⟩
          rcases Nat.eq_or_lt_of_le (hleast l hl hlt) with heq | hlt
          · exact .inl heq.symm
          · exact .inr ⟨hl, hlt⟩
        · rintro (rfl | ⟨hl, hlt⟩)
          · exact ⟨hfirst, by omega⟩
          · exact ⟨hl, by omega⟩
      have hhigher : ∃ higher ∈ t.levels, lo + minbet < higher := by
        obtain ⟨j, hj⟩ := hmore
        obtain ⟨hcontributes, hlt⟩ := mem_contributors_above.mp hj
        exact ⟨_, mem_levels.mpr ⟨j, hcontributes, rfl⟩, hlt⟩
      have htotal : t.potTotal (fun j => if minbet < t.wordBets j - lo then minbet else t.wordBets j - lo) =
          t.layer (lo + minbet) := by
        rw [potTotal, layer, hbelow]
        refine Finset.sum_congr rfl fun j _ => ?_
        rw [if_pos hhigher]
        split
        · omega
        · omega
      have hrest := ih (lo + minbet) (.inr hfirst) (by omega) hmore
      rw [if_pos (hnonz.mpr hmore), List.map_cons, List.sum_cons, htotal, hlevels, Finset.sum_insert (by simp), ← hrest,
        ← excess_above]
      rfl
    case neg =>
      have hlevels : t.levels.filter (lo < ·) = {lo + minbet} := by
        ext l
        rw [Finset.mem_singleton, Finset.mem_filter]
        constructor
        · rintro ⟨hl, hlt⟩
          refine Nat.le_antisymm (Nat.le_of_not_lt fun hover => ?_) (hleast l hl hlt)
          obtain ⟨j, hj, rfl⟩ := mem_levels.mp hl
          exact hmore ⟨j, mem_contributors_above.mpr ⟨hj, hover⟩⟩
        · rintro rfl
          exact ⟨hfirst, by omega⟩
      have hlast : ¬ ∃ higher ∈ t.levels, lo + minbet < higher := by
        rintro ⟨higher, hmem, hlt⟩
        obtain ⟨j, hj, rfl⟩ := mem_levels.mp hmem
        exact hmore ⟨j, mem_contributors_above.mpr ⟨hj, hlt⟩⟩
      have htotal : t.potTotal (fun j => t.wordBets j - lo) = t.layer (lo + minbet) := by
        rw [potTotal, layer, hbelow]
        exact Finset.sum_congr rfl fun j _ => by rw [if_neg hlast]
      rw [if_neg fun h => hmore (hnonz.mp h), hlevels, Finset.sum_singleton, List.map_singleton, List.sum_singleton, htotal]

/-- The rakes due on the pots that are won are those of the layers. -/
theorem rakeDue_eq (t : Table) : t.rakeDue = ∑ level ∈ t.levels, min (t.layerRake level) t.splitpotMaxrake := by
  by_cases hsome : (t.contributors t.wordBets).Nonempty
  case pos =>
    have hwon : t.wonPots = t.pangeaSidepots := by
      rw [wonPots, List.filter_eq_self]
      intro pot hpot
      exact decide_eq_true (splitpotWinners_ne_nil (sidepotsFrom_contributors t t.N t.wordBets hsome pot hpot))
    have hcard : (t.contributors t.wordBets).card ≤ t.N :=
      (Finset.card_filter_le _ _).trans_eq (Finset.card_range _)
    have hlayers := sidepotsFrom_layers (t := t) (fun total => potDue (total % 2^64) t.finishRakemillis t.splitpotMaxrake)
      t.N 0 (.inl rfl) hcard hsome
    have hall : t.levels.filter (0 < ·) = t.levels := by
      refine Finset.filter_true_of_mem fun level hlevel => ?_
      obtain ⟨j, hj, rfl⟩ := mem_levels.mp hlevel
      exact Nat.pos_of_ne_zero (mem_contributors.mp hj).2.1
    have hdue : t.splitpotDue = fun pot => potDue (t.potTotal pot % 2^64) t.finishRakemillis t.splitpotMaxrake :=
      funext fun pot => by rw [splitpotDue, splitpotTotal_eq]
    rw [hall] at hlayers
    rw [rakeDue, hwon, hdue]
    simp only [Nat.sub_zero] at hlayers
    exact hlayers
  case neg =>
    have hnone := Finset.not_nonempty_iff_eq_empty.mp hsome
    have hpots : t.pangeaSidepots = [t.wordBets] := sidepotsFrom_abandoned t t.wordBets hnone t.seats.N_pos
    have hwinners : t.splitpotWinners t.wordBets = [] := by
      rw [splitpotWinners, List.filter_eq_nil_iff]
      intro j hj hwin
      obtain ⟨hlive, hpos, -⟩ : ¬ t.folded j ∧ 0 < t.wordBets j ∧ _ := by simpa using hwin
      exact hsome ⟨j, mem_contributors.mpr ⟨List.mem_range.mp hj, hpos.ne', hlive⟩⟩
    rw [rakeDue, wonPots, hpots, List.filter_cons_of_neg (by simpa using hwinners), levels, hnone]
    rfl

private theorem sum_min_le_iff {s : Finset Nat} {rake : Nat → Nat} {m : Nat} :
    ∑ l ∈ s, min (rake l) m ≤ m ↔ ∑ l ∈ s, rake l ≤ m ∨ m = 0 ∨ (s.filter (0 < rake ·)).card ≤ 1 := by
  have hcut : (∀ l ∈ s, rake l ≤ m) → ∑ l ∈ s, min (rake l) m = ∑ l ∈ s, rake l := fun hle =>
    Finset.sum_congr rfl fun l hl => Nat.min_eq_left (hle l hl)
  constructor
  · intro hsum
    by_cases hle : ∀ l ∈ s, rake l ≤ m
    · rw [hcut hle] at hsum
      exact .inl hsum
    · obtain ⟨l, hl, hover⟩ : ∃ l ∈ s, m < rake l := by
        push Not at hle
        exact hle
      rcases Nat.eq_zero_or_pos m with hm | hm
      · exact .inr (.inl hm)
      · refine .inr (.inr (Finset.card_le_one.mpr fun a ha b hb => ?_))
        have honly : ∀ a ∈ s.filter (0 < rake ·), a = l := by
          intro a ha
          obtain ⟨ha, hraked⟩ := Finset.mem_filter.mp ha
          by_contra hne
          -- the layer over the cap and another one are more than the cap
          have hpair := Finset.sum_le_sum_of_subset (f := fun l => min (rake l) m)
            (Finset.insert_subset ha (Finset.singleton_subset_iff.mpr hl))
          rw [Finset.sum_insert (by simpa using hne), Finset.sum_singleton] at hpair
          omega
        rw [honly a ha, honly b hb]
  · rintro (hsum | rfl | hone)
    · exact (Finset.sum_le_sum fun l _ => Nat.min_le_left _ _).trans hsum
    · simp
    · have hraked : ∑ l ∈ s, min (rake l) m = ∑ l ∈ s.filter (0 < rake ·), min (rake l) m := by
        refine (Finset.sum_filter_of_ne fun l _ hne => ?_).symm
        omega
      rw [hraked]
      refine (Finset.sum_le_card_nsmul _ _ m fun l _ => Nat.min_le_right _ _).trans ?_
      rw [smul_eq_mul]
      exact (Nat.mul_le_mul_right m hone).trans_eq (Nat.one_mul m)

private theorem splitpotMaxrake_cases (t : Table) :
    (t.Floored ∧ t.rakeCap < t.splitpotMaxrake) ∨
    (¬ t.Floored ∧ t.splitpotMaxrake = t.rakeCap ∧ (t.rakeCap = 0 → t.blindsCap = 0) ∧ ¬ t.WrappedCap) ∨
    (¬ t.Floored ∧ 2^64 ≤ t.blindsCap ∧ t.blindsCap % 2^64 ≤ t.maxrake ∧ t.splitpotMaxrake = t.blindsCap % 2^64 ∧
      t.splitpotMaxrake ≤ t.rakeCap) := by
  have hcap : t.splitpotMaxrake = if t.maxrake < t.blindsCap % 2^64 then
      if t.coinstr = "BTC" ∧ t.maxrake < PANGEA_BTCMAXRAKE then PANGEA_BTCMAXRAKE
      else if t.maxrake < PANGEA_MAXRAKE then PANGEA_MAXRAKE
      else t.maxrake
    else t.blindsCap % 2^64 := by
    simp only [splitpotMaxrake, blindsCap, u64, ← Nat.cast_mul, unsigned_natCast]
    rfl
  have hmod := Nat.mod_le t.blindsCap (2^64)
  rw [hcap, rakeCap, Floored]
  by_cases hmax : t.maxrake < t.blindsCap % 2^64
  case pos =>
    rw [if_pos hmax, Nat.min_eq_right (by omega)]
    by_cases hbtc : t.coinstr = "BTC" ∧ t.maxrake < PANGEA_BTCMAXRAKE
    · rw [if_pos hbtc]
      exact .inl ⟨⟨hmax, .inr hbtc⟩, hbtc.2⟩
    · rw [if_neg hbtc]
      by_cases hfloor : t.maxrake < PANGEA_MAXRAKE
      · rw [if_pos hfloor]
        exact .inl ⟨⟨hmax, .inl hfloor⟩, hfloor⟩
      · rw [if_neg hfloor]
        refine .inr (.inl ⟨fun h => h.2.elim hfloor hbtc, rfl, fun hzero => ?_, fun h => ?_⟩)
        · rw [hzero] at hfloor
          exact absurd (by decide) hfloor
        · exact absurd h.2.1 (Nat.not_le_of_lt hmax)
  case neg =>
    rw [if_neg hmax]
    by_cases hwrap : t.blindsCap < 2^64
    · rw [Nat.mod_eq_of_lt hwrap] at hmax ⊢
      rw [Nat.min_eq_left (Nat.le_of_not_lt hmax)]
      exact .inr (.inl ⟨fun h => hmax h.1, rfl, id, fun h => absurd hwrap (Nat.not_lt_of_le h.1)⟩)
    · exact .inr (.inr ⟨fun h => hmax h.1, by omega, by omega, rfl, by omega⟩)

/-- The rakes due are within the cap for these bets and settings. -/
theorem rakeDue_le_iff (t : Table) : t.rakeDue ≤ t.rakeCap ↔ t.WithinCap := by
  have hle : ∀ m, ∑ level ∈ t.levels, min (t.layerRake level) m ≤ ∑ level ∈ t.levels, t.layerRake level :=
    fun m => Finset.sum_le_sum fun _ _ => Nat.min_le_left _ _
  rw [rakeDue_eq, WithinCap]
  rcases t.splitpotMaxrake_cases with ⟨hfloored, hlt⟩ | ⟨hfloored, heq, hzero, hwrapped⟩ | ⟨hfloored, hwrap, hmax, heq, hcap⟩
  · -- no rake that is cut at the floor fits the cap
    constructor
    · intro hsum
      refine .inl (le_of_eq_of_le (Finset.sum_congr rfl fun level hlevel => ?_) hsum)
      have hone := Finset.single_le_sum (f := fun level => min (t.layerRake level) t.splitpotMaxrake)
        (fun _ _ => Nat.zero_le _) hlevel
      omega
    · have hpos := Nat.zero_lt_of_lt hfloored.1
      rintro (hsum | hzero | ⟨hnot, -⟩ | hwrapped)
      · exact (hle _).trans hsum
      · rw [hzero] at hpos
        exact absurd hpos (Nat.lt_irrefl 0)
      · exact absurd hfloored hnot
      · exact absurd hwrapped.2.1 (Nat.not_le_of_lt hfloored.1)
  · rw [heq, sum_min_le_iff]
    constructor
    · rintro (hsum | hcap | hone)
      · exact .inl hsum
      · exact .inr (.inl (hzero hcap))
      · exact .inr (.inr (.inl ⟨hfloored, hone⟩))
    · rintro (hsum | hblinds | ⟨-, hone⟩ | hwrap)
      · exact .inl hsum
      · refine .inr (.inl ?_)
        rw [rakeCap, hblinds, Nat.zero_min]
      · exact .inr (.inr hone)
      · exact absurd hwrap hwrapped
  · constructor
    · intro hsum
      rw [heq] at hsum
      exact .inr (.inr (.inr ⟨hwrap, hmax, hsum⟩))
    · rintro (hsum | hzero | ⟨-, hone⟩ | hwrapped)
      · exact (hle _).trans hsum
      · omega
      · exact (sum_min_le_iff.mpr (.inr (.inr hone))).trans hcap
      · rw [heq]
        exact hwrapped.2.2

/-- The pots of a hand are the rows that `pangea_sidepots` leaves, its payout takes their rakes, as a word, and these are
within the cap and the rests of the divisions iff the bets and the settings are such. -/
theorem handRake_capped_iff (t : Table) :
    (∃ s, t.sidepotsMatrix (t.N + 2) t.hand.bets = some s ∧
      List.Forall₂ (fun p q => ∀ j < t.N, p j = q j) t.pangeaSidepots ((List.range s.n).map s.rows)) ∧
    ((t.finishPayout.rake + t.finishPayout.pangearake : Nat) : Word) = (t.handRake : Nat) ∧
    (t.handRake ≤ t.rakeCap + t.splitRemainders ↔ t.WithinCap) := by
  refine ⟨sidepotsMatrix_rows (le_refl _), ?_, ?_⟩
  · have hpaid := payout_rakes t.finishRakemillis t.pangeaSidepots ⟨t, 0, 0⟩ (SameStakes.refl t)
    rwa [Nat.zero_add, Nat.zero_add] at hpaid
  · rw [t.handRake_eq, Nat.add_le_add_iff_right]
    exact t.rakeDue_le_iff

/-- Three players all in with different stakes, the flop on the table; the first of them has the best hand. -/
def sidepotsHand (maxrake : Nat) : Table :=
  let stakes := fun slot => [10^11, 2 * 10^11, 3 * 10^11].getD slot 0
  let t := { openTable threeSeats stakes 100000000 0 with maxrake := maxrake }
  let flop := fun i => [4, 5, 6].getD i 0xff
  (List.foldl hostStep t.pangeaAntes
    [.startbets 6, .action 0 7 (10^11), .action 1 7 (2 * 10^11), .action 2 7 (3 * 10^11), .cards flop]).updateHand
      fun hand => { hand with handranks := fun j => 9 - j }

/-- Each of its three pots has one winner and pays the cap of two big blinds. Without a `maxrake` the floor replaces
the cap of the table. -/
theorem sidepotsHand_overraked :
    (∀ pot ∈ (sidepotsHand (10^10)).wonPots, ((sidepotsHand (10^10)).splitpotWinners pot).length = 1) ∧
      (sidepotsHand (10^10)).rakeCap = 200000000 ∧ (sidepotsHand (10^10)).handRake = 600000000 ∧
      ¬ (sidepotsHand (10^10)).handRake ≤ (sidepotsHand (10^10)).rakeCap + (sidepotsHand (10^10)).splitRemainders ∧
      (sidepotsHand 0).rakeCap = 0 ∧ (sidepotsHand 0).handRake = 900000000 := by
  decide +kernel

end SuperNet.Games.Pangea.Table
