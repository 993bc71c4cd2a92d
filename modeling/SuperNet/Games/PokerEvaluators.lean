import SuperNet.Games.PokerBest
import SuperNet.Games.PokerFive

/-! The two evaluators for seven cards. `SevenCardDrawScoreSlow` goes through the choices of five cards, and
`SevenCardDrawScore` returns the same: the score of the best choice. -/
namespace SuperNet.Games.Poker
open Lib.Masks

structure IsBest (h : List Nat) (v : Nat) : Prop where
  le : ∀ x : List Nat, x.Subperm h → x.length = 5 → fiveCardDrawScore x ≤ v
  attained : ∃ x : List Nat, x.Subperm h ∧ x.length = 5 ∧ fiveCardDrawScore x = v

theorem IsBest.unique {h : List Nat} {v w : Nat} (hv : IsBest h v) (hw : IsBest h w) : v = w := by
  obtain ⟨x, hx, hxlen, rfl⟩ := hv.attained
  obtain ⟨y, hy, hylen, rfl⟩ := hw.attained
  exact Nat.le_antisymm (hw.le x hx hxlen) (hv.le y hy hylen)

theorem IsBest.perm {h h' : List Nat} {v : Nat} (hv : IsBest h v) (hperm : h.Perm h') : IsBest h' v := by
  constructor
  · intro x hx
    exact hv.le x (hx.trans hperm.symm.subperm)
  · obtain ⟨x, hx, hlen, hscore⟩ := hv.attained
    exact ⟨x, hx.trans hperm.subperm, hlen, hscore⟩

section Slow

private theorem exists_eraseIdx {l h : List Nat} (hsub : l.Sublist h) (hlen : h.length = l.length + 1) :
    ∃ j < h.length, l = h.eraseIdx j := by
  induction hsub with
  | slnil => cases hlen
  | @cons l h a hsub _ =>
    have heq := hsub.eq_of_length (Nat.succ_inj.mp hlen).symm
    exact ⟨0, Nat.succ_pos _, heq⟩
  | @cons_cons l h a _ ih =>
    obtain ⟨j, hj, heq⟩ := ih (Nat.succ_inj.mp hlen)
    exact ⟨j + 1, Nat.succ_lt_succ hj, by rw [List.eraseIdx_cons_succ, ← heq]⟩

private theorem exists_eraseIdx_eraseIdx {l h : List Nat} (hsub : l.Sublist h) (hlen : h.length = l.length + 2) :
    ∃ i j, i < j ∧ j < h.length ∧ l = (h.eraseIdx j).eraseIdx i := by
  induction hsub with
  | slnil => cases hlen
  | @cons l h a hsub _ =>
    obtain ⟨j, hj, heq⟩ := exists_eraseIdx hsub (Nat.succ_inj.mp hlen)
    exact ⟨0, j + 1, Nat.succ_pos j, Nat.succ_lt_succ hj, heq⟩
  | @cons_cons l h a _ ih =>
    obtain ⟨i, j, hij, hj, heq⟩ := ih (Nat.succ_inj.mp hlen)
    exact ⟨i + 1, j + 1, Nat.succ_lt_succ hij, Nat.succ_lt_succ hj,
      by rw [List.eraseIdx_cons_succ, List.eraseIdx_cons_succ, ← heq]⟩

private theorem foldl_best (scores : List Nat) (m : Nat) :
    (∀ r ∈ m :: scores, r ≤ scores.foldl (fun m r => if r > m then r else m) m) ∧
      scores.foldl (fun m r => if r > m then r else m) m ∈ m :: scores := by
  induction scores generalizing m with
  | nil => exact ⟨fun r hr => (List.mem_singleton.mp hr).le, List.mem_singleton_self m⟩
  | cons r scores ih =>
    obtain ⟨hle, hmem⟩ := ih (if r > m then r else m)
    have hfirst := hle _ List.mem_cons_self
    have hstep : m ≤ (if r > m then r else m) ∧ r ≤ (if r > m then r else m) := by split <;> omega
    rw [List.foldl_cons]
    constructor
    · intro q hq
      obtain rfl | hq := List.mem_cons.mp hq
      · exact hstep.1.trans hfirst
      obtain rfl | hq := List.mem_cons.mp hq
      · exact hstep.2.trans hfirst
      · exact hle q (List.mem_cons_of_mem _ hq)
    · obtain heq | hmem := List.mem_cons.mp hmem
      · rw [heq]
        split
        · exact List.mem_cons_of_mem m List.mem_cons_self
        · exact List.mem_cons_self
      · exact List.mem_cons_of_mem m (List.mem_cons_of_mem r hmem)

/-- The scores that the loops go through. -/
private def slowScores (h : List Nat) : List Nat :=
  (List.range 6).flatMap fun i => (List.range' (i + 1) (6 - i)).map fun j => fiveCardDrawScore ((h.eraseIdx j).eraseIdx i)

private theorem slow_eq (h : List Nat) :
    sevenCardDrawScoreSlow h = (slowScores h).foldl (fun m r => if r > m then r else m) 0 := by
  rw [sevenCardDrawScoreSlow, slowScores, List.foldl_flatMap]
  simp only [List.foldl_map]

private theorem mem_slowScores {h : List Nat} {r : Nat} :
    r ∈ slowScores h ↔ ∃ i j, i < j ∧ j < 7 ∧ fiveCardDrawScore ((h.eraseIdx j).eraseIdx i) = r := by
  rw [slowScores]
  simp only [List.mem_flatMap, List.mem_range, List.mem_map, List.mem_range'_1]
  constructor
  · rintro ⟨i, hi, j, hj, rfl⟩
    exact ⟨i, j, by omega, by omega, rfl⟩
  · rintro ⟨i, j, hij, hj, rfl⟩
    exact ⟨i, by omega, j, by omega, rfl⟩

theorem isBest_slow {h : List Nat} (hlen : h.length = 7) : IsBest h (sevenCardDrawScoreSlow h) := by
  have hchoice : ∀ x : List Nat, x.Subperm h → x.length = 5 → fiveCardDrawScore x ∈ slowScores h := by
    rintro x ⟨l, hperm, hsub⟩ hx
    obtain ⟨i, j, hij, hj, heq⟩ := exists_eraseIdx_eraseIdx hsub (by rw [hlen, hperm.length_eq, hx])
    rw [← fiveCardDrawScore_perm hperm]
    exact mem_slowScores.mpr ⟨i, j, hij, hlen ▸ hj, by rw [← heq]⟩
  obtain ⟨hle, hmem⟩ := foldl_best (slowScores h) 0
  rw [slow_eq]
  constructor
  · intro x hx hx5
    exact hle _ (List.mem_cons_of_mem 0 (hchoice x hx hx5))
  · have hfive : fiveCardDrawScore (h.take 5) ∈ slowScores h :=
      hchoice _ (List.take_sublist 5 h).subperm (by rw [List.length_take, hlen]; rfl)
    have hmem' : (slowScores h).foldl (fun m r => if r > m then r else m) 0 ∈ slowScores h := by
      obtain hzero | hmem := List.mem_cons.mp hmem
      · have hfirst := hle _ (List.mem_cons_of_mem 0 hfive)
        rw [hzero] at hfirst ⊢
        rw [Nat.le_zero.mp hfirst] at hfive
        exact hfive
      · exact hmem
    obtain ⟨i, j, hij, hj, hscore⟩ := mem_slowScores.mp hmem'
    have hj' : j < h.length := hlen ▸ hj
    have hi' : i < (h.eraseIdx j).length := by
      rw [List.length_eraseIdx_of_lt hj']
      omega
    refine ⟨_, ((List.eraseIdx_sublist _ i).trans (List.eraseIdx_sublist h j)).subperm, ?_, hscore⟩
    rw [List.length_eraseIdx_of_lt hi', List.length_eraseIdx_of_lt hj', hlen]

end Slow

section Keys

/-- The parts of a key are masks of ranks. -/
structure Key.Small (k : Key) : Prop where
  a : k.a < 2^13
  b : k.b < 2^13

theorem Key.score_le {k k' : Key} (hk : k.Small) (h : k.Le k') : k.score ≤ k'.score := by
  obtain ⟨ha, hb⟩ := hk
  rw [Key.score, Key.score]
  obtain hcat | ⟨hcat, ha' | ⟨ha', hb'⟩⟩ := h <;> omega

theorem Key.score_lt {k : Key} (hk : k.Small) (hcat : k.cat < 4) : k.score < straightScore := by
  obtain ⟨ha, hb⟩ := hk
  have hstraight : straightScore = 4 * 2^27 := by decide
  rw [Key.score, hstraight]
  omega

theorem fiveKey_small {m : Kinds} (hm : m.Small) : (fiveKey m).Small := by
  obtain ⟨h1, h2, h3, h4⟩ := hm
  have h12 := (diff_le m.m1 m.m2).trans_lt h1
  have h23 := (diff_le m.m2 m.m3).trans_lt h2
  rw [fiveKey]
  constructor <;> split_ifs <;> first | assumption | exact Nat.two_pow_pos 13

private theorem top_le (n x : Nat) : top n x ≤ x := by
  induction n generalizing x with
  | zero => exact Nat.le_refl x
  | succ n ih =>
    rw [top]
    split
    · exact (ih (rip x)).trans (rip_le x)
    · exact Nat.le_refl x

theorem sevenKey_small {m : Kinds} (hm : m.Small) : (sevenKey m).Small := by
  obtain ⟨h1, h2, h3, h4⟩ := hm
  have h12 := (diff_le m.m1 m.m2).trans_lt h1
  have h23 := (diff_le m.m2 m.m3).trans_lt h2
  have h24 := (diff_le m.m2 m.m4).trans_lt h2
  have hr2 := (rip_le m.m2).trans_lt h2
  have hr3 := (rip_le m.m3).trans_lt h3
  have hr23 := (rip_le (diff m.m2 m.m3)).trans_lt h23
  have hrr12 := ((rip_le _).trans (rip_le (diff m.m1 m.m2))).trans_lt h12
  have hx2 : m.m2 ^^^ rip m.m2 < 2^13 := Nat.xor_lt_two_pow h2 hr2
  have hx3 : m.m3 ^^^ rip m.m3 < 2^13 := Nat.xor_lt_two_pow h3 hr3
  have hkicker := (rip_le (diff m.m1 m.m2 ||| (m.m2 ^^^ rip m.m2))).trans_lt (Nat.or_lt_two_pow h12 hx2)
  have htop := (top_le 31 (diff m.m1 m.m2 ||| diff m.m2 m.m4)).trans_lt (Nat.or_lt_two_pow h12 h24)
  rw [sevenKey]
  constructor <;> split_ifs <;> first | assumption | exact Nat.two_pow_pos 13

end Keys

section Fast

private theorem sevenCardDrawScore_def : sevenCardDrawScore = fun h =>
    match sevenStraight ((h.map cardMask).foldl (fun t c => t ||| c) 0) (sevenCardDrawFlush h) with
    | some score => score
    | none => sevenPaired (kinds (h.map cardMask)) (sevenCardDrawFlush h) := rfl

theorem sevenCardDrawScore_eq (h : List Nat) : sevenCardDrawScore h =
    (sevenStraight (maskOf (ranks h)) (sevenCardDrawFlush h)).getD
      (sevenPaired (kindsOf (ranks h)) (sevenCardDrawFlush h)) := by
  rw [sevenCardDrawScore_def]
  dsimp only
  rw [or_cardMask, kinds_cardMask, ranks]
  generalize sevenStraight (maskOf (h.map cardValue)) (sevenCardDrawFlush h) = score
  cases score with
  | none => rw [Option.getD_none]
  | some score => rw [Option.getD_some]

/-- The straight of some cards is that of five of them. -/
theorem exists_of_straight {h : List Nat} {r : Nat} (hr : bestStraight (maskOf (ranks h)) = some r) :
    ∃ x : List Nat, x.Subperm h ∧ x.length = 5 ∧ (ranks x).Nodup ∧ bestStraight (maskOf (ranks x)) = some r := by
  obtain ⟨p, hp, hsub, rfl⟩ := bestStraight_some hr
  obtain ⟨ds, hnodup, hlen, -, hmask⟩ := straights_ranks p hp
  rw [← hmask] at hsub
  obtain ⟨x, hx, hperm⟩ := exists_of_subperm_map (List.subperm_of_subset hnodup (subset_of_maskOf hsub))
  have hxmask : maskOf (ranks x) = p.1 := by rw [← hmask]; exact (maskOf_perm hperm).symm
  obtain ⟨r, hr', hle⟩ := le_bestStraight (t := maskOf (ranks x)) hp (by rw [hxmask, Nat.and_self])
  obtain ⟨r', hr'', hle'⟩ := bestStraight_mono (maskOf_subset (ranks_subperm hx).subset) hr'
  have heq : r = p.2 := Nat.le_antisymm (hle'.trans (Option.some.inj (hr''.symm.trans hr)).le) hle
  refine ⟨x, hx, ?_, hperm.nodup_iff.mp hnodup, by rw [hr', heq]⟩
  rw [← hlen, hperm.length_eq, List.length_map]

variable (h : Hand)

theorem Hand.count_ranks_le (i : Nat) : (ranks h.cards).count i ≤ 4 := by
  have hsub : h.cards.filter (fun c => cardValue c == i) ⊆ [i, i + 13, i + 26, i + 39] := by
    intro c hc
    obtain ⟨hmem, hrank⟩ := List.mem_filter.mp hc
    have hlt := h.isCard c hmem
    have hmod : c % 13 = i := beq_iff_eq.mp hrank
    simp only [List.mem_cons, List.not_mem_nil, or_false]
    omega
  have hle := (List.subperm_of_subset (h.nodup.filter _) hsub).length_le
  rw [List.count, ranks, List.countP_map, List.countP_eq_length_filter]
  exact hle

theorem Hand.best : Best (ranks h.cards) :=
  best_of_count_le (by rw [ranks, List.length_map, h.length_eq]) h.count_ranks_le

variable {h} {x : List Nat}

/-- The key of five of the cards scores no more than that of the seven. -/
theorem key_le (hx : x.Subperm h.cards) (hlen : x.length = 5) :
    (fiveKey (kindsOf (ranks x))).score ≤ (sevenKey (kindsOf (ranks h.cards))).score := by
  apply Key.score_le (fiveKey_small (kindsOf_small ranks_lt))
  exact h.best.le (ranks x) (ranks_subperm hx) (by rw [ranks, List.length_map, hlen])

/-- With five different ranks the seven score less than a straight by their key. -/
theorem key_lt (hx : x.Subperm h.cards) (hlen : x.length = 5) (hnodup : (ranks x).Nodup) :
    (sevenKey (kindsOf (ranks h.cards))).cat < 4 ∧ (sevenKey (kindsOf (ranks h.cards))).score < straightScore := by
  have hcat := h.best.cat_lt (ranks x) (ranks_subperm hx) (by rw [ranks, List.length_map, hlen]) hnodup
  exact ⟨hcat, Key.score_lt (sevenKey_small (kindsOf_small ranks_lt)) hcat⟩

theorem cards_lt (hx : x.Subperm h.cards) : ∀ c ∈ x, c < 52 := fun c hc => h.isCard c (hx.subset hc)

theorem cards_nodup (hx : x.Subperm h.cards) : x.Nodup := by
  obtain ⟨l, hperm, hsub⟩ := hx
  exact hperm.nodup_iff.mp (hsub.nodup h.nodup)

def ofSuit (h : List Nat) (s : Nat) : List Nat := h.filter fun c => cardSuitIdx c = s

theorem oneSuit_ofSuit {l : List Nat} {s : Nat} (hx : x.Subperm (ofSuit l s)) : OneSuit x := by
  intro c hc d hd
  have hcs := of_decide_eq_true (List.mem_filter.mp (hx.subset hc)).2
  have hds := of_decide_eq_true (List.mem_filter.mp (hx.subset hd)).2
  exact hcs.trans hds.symm

theorem OneSuit.exists_suit (hsuit : OneSuit x) (hx : x.Subperm h.cards) (hlen : x.length = 5) :
    ∃ s < 4, x.Subperm (ofSuit h.cards s) ∧ 5 ≤ (suitRanks h.cards s).length := by
  obtain ⟨c, hc⟩ := List.exists_mem_of_length_pos (by omega : 0 < x.length)
  have hlt := cards_lt hx c hc
  have hfilter : x.filter (fun d => cardSuitIdx d = cardSuitIdx c) = x :=
    List.filter_eq_self.mpr fun d hd => decide_eq_true (hsuit d hd c hc)
  have hsub : x.Subperm (ofSuit h.cards (cardSuitIdx c)) := by
    have hfil := hx.filter fun d => decide (cardSuitIdx d = cardSuitIdx c)
    rw [hfilter] at hfil
    exact hfil
  refine ⟨cardSuitIdx c, by rw [cardSuitIdx]; omega, hsub, ?_⟩
  have hle := (ranks_subperm hsub).length_le
  rw [ranks, List.length_map, hlen] at hle
  exact hle

/-- Seven cards have five of one suit only. -/
theorem suit_unique {s s' : Nat} (hs : s < 4) (hs' : s' < 4) (h5 : 5 ≤ (suitRanks h.cards s).length)
    (h5' : 5 ≤ (suitRanks h.cards s').length) : s = s' := by
  have hsum := length_eq_sum_suits h.isCard
  rw [h.length_eq] at hsum
  interval_cases s <;> interval_cases s' <;> omega

theorem isBest_noflush (h5 : ∀ s < 4, (suitRanks h.cards s).length < 5) : IsBest h.cards (sevenCardDrawScore h.cards) := by
  have hmixed : ∀ x : List Nat, x.Subperm h.cards → x.length = 5 → fiveCardDrawScore x =
      ((bestStraight (maskOf (ranks x))).map (straightScore + ·)).getD (fiveKey (kindsOf (ranks x))).score := by
    intro x hx hlen
    apply fiveCardDrawScore_mixed hlen (cards_lt hx)
    intro hsuit
    obtain ⟨s, hs, -, hge⟩ := hsuit.exists_suit hx hlen
    exact absurd (h5 s hs) (Nat.not_lt_of_le hge)
  have hlen7 : (ranks h.cards).length = 7 := by rw [ranks, List.length_map, h.length_eq]
  have hscore : sevenCardDrawScore h.cards = ((bestStraight (maskOf (ranks h.cards))).map (straightScore + ·)).getD
      (sevenKey (kindsOf (ranks h.cards))).score := by
    rw [sevenCardDrawScore_eq, sevenCardDrawFlush_none h5, sevenStraight_noflush hlen7 ranks_lt,
      sevenPaired_eq (kindsOf_small ranks_lt), if_neg (fun hf => hf.1 rfl)]
  rw [hscore]
  cases hr : bestStraight (maskOf (ranks h.cards)) with
  | some r =>
    obtain ⟨y, hy, hylen, hynodup, hyr⟩ := exists_of_straight hr
    rw [Option.map_some, Option.getD_some]
    constructor
    · intro x hx hlen
      rw [hmixed x hx hlen]
      cases hxr : bestStraight (maskOf (ranks x)) with
      | some q =>
        obtain ⟨r', hr', hle⟩ := bestStraight_mono (maskOf_subset (ranks_subperm hx).subset) hxr
        rw [Option.map_some, Option.getD_some]
        exact Nat.add_le_add_left (hle.trans (Option.some.inj (hr'.symm.trans hr)).le) _
      | none =>
        have hkey := key_le hx hlen
        have hlt := (key_lt hy hylen hynodup).2
        rw [Option.map_none, Option.getD_none]
        omega
    · exact ⟨y, hy, hylen, by rw [hmixed y hy hylen, hyr]; rfl⟩
  | none =>
    have hnone : ∀ x : List Nat, x.Subperm h.cards → bestStraight (maskOf (ranks x)) = none :=
      fun x hx => bestStraight_none (maskOf_subset (ranks_subperm hx).subset) hr
    rw [Option.map_none, Option.getD_none]
    constructor
    · intro x hx hlen
      rw [hmixed x hx hlen, hnone x hx]
      exact key_le hx hlen
    · obtain ⟨rs, hrs, hlen, hkey⟩ := h.best.attained
      obtain ⟨x, hx, hperm⟩ := exists_of_subperm_map hrs
      have hxlen : x.length = 5 := by rw [← hlen, hperm.length_eq, List.length_map]
      refine ⟨x, hx, hxlen, ?_⟩
      rw [hmixed x hx hxlen, hnone x hx, Option.map_none, Option.getD_none, ← hkey, kindsOf_perm hperm]
      rfl

section Suit
variable {s : Nat}

theorem ofSuit_subperm (l : List Nat) (s : Nat) : (ofSuit l s).Subperm l := List.filter_sublist.subperm

private theorem score_ofSuit (hx : x.Subperm (ofSuit h.cards s)) (hlen : x.length = 5) : fiveCardDrawScore x =
    ((bestStraight (maskOf (ranks x))).map (straightFlushScore + ·)).getD (flushScore + maskOf (ranks x)) := by
  have hxh := hx.trans (ofSuit_subperm h.cards s)
  exact fiveCardDrawScore_oneSuit hlen (cards_lt hxh) (cards_nodup hxh) (oneSuit_ofSuit hx)

private theorem straight_ofSuit (hx : x.Subperm (ofSuit h.cards s)) {r : Nat} (hr : bestStraight (maskOf (ranks x)) = some r) :
    ∃ r', bestStraight (maskOf (suitRanks h.cards s)) = some r' ∧ r ≤ r' :=
  bestStraight_mono (maskOf_subset (ranks_subperm hx).subset) hr

/-- With five cards of one suit the ranks alone score less than a straight. -/
theorem key_lt_of_suit (h5 : 5 ≤ (suitRanks h.cards s).length) : (sevenKey (kindsOf (ranks h.cards))).cat < 4 ∧
    (sevenKey (kindsOf (ranks h.cards))).score < straightScore := by
  have hy : ((ofSuit h.cards s).take 5).Subperm (ofSuit h.cards s) := (List.take_sublist 5 _).subperm
  have hyh := hy.trans (ofSuit_subperm h.cards s)
  rw [suitRanks, List.length_map] at h5
  exact key_lt hyh (List.length_take_of_le h5) ((oneSuit_ofSuit hy).ranks_nodup (cards_nodup hyh))

/-- Five cards of one suit score at least a flush, and the straight flush counts. -/
theorem score_of_suit (hs : s < 4) (h5 : 5 ≤ (suitRanks h.cards s).length) : sevenCardDrawScore h.cards =
    ((bestStraight (maskOf (suitRanks h.cards s))).map (straightFlushScore + ·)).getD
      (flushScore + maskOf (topFive (suitRanks h.cards s))) := by
  obtain ⟨hflush, hand, hf⟩ := flush_of_suit h.length_eq h.nodup h.isCard hs h5
  have hlen7 : (ranks h.cards).length = 7 := by rw [ranks, List.length_map, h.length_eq]
  have hsub : maskOf (suitRanks h.cards s) &&& maskOf (ranks h.cards) = maskOf (suitRanks h.cards s) :=
    maskOf_subset (ranks_subperm (ofSuit_subperm h.cards s)).subset
  rw [sevenCardDrawScore_eq, sevenStraight_flush hlen7 ranks_lt hf hsub hand, hflush]
  cases hr : bestStraight (maskOf (ranks h.cards)) with
  | some r => rw [Option.map_some, Option.getD_some]
  | none =>
    have hrs : bestStraight (maskOf (suitRanks h.cards s)) = none := bestStraight_none hsub hr
    have hcat := (key_lt_of_suit h5).1
    rw [hrs, Option.map_none, Option.getD_none, Option.map_none, Option.getD_none, sevenPaired_eq (kindsOf_small ranks_lt),
      if_pos ⟨hf, hcat⟩, hflush]

theorem isBest_flush (hs : s < 4) (h5 : 5 ≤ (suitRanks h.cards s).length) :
    IsBest h.cards (sevenCardDrawScore h.cards) := by
  have hstraight : straightScore = 4 * 2^27 := by decide
  have hflush : flushScore = 5 * 2^27 := by decide
  have hstraightFlush : straightFlushScore = 8 * 2^27 := by decide
  have htop : maskOf (topFive (suitRanks h.cards s)) < 2^13 :=
    maskOf_lt fun r hr => suitRanks_lt r ((topFive_subperm _).subset hr)
  rw [score_of_suit hs h5]
  constructor
  · intro x hx hlen
    by_cases hsuit : OneSuit x
    · obtain ⟨s', hs', hxs, h5'⟩ := hsuit.exists_suit hx hlen
      rw [suit_unique hs' hs h5' h5] at hxs
      rw [score_ofSuit hxs hlen]
      cases hxr : bestStraight (maskOf (ranks x)) with
      | some q =>
        obtain ⟨r, hr, hle⟩ := straight_ofSuit hxs hxr
        rw [hr, Option.map_some, Option.map_some, Option.getD_some, Option.getD_some]
        exact Nat.add_le_add_left hle _
      | none =>
        have hle := le_topFive (suitRanks_nodup h.nodup) (ranks_subperm hxs) (by rw [ranks, List.length_map, hlen])
        rw [Option.map_none, Option.getD_none]
        cases bestStraight (maskOf (suitRanks h.cards s)) with
        | some r =>
          have hx13 : maskOf (ranks x) < 2^13 := maskOf_lt ranks_lt
          rw [Option.map_some, Option.getD_some]
          omega
        | none =>
          rw [Option.map_none, Option.getD_none]
          exact Nat.add_le_add_left hle _
    · have hresult : flushScore ≤ ((bestStraight (maskOf (suitRanks h.cards s))).map (straightFlushScore + ·)).getD
          (flushScore + maskOf (topFive (suitRanks h.cards s))) := by
        cases bestStraight (maskOf (suitRanks h.cards s)) with
        | some r =>
          rw [Option.map_some, Option.getD_some]
          omega
        | none => exact Nat.le_add_right _ _
      apply Nat.le_trans _ hresult
      rw [fiveCardDrawScore_mixed hlen (cards_lt hx) hsuit]
      cases hxr : bestStraight (maskOf (ranks x)) with
      | some q =>
        have hlt := bestStraight_lt hxr
        rw [Option.map_some, Option.getD_some]
        omega
      | none =>
        have hkey := key_le hx hlen
        have hlt := (key_lt_of_suit h5).2
        rw [Option.map_none, Option.getD_none]
        omega
  · cases hr : bestStraight (maskOf (suitRanks h.cards s)) with
    | some r =>
      obtain ⟨x, hx, hlen, -, hxr⟩ := exists_of_straight (h := ofSuit h.cards s) hr
      exact ⟨x, hx.trans (ofSuit_subperm h.cards s), hlen, by rw [score_ofSuit hx hlen, hxr]; rfl⟩
    | none =>
      obtain ⟨x, hx, hperm⟩ := exists_of_subperm_map (topFive_subperm (suitRanks h.cards s))
      have hlen : x.length = 5 := by
        have heq := hperm.length_eq
        rw [topFive_length h5, List.length_map] at heq
        exact heq.symm
      have hxr : bestStraight (maskOf (ranks x)) = none :=
        bestStraight_none (maskOf_subset (ranks_subperm hx).subset) hr
      refine ⟨x, hx.trans (ofSuit_subperm h.cards s), hlen, ?_⟩
      rw [score_ofSuit hx hlen, hxr, maskOf_perm hperm]
      rfl

end Suit

variable (h) in
theorem isBest_fast : IsBest h.cards (sevenCardDrawScore h.cards) := by
  by_cases hflush : ∃ s < 4, 5 ≤ (suitRanks h.cards s).length
  · obtain ⟨s, hs, h5⟩ := hflush
    exact isBest_flush hs h5
  · push Not at hflush
    exact isBest_noflush hflush

end Fast

/-- The two evaluators agree, and the order of the cards does not matter. -/
theorem sevenCardDrawScore_eq_slow (h : Hand) : sevenCardDrawScore h.cards = sevenCardDrawScoreSlow h.cards ∧
    ∀ h' : Hand, h.cards.Perm h'.cards → sevenCardDrawScore h'.cards = sevenCardDrawScore h.cards :=
  ⟨(isBest_fast h).unique (isBest_slow h.length_eq),
    fun h' hperm => (isBest_fast h').unique ((isBest_fast h).perm hperm)⟩

/-- The bicycle in clubs, with two aces more, and the same cards dealt the other way round. -/
theorem sevenCardDrawScore_eq_slow_bicycle :
    sevenCardDrawScore [0, 1, 2, 3, 12, 25, 38] = sevenCardDrawScoreSlow [0, 1, 2, 3, 12, 25, 38] ∧
      sevenCardDrawScore [38, 25, 12, 3, 2, 1, 0] = sevenCardDrawScore [0, 1, 2, 3, 12, 25, 38] :=
  have hands := sevenCardDrawScore_eq_slow ⟨[0, 1, 2, 3, 12, 25, 38], rfl, by decide, by decide⟩
  ⟨hands.1, hands.2 ⟨[38, 25, 12, 3, 2, 1, 0], rfl, by decide, by decide⟩ (by decide)⟩

end SuperNet.Games.Poker
