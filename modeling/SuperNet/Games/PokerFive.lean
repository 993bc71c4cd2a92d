import SuperNet.Games.PokerFlush
import SuperNet.Games.PokerStraights

/-! What `FiveCardDrawScore` returns: a straight, a flush or both are scored by their ranks, and every other hand by
its key. -/
namespace SuperNet.Games.Poker
open Lib.Masks

def ranks (h : List Nat) : List Nat := h.map cardValue

def OneSuit (x : List Nat) : Prop := ∀ c ∈ x, ∀ d ∈ x, cardSuitIdx c = cardSuitIdx d

instance instDecidableOneSuit (x : List Nat) : Decidable (OneSuit x) := inferInstanceAs (Decidable (∀ c ∈ x, ∀ d ∈ x, _))

section
variable {h x : List Nat}

theorem ranks_lt : ∀ r ∈ ranks h, r < 13 := by
  intro r hr
  obtain ⟨c, -, rfl⟩ := List.mem_map.mp hr
  exact Nat.mod_lt c (by decide)

theorem ranks_subperm (hx : x.Subperm h) : (ranks x).Subperm (ranks h) := by
  obtain ⟨l, hperm, hsub⟩ := hx
  exact ⟨ranks l, hperm.map cardValue, hsub.map cardValue⟩

theorem or_cardMask (h : List Nat) : (h.map cardMask).foldl (fun t c => t ||| c) 0 = maskOf (ranks h) := by
  rw [maskOf, ranks, List.foldl_map, List.foldl_map]
  simp only [cardMask, cardValue, Nat.one_shiftLeft]

theorem or_cardSuit (x : List Nat) : x.foldl (fun u c => u ||| cardSuit c) 0 = maskOf (x.map cardSuitIdx) := by
  rw [maskOf, List.foldl_map]
  simp only [cardSuit, cardSuitIdx, Nat.one_shiftLeft]

theorem ripLow_suits (hcard : ∀ c ∈ x, c < 52) : ripLow (maskOf (x.map cardSuitIdx)) = 0 ↔ OneSuit x := by
  have hlt : maskOf (x.map cardSuitIdx) < 2^4 := by
    apply maskOf_lt
    intro s hs
    obtain ⟨c, hc, rfl⟩ := List.mem_map.mp hs
    have := hcard c hc
    rw [cardSuitIdx]
    omega
  rw [ripLow_eq (by omega), rip_eq_zero_iff]
  simp only [testBit_maskOf, decide_eq_true_eq, List.mem_map]
  constructor
  · intro h c hc d hd
    exact h _ _ ⟨c, hc, rfl⟩ ⟨d, hd, rfl⟩
  · rintro h _ _ ⟨c, hc, rfl⟩ ⟨d, hd, rfl⟩
    exact h c hc d hd

theorem OneSuit.ranks_nodup (hsuit : OneSuit x) (hx : x.Nodup) : (ranks x).Nodup :=
  hx.map_on fun c hc d hd hrank => rank_injOn (hsuit c hc d hd) hrank

/-- The key of different ranks. -/
theorem score_of_nodup {rs : List Nat} (h : rs.Nodup) : (fiveKey (kindsOf rs)).score = maskOf rs := by
  rw [fiveKey, if_pos (kindsOf_m2_eq_zero.mpr h), kindsOf_m1, Key.score]
  dsimp only
  omega

theorem fiveCardDrawScore_eq (x : List Nat) : fiveCardDrawScore x =
    if (kindsOf (ranks x)).m2 = 0 then fiveDistinct (maskOf (ranks x)) (ripLow (maskOf (x.map cardSuitIdx)))
    else fivePaired (kindsOf (ranks x)) := by
  rw [fiveCardDrawScore, or_cardSuit, fiveCardDrawScoreFast, kinds_cardMask, ← kindsOf_m1 (ranks x)]
  rfl

theorem fiveCardDrawScore_distinct (hx : (ranks x).Nodup) :
    fiveCardDrawScore x = fiveDistinct (maskOf (ranks x)) (ripLow (maskOf (x.map cardSuitIdx))) := by
  rw [fiveCardDrawScore_eq, if_pos (kindsOf_m2_eq_zero.mpr hx)]

theorem fiveCardDrawScore_paired (hx : ¬ (ranks x).Nodup) : fiveCardDrawScore x = (fiveKey (kindsOf (ranks x))).score := by
  have h2 : (kindsOf (ranks x)).m2 ≠ 0 := fun h => hx (kindsOf_m2_eq_zero.mp h)
  rw [fiveCardDrawScore_eq, if_neg h2]
  exact fivePaired_eq (kindsOf_small ranks_lt) h2

theorem fiveCardDrawScore_oneSuit (hlen : x.length = 5) (hcard : ∀ c ∈ x, c < 52) (hx : x.Nodup) (hsuit : OneSuit x) :
    fiveCardDrawScore x =
      ((bestStraight (maskOf (ranks x))).map (straightFlushScore + ·)).getD (flushScore + maskOf (ranks x)) := by
  have hlen' : (ranks x).length = 5 := by rw [ranks, List.length_map, hlen]
  have hzero := (ripLow_suits hcard).mpr hsuit
  rw [fiveCardDrawScore_distinct (hsuit.ranks_nodup hx), hzero]
  cases hr : bestStraight (maskOf (ranks x)) with
  | some r => rw [fiveDistinct_straight hlen' hr, if_neg (not_not_intro rfl), Option.map_some, Option.getD_some]
  | none => rw [fiveDistinct_other hlen' ranks_lt hr, if_neg (not_not_intro rfl), Option.map_none, Option.getD_none]

theorem fiveCardDrawScore_mixed (hlen : x.length = 5) (hcard : ∀ c ∈ x, c < 52) (hsuit : ¬ OneSuit x) :
    fiveCardDrawScore x =
      ((bestStraight (maskOf (ranks x))).map (straightScore + ·)).getD (fiveKey (kindsOf (ranks x))).score := by
  have hlen' : (ranks x).length = 5 := by rw [ranks, List.length_map, hlen]
  have hne := mt (ripLow_suits hcard).mp hsuit
  cases hr : bestStraight (maskOf (ranks x)) with
  | some r =>
    obtain ⟨p, hp, hsub, -⟩ := bestStraight_some hr
    rw [fiveCardDrawScore_distinct (perm_of_straight hlen' hp hsub).1, fiveDistinct_straight hlen' hr, if_pos hne,
      Option.map_some, Option.getD_some]
  | none =>
    rw [Option.map_none, Option.getD_none]
    by_cases hnodup : (ranks x).Nodup
    · rw [fiveCardDrawScore_distinct hnodup, fiveDistinct_other hlen' ranks_lt hr, if_pos hne, score_of_nodup hnodup]
    · exact fiveCardDrawScore_paired hnodup

theorem fiveCardDrawScore_perm {y : List Nat} (h : x.Perm y) : fiveCardDrawScore x = fiveCardDrawScore y := by
  rw [fiveCardDrawScore_eq, fiveCardDrawScore_eq, ranks, ranks, kindsOf_perm (h.map cardValue), maskOf_perm (h.map cardValue),
    maskOf_perm (h.map cardSuitIdx)]

end

end SuperNet.Games.Poker
