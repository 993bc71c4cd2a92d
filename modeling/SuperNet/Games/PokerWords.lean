import SuperNet.Games.PokerKinds

/-! The word operations of poker.c on masks of ranks, and what the parts of the two evaluators for hands without runs
return: the scores of the keys. -/
namespace SuperNet.Games.Poker
open Lib.Masks

theorem ripLow_eq {x : Nat} (h : x < 2^32) : ripLow x = rip x := by
  rw [ripLow, rip, sub32]
  obtain rfl | hx := Nat.eq_zero_or_pos x
  · rw [Nat.zero_and, Nat.zero_and]
  · rw [show (x + (2^32 - 1)) % 2^32 = x - 1 by omega]

theorem and_not32 {x y : Nat} (hx : x < 2^32) (hy : y < 2^32) : x &&& not32 y = diff x y := by
  apply Nat.eq_of_testBit_eq
  intro i
  rw [testBit_diff, Nat.testBit_and, not32, show 2^32 - 1 - y = 2^32 - (y + 1) by omega, Nat.testBit_two_pow_sub_succ hy]
  by_cases hi : i < 32
  · rw [decide_eq_true hi, Bool.true_and]
  · rw [Nat.testBit_lt_two_pow (hx.trans_le (Nat.pow_le_pow_right (by omega) (by omega))), Bool.false_and, Bool.false_and]

theorem shl32_eq {x n : Nat} (h : x * 2^n < 2^32) : shl32 x n = x * 2^n := by
  rw [shl32, Nat.shiftLeft_eq, Nat.mod_eq_of_lt h]

theorem shl32_subrShl {x : Nat} (h : x < 2^13) : shl32 x subrShl = x * 2^13 := by
  have hlt : x * 2^13 < 2^32 := by omega
  exact shl32_eq hlt

theorem diff_le (x y : Nat) : diff x y ≤ x := by
  have hand : diff x y &&& x = diff x y := by
    apply and_eq_of_testBit
    intro i hi
    rw [testBit_diff, Bool.and_eq_true] at hi
    exact hi.1
  rw [← hand]
  exact Nat.and_le_right

/-- Masks of the 13 ranks. -/
structure Kinds.Small (m : Kinds) : Prop where
  m1 : m.m1 < 2^13
  m2 : m.m2 < 2^13
  m3 : m.m3 < 2^13
  m4 : m.m4 < 2^13

theorem kindsOf_small {rs : List Nat} (h : ∀ r ∈ rs, r < 13) : (kindsOf rs).Small := by
  have hcounts := counts_kindsOf rs
  have hzero : ∀ i ≥ 13, rs.count i = 0 := fun i hi => List.count_eq_zero.mpr fun hmem => absurd (h i hmem) (by omega)
  constructor
  · apply Nat.lt_pow_two_of_testBit
    intro i hi
    rw [hcounts.m1, hzero i hi]
    rfl
  · apply Nat.lt_pow_two_of_testBit
    intro i hi
    rw [hcounts.m2, hzero i hi]
    rfl
  · apply Nat.lt_pow_two_of_testBit
    intro i hi
    rw [hcounts.m3, hzero i hi]
    rfl
  · apply Nat.lt_pow_two_of_testBit
    intro i hi
    rw [hcounts.m4, hzero i hi]
    rfl

theorem kinds_cardMask (h : List Nat) : kinds (h.map cardMask) = kindsOf (h.map cardValue) := by
  rw [kindsOf, List.map_map]
  congr 1
  apply List.map_congr_left
  intro c _
  exact Nat.one_shiftLeft _

section
variable (cat a b : Nat)

private theorem score_mk : Key.score ⟨cat, a, b⟩ = cat * 2^27 + a * 2^13 + b := rfl
private theorem twoKindScore_eq : twoKindScore = 1 * 2^27 := by decide
private theorem twoPairScore_eq : twoPairScore = 2 * 2^27 := by decide
private theorem threeKindScore_eq : threeKindScore = 3 * 2^27 := by decide
private theorem fullHouseScore_eq : fullHouseScore = 6 * 2^27 := by decide
private theorem fourKindScore_eq : fourKindScore = 7 * 2^27 := by decide

end

theorem fivePaired_eq {m : Kinds} (hm : m.Small) (h2 : m.m2 ≠ 0) : fivePaired m = (fiveKey m).score := by
  obtain ⟨h1, h2', h3, h4⟩ := hm
  have hd := diff_le m.m2 m.m3
  have hrip : ripLow m.m2 = rip m.m2 := ripLow_eq (by omega)
  have hm1 : m.m1 &&& not32 m.m2 = diff m.m1 m.m2 := and_not32 (by omega) (by omega)
  have hm2 : m.m2 &&& not32 m.m3 = diff m.m2 m.m3 := and_not32 (by omega) (by omega)
  have hs2 := shl32_subrShl h2'
  have hs3 := shl32_subrShl h3
  have hs4 := shl32_subrShl h4
  simp only [fivePaired, fiveKey, hrip, hm1, hm2, hs2, hs3, hs4, if_neg h2, apply_ite Key.score, score_mk, twoKindScore_eq,
    twoPairScore_eq, threeKindScore_eq, fullHouseScore_eq, fourKindScore_eq]
  split_ifs <;> rfl

theorem topLoop_eq {n x : Nat} (h : x < 2^32) : topLoop n x = top n x := by
  induction n generalizing x with
  | zero => rfl
  | succ n ih =>
    rw [topLoop, top, ripLow_eq h]
    split
    · exact ih ((rip_le x).trans_lt h)
    · rfl

/-- For a flush mask `f` the flush is returned unless the ranks give more. -/
theorem sevenPaired_eq {m : Kinds} (hm : m.Small) (f : Nat) :
    sevenPaired m f = if f ≠ 0 ∧ (sevenKey m).cat < 4 then sevenCardDrawFlushScore f else (sevenKey m).score := by
  obtain ⟨h1, h2, h3, h4⟩ := hm
  have hd12 := diff_le m.m1 m.m2
  have hd23 := diff_le m.m2 m.m3
  have hd24 := diff_le m.m2 m.m4
  have hr2 := rip_le m.m2
  have hr3 := rip_le m.m3
  have hrr2 := rip_le (rip m.m2)
  have hr12 := rip_le (diff m.m1 m.m2)
  have hor : diff m.m1 m.m2 ||| diff m.m2 m.m4 < 2^13 := Nat.or_lt_two_pow (by omega) (by omega)
  have hxor : diff m.m1 m.m2 ||| (m.m2 ^^^ rip m.m2) < 2^13 :=
    Nat.or_lt_two_pow (by omega) (Nat.xor_lt_two_pow (by omega) (by omega))
  have hm1 : m.m1 &&& not32 m.m2 = diff m.m1 m.m2 := and_not32 (by omega) (by omega)
  have hm3 : m.m2 &&& not32 m.m3 = diff m.m2 m.m3 := and_not32 (by omega) (by omega)
  have hm4 : m.m2 &&& not32 m.m4 = diff m.m2 m.m4 := and_not32 (by omega) (by omega)
  have hl2 : ripLow m.m2 = rip m.m2 := ripLow_eq (by omega)
  have hl3 : ripLow m.m3 = rip m.m3 := ripLow_eq (by omega)
  have hll2 : ripLow (rip m.m2) = rip (rip m.m2) := ripLow_eq (by omega)
  have hl12 : ripLow (diff m.m1 m.m2) = rip (diff m.m1 m.m2) := ripLow_eq (by omega)
  have hll12 : ripLow (rip (diff m.m1 m.m2)) = rip (rip (diff m.m1 m.m2)) := ripLow_eq (by omega)
  have hl23 : ripLow (diff m.m2 m.m3) = rip (diff m.m2 m.m3) := ripLow_eq (by omega)
  have hlx : ripLow (diff m.m1 m.m2 ||| (m.m2 ^^^ rip m.m2)) = rip (diff m.m1 m.m2 ||| (m.m2 ^^^ rip m.m2)) :=
    ripLow_eq (by omega)
  have htop : topLoop 31 (diff m.m1 m.m2 ||| diff m.m2 m.m4) = top 31 (diff m.m1 m.m2 ||| diff m.m2 m.m4) :=
    topLoop_eq (by omega)
  have hs2 := shl32_subrShl h2
  have hs3 := shl32_subrShl h3
  have hs4 := shl32_subrShl h4
  have hsr2 : shl32 (rip m.m2) subrShl = rip m.m2 * 2^13 := shl32_subrShl (by omega)
  have hsr3 : shl32 (rip m.m3) subrShl = rip m.m3 * 2^13 := shl32_subrShl (by omega)
  simp only [sevenPaired, sevenKey, hm1, hm3, hm4, hl2, hl3, hll2, hl12, hll12, hl23, htop, hs3, hs4, hsr3]
  by_cases h30 : m.m3 = 0
  · simp only [if_pos h30]
    by_cases hf : f = 0
    · simp only [hf, ne_eq, not_true_eq_false, false_and, if_false]
      by_cases h20 : m.m2 = 0
      · rw [if_neg (not_not_intro h20), if_pos h20, score_mk]
        omega
      · rw [if_pos h20, if_neg h20]
        by_cases hr0 : rip m.m2 = 0
        · simp only [if_pos hr0, hs2, score_mk, twoKindScore_eq]
        · simp only [if_neg hr0]
          by_cases hrr0 : rip (rip m.m2) = 0
          · simp only [hrr0, not_true_eq_false, if_false, if_true, hll12, hs2, score_mk, twoPairScore_eq]
          · simp only [hrr0, not_false_eq_true, if_true, if_false, hlx, hsr2, score_mk, twoPairScore_eq]
    · have hcat : (sevenKey m).cat < 4 := by
        rw [sevenKey, if_pos h30]
        split_ifs <;> simp
      rw [sevenKey, if_pos h30] at hcat
      rw [if_pos hf, if_pos ⟨hf, hcat⟩]
  · simp only [if_neg h30]
    by_cases h40 : m.m4 = 0
    · simp only [h40, ne_eq, not_true_eq_false, if_false]
      by_cases h230 : diff m.m2 m.m3 = 0
      · simp only [if_pos h230]
        by_cases hr0 : rip m.m3 = 0
        · by_cases hf : f = 0
          · simp only [hr0, hf, not_true_eq_false, if_false, if_true, false_and, score_mk, threeKindScore_eq]
          · simp only [hr0, hf, not_true_eq_false, not_false_eq_true, if_false, if_true, true_and]
            rfl
        · simp only [hr0, not_false_eq_true, if_true, if_false]
          simp only [show ¬(6 : Nat) < 4 by decide, and_false, if_false, score_mk, fullHouseScore_eq]
      · simp only [if_neg h230]
        simp only [show ¬(6 : Nat) < 4 by decide, and_false, if_false, score_mk, fullHouseScore_eq]
    · simp only [h40, ne_eq, not_false_eq_true, if_true]
      simp only [show ¬(7 : Nat) < 4 by decide, and_false, if_false, score_mk, fourKindScore_eq]

end SuperNet.Games.Poker
