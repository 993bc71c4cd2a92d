import SuperNet.Games.PokerWords
import Mathlib.Data.List.Sort

/-! The flush of seven cards: `SevenCardDrawFlush` counts the cards of each suit and keeps the ranks of the suit that
has at least five, with the highest five of them above. -/
namespace SuperNet.Games.Poker
open Lib.Masks Lib.Words

def suitRanks (h : List Nat) (s : Nat) : List Nat := (h.filter fun c => cardSuitIdx c = s).map cardValue

section Count
variable {h : List Nat} {s : Nat}

theorem suitRanks_cons (c : Nat) (h : List Nat) (s : Nat) :
    suitRanks (c :: h) s = if cardSuitIdx c = s then cardValue c :: suitRanks h s else suitRanks h s := by
  rw [suitRanks, List.filter_cons]
  by_cases hs : cardSuitIdx c = s
  · rw [if_pos (decide_eq_true hs), if_pos hs, List.map_cons, suitRanks]
  · rw [if_neg (fun ht => hs (of_decide_eq_true ht)), if_neg hs, suitRanks]

theorem suitRanks_lt : ∀ r ∈ suitRanks h s, r < 13 := by
  intro r hr
  obtain ⟨c, -, rfl⟩ := List.mem_map.mp hr
  exact Nat.mod_lt c (by decide)

theorem rank_injOn {c d : Nat} (hsuit : cardSuitIdx c = cardSuitIdx d) (hrank : cardValue c = cardValue d) : c = d := by
  rw [cardSuitIdx, cardSuitIdx] at hsuit
  rw [cardValue, cardValue] at hrank
  omega

theorem suitRanks_nodup (hh : h.Nodup) : (suitRanks h s).Nodup := by
  apply (hh.filter _).map_on
  intro c hc d hd hrank
  have hcs := of_decide_eq_true (List.mem_filter.mp hc).2
  have hds := of_decide_eq_true (List.mem_filter.mp hd).2
  exact rank_injOn (hcs.trans hds.symm) hrank

/-- The fold of `SevenCardDrawFlush` collects the ranks of each suit and counts down for each card. -/
theorem suits_fold (h : List Nat) (S : Suits) (s : Nat) :
    (h.foldl Suits.add S).f s = S.f s ||| maskOf (suitRanks h s) ∧
      (h.foldl Suits.add S).cc s = S.cc s - (suitRanks h s).length := by
  induction h generalizing S with
  | nil => exact ⟨(Nat.or_zero _).symm, (sub_zero _).symm⟩
  | cons c h ih =>
    obtain ⟨hf, hcc⟩ := ih (S.add c)
    rw [List.foldl_cons, hf, hcc, suitRanks_cons]
    dsimp only [Suits.add]
    by_cases hs : cardSuitIdx c = s
    · subst hs
      have hmask : maskOf (cardValue c :: suitRanks h (cardSuitIdx c)) = cardMask c ||| maskOf (suitRanks h (cardSuitIdx c)) := by
        rw [← List.singleton_append, maskOf_append, cardMask, Nat.one_shiftLeft]
        rw [maskOf, List.foldl_cons, List.foldl_nil, Nat.zero_or, cardValue]
      rw [if_pos rfl, hmask, List.length_cons, Function.update_self, Function.update_self, Nat.or_assoc]
      exact ⟨rfl, by push_cast; ring⟩
    · rw [if_neg hs, Function.update_of_ne (Ne.symm hs), Function.update_of_ne (Ne.symm hs)]
      exact ⟨rfl, rfl⟩

theorem length_eq_sum_suits (hcard : ∀ c ∈ h, c < 52) : h.length =
    (suitRanks h 0).length + (suitRanks h 1).length + (suitRanks h 2).length + (suitRanks h 3).length := by
  induction h with
  | nil => rfl
  | cons c h ih =>
    have hc := hcard c List.mem_cons_self
    have hs : cardSuitIdx c = 0 ∨ cardSuitIdx c = 1 ∨ cardSuitIdx c = 2 ∨ cardSuitIdx c = 3 := by
      rw [cardSuitIdx]
      omega
    rw [List.length_cons, ih fun d hd => hcard d (List.mem_cons_of_mem c hd)]
    simp only [suitRanks_cons]
    obtain hs | hs | hs | hs := hs <;> simp only [hs] <;> simp <;> omega

end Count

private theorem suit_bit {z : Int} (hz : -3 ≤ z) (hz' : z ≤ 4) :
    unsigned 32 z &&& 8 = (if z < 0 then 8 else 0) ∧ unsigned 32 z &&& 16 = (if z < 0 then 16 else 0) ∧
      unsigned 32 z &&& 32 = (if z < 0 then 32 else 0) ∧ unsigned 32 z &&& 64 = (if z < 0 then 64 else 0) := by
  interval_cases z <;> decide

section Flush
variable {h : List Nat}

/-- Fewer than five cards of each suit are no flush. -/
theorem sevenCardDrawFlush_none (h5 : ∀ s < 4, (suitRanks h s).length < 5) : sevenCardDrawFlush h = 0 := by
  have hcc : ∀ s < 4, ¬ (h.foldl Suits.add ⟨fun _ => 0, fun _ => 4⟩).cc s < 0 := by
    intro s hs
    have hlt := h5 s hs
    rw [(suits_fold h _ s).2]
    dsimp only
    omega
  rw [sevenCardDrawFlush]
  simp only [hcc 0 (by decide), hcc 1 (by decide), hcc 2 (by decide), hcc 3 (by decide), or_self, if_false]

/-- The suit of at least five cards is found. -/
theorem sevenCardDrawFlush_some (hlen : h.length = 7) (hcard : ∀ c ∈ h, c < 52) {s : Nat} (hs : s < 4)
    (h5 : 5 ≤ (suitRanks h s).length) : sevenCardDrawFlush h = maskOf (suitRanks h s) |||
      shl32 (ripTimes ((suitRanks h s).length - 5) (maskOf (suitRanks h s))) subrShl := by
  have hsum := length_eq_sum_suits hcard
  have hf : (h.foldl Suits.add ⟨fun _ => 0, fun _ => 4⟩).f s = maskOf (suitRanks h s) := by
    rw [(suits_fold h _ s).1, Nat.zero_or]
  have hcc : ∀ i, (h.foldl Suits.add ⟨fun _ => 0, fun _ => 4⟩).cc i = 4 - ((suitRanks h i).length : Int) :=
    fun i => (suits_fold h _ i).2
  have hcount : (-1 - (4 - ((suitRanks h s).length : Int))).toNat = (suitRanks h s).length - 5 := by omega
  rw [sevenCardDrawFlush]
  generalize h.foldl Suits.add ⟨fun _ => 0, fun _ => 4⟩ = suits at hf hcc ⊢
  have hbits := fun i (hi : (suitRanks h i).length ≤ 7) => suit_bit (z := suits.cc i) (by rw [hcc]; omega) (by rw [hcc]; omega)
  have hneg : ∀ i < 4, suits.cc i < 0 ↔ i = s := by
    intro i hi
    rw [hcc]
    constructor
    · intro hlt
      interval_cases i <;> interval_cases s <;> omega
    · rintro rfl
      omega
  have hfound : (lg2tab.getD ((unsigned 32 (suits.cc 0) &&& 8 ||| unsigned 32 (suits.cc 1) &&& 16 |||
      unsigned 32 (suits.cc 2) &&& 32 ||| unsigned 32 (suits.cc 3) &&& 64) >>> 3) 0).toNat = s := by
    rw [(hbits 0 (by omega)).1, (hbits 1 (by omega)).2.1, (hbits 2 (by omega)).2.2.1, (hbits 3 (by omega)).2.2.2]
    simp only [hneg 0 (by decide), hneg 1 (by decide), hneg 2 (by decide), hneg 3 (by decide)]
    interval_cases s <;> decide
  have hsome : suits.cc 0 < 0 ∨ suits.cc 1 < 0 ∨ suits.cc 2 < 0 ∨ suits.cc 3 < 0 := by
    rw [hneg 0 (by decide), hneg 1 (by decide), hneg 2 (by decide), hneg 3 (by decide)]
    omega
  rw [if_pos hsome]
  dsimp only
  rw [hfound, hf, hcc, hcount]

/-- Ripping off the last bits leaves the highest. -/
theorem ripTimes_maskOf {n : Nat} {l : List Nat} (hl : l.Pairwise (· < ·)) (hlt : ∀ r ∈ l, r < 32) :
    ripTimes n (maskOf l) = maskOf (l.drop n) := by
  induction n generalizing l with
  | zero => rfl
  | succ n ih =>
    have hrip : ripLow (maskOf l) = rip (maskOf l) := ripLow_eq (maskOf_lt hlt)
    rw [ripTimes, hrip]
    cases l with
    | nil =>
      have hnil := ih List.Pairwise.nil hlt
      rw [List.drop_nil] at hnil ⊢
      exact hnil
    | cons r l =>
      rw [rip_maskOf_cons hl, List.drop_succ_cons]
      exact ih (List.pairwise_cons.mp hl).2 fun b hb => hlt b (List.mem_cons_of_mem r hb)

/-- The highest five of the ranks of a suit. -/
def topFive (rs : List Nat) : List Nat := (rs.insertionSort (· ≤ ·)).drop (rs.length - 5)

section Top
variable {rs : List Nat}

private theorem sorted_ranks (hrs : rs.Nodup) : (rs.insertionSort (· ≤ ·)).Pairwise (· < ·) := by
  have hle := rs.pairwise_insertionSort (· ≤ ·)
  have hne : (rs.insertionSort (· ≤ ·)).Pairwise (· ≠ ·) := (rs.perm_insertionSort (· ≤ ·)).nodup_iff.mpr hrs
  exact (hle.and hne).imp fun h => Nat.lt_of_le_of_ne h.1 h.2

theorem topFive_subperm (rs : List Nat) : (topFive rs).Subperm rs :=
  (List.drop_sublist _ _).subperm.trans (rs.perm_insertionSort (· ≤ ·)).subperm

theorem topFive_length (h5 : 5 ≤ rs.length) : (topFive rs).length = 5 := by
  rw [topFive, List.length_drop, List.length_insertionSort]
  omega

theorem le_topFive (hrs : rs.Nodup) {d : List Nat} (hd : d.Subperm rs) (hlen : d.length = 5) :
    maskOf d ≤ maskOf (topFive rs) := by
  obtain ⟨d', hperm, hsub⟩ := hd.trans (rs.perm_insertionSort (· ≤ ·)).symm.subperm
  have hle := maskOf_le_drop hsub (sorted_ranks hrs)
  rw [hperm.length_eq, hlen, List.length_insertionSort] at hle
  rw [← maskOf_perm hperm]
  exact hle

theorem ripTimes_topFive (hrs : rs.Nodup) (h13 : ∀ r ∈ rs, r < 13) :
    ripTimes (rs.length - 5) (maskOf rs) = maskOf (topFive rs) := by
  have hperm := rs.perm_insertionSort (· ≤ ·)
  rw [← maskOf_perm hperm, topFive]
  apply ripTimes_maskOf (sorted_ranks hrs)
  intro r hr
  have := h13 r (hperm.mem_iff.mp hr)
  omega

end Top

/-- What the evaluator takes from the flush of a suit: its ranks, and above them their highest five. -/
theorem flush_of_suit (hlen : h.length = 7) (hh : h.Nodup) (hcard : ∀ c ∈ h, c < 52) {s : Nat} (hs : s < 4)
    (h5 : 5 ≤ (suitRanks h s).length) :
    sevenCardDrawFlushScore (sevenCardDrawFlush h) = flushScore + maskOf (topFive (suitRanks h s)) ∧
      (∀ x < 2^13, sevenCardDrawFlush h &&& x = maskOf (suitRanks h s) &&& x) ∧ sevenCardDrawFlush h ≠ 0 := by
  have htop : maskOf (topFive (suitRanks h s)) < 2^13 :=
    maskOf_lt fun r hr => suitRanks_lt r ((topFive_subperm _).subset hr)
  have hF : maskOf (suitRanks h s) < 2^13 := maskOf_lt suitRanks_lt
  have hflush : sevenCardDrawFlush h = maskOf (topFive (suitRanks h s)) <<< 13 ||| maskOf (suitRanks h s) := by
    rw [sevenCardDrawFlush_some hlen hcard hs h5, ripTimes_topFive (suitRanks_nodup hh) suitRanks_lt, shl32_subrShl htop,
      Nat.shiftLeft_eq, Nat.or_comm]
  have hpos : maskOf (suitRanks h s) ≠ 0 := by
    rw [Ne, maskOf_eq_zero]
    exact List.ne_nil_of_length_pos (by omega)
  rw [hflush]
  generalize maskOf (topFive (suitRanks h s)) = top at htop ⊢
  refine ⟨?_, ?_, ?_⟩
  · rw [sevenCardDrawFlushScore, subrShl, ← Nat.shiftLeft_add_eq_or_of_lt hF, Nat.shiftLeft_eq, Nat.shiftRight_eq_div_pow]
    omega
  · intro x hx
    apply Nat.eq_of_testBit_eq
    intro i
    rw [Nat.testBit_and, Nat.testBit_or, Nat.testBit_shiftLeft, Nat.testBit_and]
    by_cases hi : i < 13
    · rw [decide_eq_false (Nat.not_le_of_lt hi), Bool.false_and, Bool.false_or]
    · have hxi : x.testBit i = false :=
        Nat.testBit_lt_two_pow (hx.trans_le (Nat.pow_le_pow_right (by omega) (Nat.le_of_not_lt hi)))
      rw [hxi, Bool.and_false, Bool.and_false]
  · intro hzero
    exact hpos (Nat.or_eq_zero_iff.mp hzero).2

end Flush

end SuperNet.Games.Poker
