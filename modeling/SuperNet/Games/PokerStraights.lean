import SuperNet.Games.PokerWords
import Mathlib.Data.List.Perm.Subperm

/-! Straights in masks of ranks: what `SevenCardDrawScore` finds with its runs of 7, 6 and 5 ranks is the highest of
the ten straights of the game. -/
namespace SuperNet.Games.Poker
open Lib.Masks

/-- The runs of five ranks, the highest first. -/
def runs : List Nat := [0x1F00, 0xF80, 0x7C0, 0x3E0, 0x1F0, 0xF8, 0x7C, 0x3E, 0x1F]

/-- The straights with the masks that they score, the bicycle last. -/
def straights : List (Nat × Nat) := runs.map (fun r => (r, r)) ++ [(0x100F, 0xF)]

def bestRun (t : Nat) : Option Nat := runs.find? fun r => r &&& t = r

/-- The highest straight in a mask. -/
def bestStraight (t : Nat) : Option Nat := (straights.find? fun p => p.1 &&& t = p.1).map Prod.snd

theorem bestStraight_eq (t : Nat) :
    bestStraight t = (bestRun t).or (if 0x100F &&& t = 0x100F then some 0xF else none) := by
  rw [bestStraight, bestRun, straights, List.find?_append, List.find?_map]
  cases hr : runs.find? ((fun p : Nat × Nat => decide (p.1 &&& t = p.1)) ∘ fun r => (r, r)) with
  | some r =>
    have hr' : runs.find? (fun r => decide (r &&& t = r)) = some r := hr
    rw [hr']
    rfl
  | none =>
    have hr' : runs.find? (fun r => decide (r &&& t = r)) = none := hr
    rw [hr', Option.map_none, Option.none_or, Option.none_or, List.find?_singleton]
    by_cases hw : 0x100F &&& t = 0x100F
    · rw [if_pos hw, if_pos (decide_eq_true hw)]
      rfl
    · rw [if_neg hw, if_neg (fun h => hw (of_decide_eq_true h))]
      rfl

theorem straights_ranks : ∀ p ∈ straights, ∃ ds : List Nat, ds.Nodup ∧ ds.length = 5 ∧ (∀ d ∈ ds, d < 13) ∧ maskOf ds = p.1 := by
  have hall : ∀ p ∈ straights, ∃ ds ∈ [0, 1, 2, 3, 12] :: (List.range 9).map (fun k => [k, k + 1, k + 2, k + 3, k + 4]),
      ds.Nodup ∧ ds.length = 5 ∧ (∀ d ∈ ds, d < 13) ∧ maskOf ds = p.1 := by decide
  intro p hp
  obtain ⟨ds, -, hds⟩ := hall p hp
  exact ⟨ds, hds⟩

theorem bestStraight_some {t r : Nat} (h : bestStraight t = some r) : ∃ p ∈ straights, p.1 &&& t = p.1 ∧ p.2 = r := by
  obtain ⟨p, hp, rfl⟩ := Option.map_eq_some_iff.mp h
  exact ⟨p, List.mem_of_find?_eq_some hp, of_decide_eq_true (List.find?_some (p := fun p : Nat × Nat => decide (p.1 &&& t = p.1)) hp), rfl⟩

private theorem find_first {α : Type} {rank : α → Nat} {f : α → Bool} {l : List α} (hl : l.Pairwise fun p q => rank q ≤ rank p)
    {p : α} (hp : p ∈ l) (hf : f p = true) : ∃ q, l.find? f = some q ∧ rank p ≤ rank q := by
  induction l with
  | nil => exact absurd hp List.not_mem_nil
  | cons a l ih =>
    obtain ⟨hle, hl'⟩ := List.pairwise_cons.mp hl
    cases ha : f a with
    | true =>
      refine ⟨a, List.find?_cons_of_pos ha, ?_⟩
      obtain rfl | hp := List.mem_cons.mp hp
      · exact Nat.le_refl _
      · exact hle p hp
    | false =>
      obtain rfl | hp := List.mem_cons.mp hp
      · rw [ha] at hf
        exact absurd hf Bool.false_ne_true
      · obtain ⟨q, hq, hpq⟩ := ih hl' hp
        refine ⟨q, ?_, hpq⟩
        rw [List.find?_cons_of_neg (by rw [ha]; exact Bool.false_ne_true)]
        exact hq

theorem le_bestStraight {t : Nat} {p : Nat × Nat} (hp : p ∈ straights) (ht : p.1 &&& t = p.1) :
    ∃ r, bestStraight t = some r ∧ p.2 ≤ r := by
  have hsorted : straights.Pairwise fun p q => q.2 ≤ p.2 := by decide
  obtain ⟨q, hq, hle⟩ := find_first (f := fun p => decide (p.1 &&& t = p.1)) hsorted hp (decide_eq_true ht)
  exact ⟨q.2, Option.map_eq_some_iff.mpr ⟨q, hq, rfl⟩, hle⟩

theorem bestStraight_lt {t r : Nat} (h : bestStraight t = some r) : r < 2^13 := by
  obtain ⟨p, hp, -, rfl⟩ := bestStraight_some h
  have hall : ∀ p ∈ straights, p.2 < 2^13 := by decide
  exact hall p hp

/-- Of a larger mask the highest straight is no lower. -/
theorem bestStraight_mono {x t r : Nat} (hxt : x &&& t = x) (h : bestStraight x = some r) :
    ∃ r', bestStraight t = some r' ∧ r ≤ r' := by
  obtain ⟨p, hp, hpx, rfl⟩ := bestStraight_some h
  apply le_bestStraight hp
  apply and_eq_of_testBit
  exact fun i hi => testBit_of_and_eq hxt (testBit_of_and_eq hpx hi)

theorem bestStraight_none {x t : Nat} (hxt : x &&& t = x) (h : bestStraight t = none) : bestStraight x = none := by
  cases hx : bestStraight x with
  | none => rfl
  | some r =>
    obtain ⟨r', hr', -⟩ := bestStraight_mono hxt hx
    rw [h] at hr'
    cases hr'

section Five

/-- A straight in five ranks takes them all. -/
theorem perm_of_straight {rs : List Nat} (hlen : rs.length = 5) {p : Nat × Nat} (hp : p ∈ straights)
    (h : p.1 &&& maskOf rs = p.1) : rs.Nodup ∧ maskOf rs = p.1 := by
  obtain ⟨ds, hnodup, hdlen, -, hmask⟩ := straights_ranks p hp
  rw [← hmask] at h ⊢
  have hsub := List.subperm_of_subset hnodup (subset_of_maskOf h)
  have hperm := hsub.perm_of_length_le (by omega)
  exact ⟨hperm.nodup_iff.mp hnodup, (maskOf_perm hperm).symm⟩

/-- The lowest bit of a mask of ranks. -/
theorem lowest_eq {x : Nat} (h : x < 2^13) : lowest x = 0 ∨ ∃ a < 13, lowest x = 2^a := by
  rw [lowest, ripLow_eq (by omega)]
  by_cases hx : x = 0
  · left
    rw [hx]
    rfl
  · right
    obtain ⟨a, ha, hxor⟩ := rip_xor hx
    refine ⟨a, ?_, hxor⟩
    by_contra hlt
    rw [Nat.testBit_lt_two_pow (h.trans_le (Nat.pow_le_pow_right (by omega) (by omega)))] at ha
    exact absurd ha Bool.false_ne_true

private theorem run_of_sequence {x : Nat} (h : x < 2^13) (hx : x ≠ 0)
    (hseq : sub32 (shl32 (lowest x) 5) (lowest x) = x) : x ∈ runs := by
  have hzero : sub32 (shl32 0 5) 0 = 0 := by decide
  have hall : ∀ a < 13, sub32 (shl32 (2^a) 5) (2^a) < 2^13 → sub32 (shl32 (2^a) 5) (2^a) ∈ runs := by decide
  obtain h0 | ⟨a, ha, hla⟩ := lowest_eq h
  · rw [h0, hzero] at hseq
    exact absurd hseq.symm hx
  · rw [hla] at hseq
    rw [← hseq] at h ⊢
    exact hall a ha h

private theorem straights_cases : ∀ p ∈ straights, p = (0x100F, 0xF) ∨
    p.1 ≠ 0x100F ∧ sub32 (shl32 (lowest p.1) 5) (lowest p.1) = p.1 ∧ p.2 = p.1 := by decide

theorem fiveDistinct_straight {rs : List Nat} (hlen : rs.length = 5) {r : Nat}
    (hr : bestStraight (maskOf rs) = some r) (u : Nat) :
    fiveDistinct (maskOf rs) u = (if u ≠ 0 then straightScore else straightFlushScore) + r := by
  obtain ⟨p, hp, hsub, rfl⟩ := bestStraight_some hr
  rw [(perm_of_straight hlen hp hsub).2, fiveDistinct]
  obtain rfl | ⟨hne, hseq, heq⟩ := straights_cases p hp
  · rw [if_pos rfl]
    split <;> rfl
  · rw [lowest] at hseq
    rw [if_neg hne, if_pos hseq, heq]
    split <;> rfl

theorem fiveDistinct_other {rs : List Nat} (hlen : rs.length = 5) (h13 : ∀ r ∈ rs, r < 13)
    (hr : bestStraight (maskOf rs) = none) (u : Nat) :
    fiveDistinct (maskOf rs) u = if u ≠ 0 then maskOf rs else flushScore + maskOf rs := by
  have hlt : maskOf rs < 2^13 := maskOf_lt h13
  have hself : ∀ p ∈ straights, maskOf rs ≠ p.1 := by
    intro p hp heq
    obtain ⟨r, hsome, -⟩ := le_bestStraight (t := maskOf rs) hp (by rw [heq, Nat.and_self])
    rw [hr] at hsome
    cases hsome
  have hne : maskOf rs ≠ 0x100F := hself (0x100F, 0xF) (by decide)
  have hpos : maskOf rs ≠ 0 := by
    rw [Ne, maskOf_eq_zero]
    exact List.ne_nil_of_length_pos (by omega)
  have hseq : sub32 (shl32 (lowest (maskOf rs)) 5) (lowest (maskOf rs)) ≠ maskOf rs := by
    intro hseq
    have hmem := run_of_sequence hlt hpos hseq
    exact hself (maskOf rs, maskOf rs) (List.mem_append_left _ (List.mem_map.mpr ⟨_, hmem, rfl⟩)) rfl
  rw [lowest] at hseq
  rw [fiveDistinct, if_neg hne, if_neg hseq]

end Five

section Seven

/-- The run of `n` ranks from `a` on. -/
def stretch (n a : Nat) : Nat := (2^n - 1) <<< a

/-- The runs of 7, 6 and 5 ranks. -/
def stretches : List (Nat × Nat) := [7, 6, 5].flatMap fun n => (List.range (14 - n)).map fun a => (n, a)

/-- What is used of the run `u` that `sevenRun` finds. -/
def runCheck (t u : Nat) : Bool :=
  decide (bestRun t = some (u &&& not32 (u >>> 5))) && runs.all fun r => !decide (r &&& t = r) || decide (r &&& u = r)

private theorem check_runs : ∀ r ∈ runs, ∀ p < 13, ∀ q < 13,
    (sevenRun (r ||| 2^p ||| 2^q)).any (fun nu => runCheck (r ||| 2^p ||| 2^q) nu.2) = true := by decide +kernel

private theorem of_runCheck {t u : Nat} (h : runCheck t u = true) :
    bestRun t = some (u &&& not32 (u >>> 5)) ∧ ∀ r ∈ runs, r &&& t = r → r &&& u = r := by
  obtain ⟨hbest, hall⟩ := (Bool.and_eq_true _ _).mp h
  refine ⟨of_decide_eq_true hbest, fun r hr hsub => ?_⟩
  have hru := List.all_eq_true.mp hall r hr
  rw [decide_eq_true hsub, Bool.not_true, Bool.false_or] at hru
  exact of_decide_eq_true hru

/-- The search of `runScore` in a part of a run of `n` ranks. -/
def searchCheck (n s : Nat) : Bool :=
  let u := runMask (lowest s) n 5
  decide (((List.range (n - 4)).find? fun k => (u >>> k) &&& s = u >>> k).map (u >>> ·) = bestRun s)

private theorem check_search : ∀ p ∈ stretches, ∀ x < 2^p.1, searchCheck p.1 (x <<< p.2) = true := by decide +kernel

private theorem and_stretch {s n a : Nat} (h : s &&& stretch n a = s) : ∃ x < 2^n, s = x <<< a := by
  have hbit : ∀ i, s.testBit i = true → a ≤ i ∧ i - a < n := by
    intro i hi
    have hi' := testBit_of_and_eq h hi
    rw [stretch, Nat.testBit_shiftLeft, Nat.testBit_two_pow_sub_one, Bool.and_eq_true, decide_eq_true_eq,
      decide_eq_true_eq] at hi'
    exact hi'
  refine ⟨s >>> a, ?_, ?_⟩
  · apply Nat.lt_pow_two_of_testBit
    intro i hi
    rw [Nat.testBit_shiftRight, Bool.eq_false_iff]
    intro hb
    have := (hbit _ hb).2
    omega
  · apply Nat.eq_of_testBit_eq
    intro i
    rw [Nat.testBit_shiftLeft, Nat.testBit_shiftRight, Bool.eq_iff_iff, Bool.and_eq_true, decide_eq_true_eq]
    constructor
    · intro hi
      have hai := (hbit i hi).1
      exact ⟨hai, by rw [Nat.add_sub_cancel' hai]; exact hi⟩
    · rintro ⟨hai, hi⟩
      rw [Nat.add_sub_cancel' hai] at hi
      exact hi

private theorem sevenRun_some {t n u : Nat} (h : sevenRun t = some (n, u)) :
    (n = 7 ∨ n = 6 ∨ n = 5) ∧ u &&& t = u ∧ ∃ y ≤ t, u = runMask (lowest y) n n := by
  have hs : ripLow t ≤ t := Nat.and_le_left
  have hss : ripLow (ripLow t) ≤ t := Nat.and_le_left.trans hs
  have hite : ∀ (c : Prop) [Decidable c] (y y' n : Nat), y ≤ t → y' ≤ t →
      ∃ z ≤ t, (if c then runMask (lowest y) n n else runMask (lowest y') n n) = runMask (lowest z) n n := by
    intro c _ y y' n hy hy'
    by_cases hc : c
    · exact ⟨y, hy, if_pos hc⟩
    · exact ⟨y', hy', if_neg hc⟩
  unfold sevenRun at h
  dsimp only at h
  rw [show ripLow t ^^^ t = lowest t from rfl] at h
  by_cases h7 : runMask (lowest t) 7 7 &&& t = runMask (lowest t) 7 7
  · rw [if_pos h7] at h
    cases h
    exact ⟨.inl rfl, h7, t, Nat.le_refl t, rfl⟩
  rw [if_neg h7] at h
  obtain ⟨y, hy, h6⟩ := hite (runMask (lowest t) 6 6 &&& t ≠ runMask (lowest t) 6 6) (ripLow t) t 6 hs (Nat.le_refl t)
  rw [h6] at h
  by_cases h6' : runMask (lowest y) 6 6 &&& t = runMask (lowest y) 6 6
  · rw [if_pos h6'] at h
    cases h
    exact ⟨.inr (.inl rfl), h6', y, hy, rfl⟩
  rw [if_neg h6'] at h
  obtain ⟨y, hy, h5⟩ := hite (runMask (lowest (ripLow t)) 5 5 &&& t ≠ runMask (lowest (ripLow t)) 5 5) (ripLow (ripLow t))
    (ripLow t) 5 hss hs
  rw [h5] at h
  obtain ⟨z, hz, h5'⟩ := hite (runMask (lowest t) 5 5 &&& t ≠ runMask (lowest t) 5 5) y t 5 hy (Nat.le_refl t)
  rw [h5'] at h
  split at h
  case isTrue hut =>
    cases h
    exact ⟨.inr (.inr rfl), hut, z, hz, rfl⟩
  case isFalse => cases h

private theorem sevenRun_stretch {t n u : Nat} (ht : t < 2^13) (h : sevenRun t = some (n, u)) :
    ∃ p ∈ stretches, n = p.1 ∧ u = stretch p.1 p.2 ∧ u &&& t = u := by
  obtain ⟨hn, hut, y, hy, rfl⟩ := sevenRun_some h
  have hn' : n ∈ [7, 6, 5] := by simp [hn]
  have hzero : ∀ n ∈ [7, 6, 5], 2^13 ≤ runMask 0 n n := by decide
  have hall : ∀ n ∈ [7, 6, 5], ∀ a < 13, runMask (2^a) n n < 2^13 →
      (n, a) ∈ stretches ∧ runMask (2^a) n n = stretch n a := by decide
  have hlt : runMask (lowest y) n n < 2^13 := by
    rw [← hut]
    exact Nat.and_le_right.trans_lt ht
  obtain h0 | ⟨a, ha, hla⟩ := lowest_eq (hy.trans_lt ht)
  · rw [h0] at hlt
    exact absurd (hzero n hn') (Nat.not_le_of_lt hlt)
  · rw [hla] at hlt hut ⊢
    obtain ⟨hmem, heq⟩ := hall n hn' a ha hlt
    exact ⟨(n, a), hmem, rfl, heq, hut⟩

private theorem sevenRun_none {t : Nat} (ht : t < 2^13) (h : bestRun t = none) : sevenRun t = none := by
  cases hrun : sevenRun t with
  | none => rfl
  | some nu =>
    exfalso
    obtain ⟨p, hp, -, hu, hut⟩ := sevenRun_stretch ht hrun
    have hruns : ∀ p ∈ stretches, ∃ r ∈ runs, r &&& stretch p.1 p.2 = r := by decide
    obtain ⟨r, hr, hru⟩ := hruns p hp
    rw [hu] at hut
    have hrt : r &&& t = r := and_eq_of_testBit fun i hi => testBit_of_and_eq hut (testBit_of_and_eq hru hi)
    exact List.find?_eq_none.mp h r hr (decide_eq_true hrt)

private theorem bestRun_some {t r : Nat} (h : bestRun t = some r) : r ∈ runs ∧ r &&& t = r :=
  ⟨List.mem_of_find?_eq_some h, of_decide_eq_true (List.find?_some (p := fun r => decide (r &&& t = r)) h)⟩

private theorem bestRun_congr {t t' : Nat} (h : ∀ r ∈ runs, r &&& t = r ↔ r &&& t' = r) : bestRun t = bestRun t' := by
  rw [bestRun, bestRun]
  have hgen : ∀ l : List Nat, (∀ r ∈ l, r &&& t = r ↔ r &&& t' = r) →
      l.find? (fun r => decide (r &&& t = r)) = l.find? fun r => decide (r &&& t' = r) := by
    intro l
    induction l with
    | nil => exact fun _ => rfl
    | cons r l ih =>
      intro hl
      rw [List.find?_cons, List.find?_cons, decide_eq_decide.mpr (hl r List.mem_cons_self),
        ih fun r' hr' => hl r' (List.mem_cons_of_mem r hr')]
  exact hgen runs h

private theorem sevenRun_of_run {rs : List Nat} (hlen : rs.length = 7) (h13 : ∀ r ∈ rs, r < 13) {r : Nat}
    (hr : bestRun (maskOf rs) = some r) : ∃ p ∈ stretches, sevenRun (maskOf rs) = some (p.1, stretch p.1 p.2) ∧
      r = stretch p.1 p.2 &&& not32 (stretch p.1 p.2 >>> 5) ∧
      ∀ r' ∈ runs, r' &&& maskOf rs = r' → r' &&& stretch p.1 p.2 = r' := by
  obtain ⟨hmem, hsub⟩ := bestRun_some hr
  obtain ⟨ds, hnodup, hdlen, -, hmask⟩ := straights_ranks (r, r) (List.mem_append_left _ (List.mem_map.mpr ⟨r, hmem, rfl⟩))
  change maskOf ds = r at hmask
  rw [← hmask] at hsub
  obtain ⟨l, hl, hsubl⟩ := List.subperm_of_subset hnodup (subset_of_maskOf hsub)
  obtain ⟨rest, hrest⟩ := hsubl.exists_perm_append
  have hperm : rs.Perm (ds ++ rest) := hrest.trans (hl.append_right rest)
  have hrestlen : rest.length = 2 := by
    have := hperm.length_eq
    rw [List.length_append] at this
    omega
  obtain ⟨p, q, rfl⟩ := List.length_eq_two.mp hrestlen
  have hp := h13 p (hperm.mem_iff.mpr (by simp))
  have hq := h13 q (hperm.mem_iff.mpr (by simp))
  have hcheck := check_runs r hmem p hp q hq
  have hmaskT : maskOf rs = r ||| 2^p ||| 2^q := by
    have hpq : maskOf [p, q] = 2^p ||| 2^q := by
      rw [maskOf, List.foldl_cons, List.foldl_cons, List.foldl_nil, Nat.zero_or]
    rw [maskOf_perm hperm, maskOf_append, hmask, hpq, Nat.or_assoc]
  rw [← hmaskT, Option.any_eq_true] at hcheck
  obtain ⟨⟨n, u⟩, hrun, hfound⟩ := hcheck
  obtain ⟨hbest, hall⟩ := of_runCheck hfound
  obtain ⟨x, hx, rfl, rfl, -⟩ := sevenRun_stretch (maskOf_lt h13) hrun
  exact ⟨x, hx, hrun, Option.some.inj (hr.symm.trans hbest), hall⟩

private theorem sevenStraight_def : sevenStraight = fun t f =>
    match sevenRun t with
    | some (n, u) => some (runScore n f u)
    | none => if 0x100F &&& t = 0x100F then some (if f ≠ 0 then wheelFlush f else straightScore + 0xF) else none := rfl

private theorem runScore_def : runScore = fun n f u =>
    if f ≠ 0 then
      match (List.range (n - 4)).find? fun k =>
        (runMask (lowest (f &&& u)) n 5 >>> k) &&& (f &&& u) = runMask (lowest (f &&& u)) n 5 >>> k with
      | some k => straightFlushScore + runMask (lowest (f &&& u)) n 5 >>> k
      | none => wheelFlush f
    else straightScore + (u &&& not32 (u >>> 5)) := rfl

private theorem sevenStraight_of_run {t n u : Nat} (f : Nat) (h : sevenRun t = some (n, u)) :
    sevenStraight t f = some (runScore n f u) := by
  rw [sevenStraight_def]
  simp only [h]

private theorem sevenStraight_of_none {t : Nat} (f : Nat) (h : sevenRun t = none) : sevenStraight t f =
    if 0x100F &&& t = 0x100F then some (if f ≠ 0 then wheelFlush f else straightScore + 0xF) else none := by
  rw [sevenStraight_def]
  simp only [h]

theorem sevenStraight_noflush {rs : List Nat} (hlen : rs.length = 7) (h13 : ∀ r ∈ rs, r < 13) :
    sevenStraight (maskOf rs) 0 = (bestStraight (maskOf rs)).map (straightScore + ·) := by
  rw [bestStraight_eq]
  cases hr : bestRun (maskOf rs) with
  | none =>
    rw [sevenStraight_of_none 0 (sevenRun_none (maskOf_lt h13) hr), Option.none_or]
    split <;> rfl
  | some r =>
    obtain ⟨p, -, hrun, hrp, -⟩ := sevenRun_of_run hlen h13 hr
    rw [sevenStraight_of_run 0 hrun, Option.some_or, Option.map_some, hrp, runScore, if_neg (not_not_intro rfl)]

private theorem runScore_find {n f u v : Nat} {found : Option Nat} (hf : f ≠ 0) (hv : runMask (lowest (f &&& u)) n 5 = v)
    (h : (List.range (n - 4)).find? (fun k => (v >>> k) &&& (f &&& u) = v >>> k) = found) :
    runScore n f u = ((found.map (v >>> ·)).map (straightFlushScore + ·)).getD (wheelFlush f) := by
  rw [runScore_def]
  simp only [if_pos hf, hv, h]
  cases found with
  | none => rfl
  | some k => rfl

private theorem runScore_flush {p : Nat × Nat} {f F : Nat} (hp : p ∈ stretches) (hf : f ≠ 0)
    (hs : f &&& stretch p.1 p.2 = F &&& stretch p.1 p.2) (hbest : bestRun (F &&& stretch p.1 p.2) = bestRun F) :
    runScore p.1 f (stretch p.1 p.2) = ((bestRun F).map (straightFlushScore + ·)).getD (wheelFlush f) := by
  obtain ⟨x, hx, hxs⟩ := and_stretch (s := F &&& stretch p.1 p.2) (n := p.1) (a := p.2)
    (by rw [Nat.and_assoc, Nat.and_self])
  have hsearch := check_search p hp x hx
  rw [← hxs, searchCheck, decide_eq_true_eq, hbest, ← hs] at hsearch
  rw [runScore_find hf rfl rfl, hsearch]

/-- With a flush mask `f` of the ranks in `F`, the straight flush counts, and else the flush. -/
theorem sevenStraight_flush {rs : List Nat} (hlen : rs.length = 7) (h13 : ∀ r ∈ rs, r < 13) {f F : Nat} (hf : f ≠ 0)
    (hF : F &&& maskOf rs = F) (hfF : ∀ x < 2^13, f &&& x = F &&& x) :
    sevenStraight (maskOf rs) f = (bestStraight (maskOf rs)).map fun _ =>
      ((bestStraight F).map (straightFlushScore + ·)).getD (sevenCardDrawFlushScore f) := by
  have hwheel : wheelFlush f = ((if 0x100F &&& F = 0x100F then some 0xF else none).map (straightFlushScore + ·)).getD
      (sevenCardDrawFlushScore f) := by
    rw [wheelFlush, Nat.and_comm 0x100F f, hfF 0x100F (by decide), Nat.and_comm F]
    split <;> rfl
  rw [bestStraight_eq (maskOf rs), bestStraight_eq F]
  cases hr : bestRun (maskOf rs) with
  | none =>
    have hrF : bestRun F = none := by
      rw [bestRun, List.find?_eq_none] at hr ⊢
      intro r hmem hsub
      apply hr r hmem
      apply decide_eq_true
      exact and_eq_of_testBit fun i hi => testBit_of_and_eq hF (testBit_of_and_eq (of_decide_eq_true hsub) hi)
    rw [sevenStraight_of_none f (sevenRun_none (maskOf_lt h13) hr), hrF, Option.none_or, Option.none_or, ← hwheel, if_pos hf]
    split <;> rfl
  | some r =>
    obtain ⟨p, hp, hrun, -, hall⟩ := sevenRun_of_run hlen h13 hr
    have hlt : stretch p.1 p.2 < 2^13 := by
      have hstretches : ∀ p ∈ stretches, stretch p.1 p.2 < 2^13 := by decide
      exact hstretches p hp
    have hbest : bestRun (F &&& stretch p.1 p.2) = bestRun F := by
      apply bestRun_congr
      intro r' hr'
      constructor
      · intro h
        apply and_eq_of_testBit
        intro i hi
        have hboth := testBit_of_and_eq h hi
        rw [Nat.testBit_and, Bool.and_eq_true] at hboth
        exact hboth.1
      · intro h
        have hT : r' &&& maskOf rs = r' :=
          and_eq_of_testBit fun i hi => testBit_of_and_eq hF (testBit_of_and_eq h hi)
        apply and_eq_of_testBit
        intro i hi
        rw [Nat.testBit_and, testBit_of_and_eq h hi, testBit_of_and_eq (hall r' hr' hT) hi]
        rfl
    rw [sevenStraight_of_run f hrun, Option.some_or, Option.map_some, runScore_flush hp hf (hfF _ hlt) hbest, hwheel]
    cases bestRun F with
    | none => rw [Option.none_or]; rfl
    | some r => rfl

end Seven

end SuperNet.Games.Poker
