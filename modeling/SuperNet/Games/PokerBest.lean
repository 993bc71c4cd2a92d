import SuperNet.Games.PokerKinds
import Mathlib.Data.List.Perm.Subperm
import Mathlib.Data.List.Sort

/-! The score of seven ranks is that of the best five of them. A rank that does not occur can be taken out, so that
only ranks without gaps are left, and of these there are as many as ways to go up from one card to the next. -/
namespace SuperNet.Games.Poker
open Lib.Masks

/-- The key of the ranks is the highest of those of any five of them. -/
structure Best (rs : List Nat) : Prop where
  le : ∀ x : List Nat, x.Subperm rs → x.length = 5 → (fiveKey (kindsOf x)).Le (sevenKey (kindsOf rs))
  attained : ∃ x : List Nat, x.Subperm rs ∧ x.length = 5 ∧ fiveKey (kindsOf x) = sevenKey (kindsOf rs)
  cat_lt : ∀ x : List Nat, x.Subperm rs → x.length = 5 → x.Nodup → (sevenKey (kindsOf rs)).cat < 4

theorem Best.perm {rs rs' : List Nat} (h : Best rs) (hperm : rs.Perm rs') : Best rs' := by
  have hkinds := kindsOf_perm hperm
  constructor
  · intro x hx hlen
    rw [← hkinds]
    exact h.le x (hx.trans hperm.symm.subperm) hlen
  · obtain ⟨x, hx, hlen, hkey⟩ := h.attained
    exact ⟨x, hx.trans hperm.subperm, hlen, by rw [hkey, hkinds]⟩
  · intro x hx hlen hnodup
    rw [← hkinds]
    exact h.cat_lt x (hx.trans hperm.symm.subperm) hlen hnodup

/-- A choice of images is the image of a choice. -/
theorem exists_of_subperm_map {f : Nat → Nat} {x rs : List Nat} (h : x.Subperm (rs.map f)) :
    ∃ x' : List Nat, x'.Subperm rs ∧ x.Perm (x'.map f) := by
  obtain ⟨l, hperm, hsub⟩ := h
  obtain ⟨x', hx', rfl⟩ := List.sublist_map_iff.mp hsub
  exact ⟨x', hx'.subperm, hperm.symm⟩

theorem Best.skip {rs : List Nat} (h : Best rs) (j : Nat) : Best (rs.map (Lib.Masks.skip j)) := by
  constructor
  · intro x hx hlen
    obtain ⟨x', hx', hperm⟩ := exists_of_subperm_map hx
    have hlen' : x'.length = 5 := by rw [← hlen, hperm.length_eq, List.length_map]
    rw [kindsOf_perm hperm, kindsOf_skip, kindsOf_skip, fiveKey_spread, sevenKey_spread]
    exact (h.le x' hx' hlen').spread
  · obtain ⟨x, hx, hlen, hkey⟩ := h.attained
    refine ⟨x.map (Lib.Masks.skip j), hx.map skip_injective, by rw [List.length_map, hlen], ?_⟩
    rw [kindsOf_skip, kindsOf_skip, fiveKey_spread, sevenKey_spread, hkey]
  · intro x hx hlen hnodup
    obtain ⟨x', hx', hperm⟩ := exists_of_subperm_map hx
    have hlen' : x'.length = 5 := by rw [← hlen, hperm.length_eq, List.length_map]
    rw [kindsOf_skip, sevenKey_spread]
    exact h.cat_lt x' hx' hlen' ((hperm.nodup_iff.mp hnodup).of_map _)

section Stairs

/-- Ranks from `a` on, each the same as the one before it or the next. -/
def stairs (a : Nat) : List Bool → List Nat
  | [] => [a]
  | up :: ups => a :: stairs (if up then a + 1 else a) ups

private theorem exists_stairs {a : Nat} {l : List Nat} (hsorted : (a :: l).Pairwise (· ≤ ·))
    (hgap : ∀ i ∈ a :: l, ∀ j, a ≤ j → j ≤ i → j ∈ a :: l) : ∃ ups : List Bool, ups.length = l.length ∧ stairs a ups = a :: l := by
  induction l generalizing a with
  | nil => exact ⟨[], rfl, rfl⟩
  | cons b l ih =>
    obtain ⟨hle, hsorted'⟩ := List.pairwise_cons.mp hsorted
    have hab := hle b List.mem_cons_self
    have hbl := (List.pairwise_cons.mp hsorted').1
    have hgap' : ∀ i ∈ b :: l, ∀ j, b ≤ j → j ≤ i → j ∈ b :: l := by
      intro i hi j hj hji
      obtain rfl | hmem := List.mem_cons.mp (hgap i (List.mem_cons_of_mem a hi) j (hab.trans hj) hji)
      · rw [Nat.le_antisymm hab hj]
        exact List.mem_cons_self
      · exact hmem
    have hstep : b ≤ a + 1 := by
      by_contra hlt
      obtain hmem | hmem := List.mem_cons.mp (hgap b (by simp) (a + 1) (by omega) (by omega))
      · omega
      · obtain hmem | hmem := List.mem_cons.mp hmem
        · omega
        · have := hbl _ hmem
          omega
    obtain ⟨ups, hlen, hups⟩ := ih hsorted' hgap'
    refine ⟨decide (b = a + 1) :: ups, by rw [List.length_cons, hlen, List.length_cons], ?_⟩
    have hb : (if decide (b = a + 1) = true then a + 1 else a) = b := by
      split
      case isTrue h => exact (of_decide_eq_true h).symm
      case isFalse h =>
        have hne : b ≠ a + 1 := fun heq => h (decide_eq_true heq)
        omega
    rw [stairs, hb, hups]

/-- `Best` without what it does not need to look at. -/
def bestCheck (rs : List Nat) : Bool :=
  let key := sevenKey (kindsOf rs)
  let fives := rs.sublistsLen 5
  fives.all (fun x => decide ((fiveKey (kindsOf x)).Le key)) && fives.any (fun x => decide (fiveKey (kindsOf x) = key)) &&
    fives.all fun x => !decide x.Nodup || decide (key.cat < 4)

private theorem best_of_check {rs : List Nat} (h : bestCheck rs = true) : Best rs := by
  rw [bestCheck] at h
  obtain ⟨h, hcat⟩ := (Bool.and_eq_true _ _).mp h
  obtain ⟨hle, hany⟩ := (Bool.and_eq_true _ _).mp h
  constructor
  · rintro x ⟨l, hperm, hsub⟩ hlen
    have hmem := List.mem_sublistsLen.mpr ⟨hsub, hperm.length_eq.trans hlen⟩
    rw [← kindsOf_perm hperm]
    exact of_decide_eq_true (List.all_eq_true.mp hle l hmem)
  · obtain ⟨x, hx, hkey⟩ := List.any_eq_true.mp hany
    obtain ⟨hsub, hlen⟩ := List.mem_sublistsLen.mp hx
    exact ⟨x, hsub.subperm, hlen, of_decide_eq_true hkey⟩
  · rintro x ⟨l, hperm, hsub⟩ hlen hnodup
    have hmem := List.mem_sublistsLen.mpr ⟨hsub, hperm.length_eq.trans hlen⟩
    have hl := List.all_eq_true.mp hcat l hmem
    rw [decide_eq_true (hperm.nodup_iff.mpr hnodup), Bool.not_true, Bool.false_or] at hl
    exact of_decide_eq_true hl

private theorem check_stairs : ∀ u₁ u₂ u₃ u₄ u₅ u₆ : Bool,
    ((stairs 0 [u₁, u₂, u₃, u₄, u₅, u₆]).all fun i => decide ((stairs 0 [u₁, u₂, u₃, u₄, u₅, u₆]).count i ≤ 4)) = true →
    bestCheck (stairs 0 [u₁, u₂, u₃, u₄, u₅, u₆]) = true := by decide +kernel

private theorem best_of_stairs {ups : List Bool} (hlen : ups.length = 6) (hcount : ∀ i, (stairs 0 ups).count i ≤ 4) :
    Best (stairs 0 ups) := by
  match ups, hlen with
  | [u₁, u₂, u₃, u₄, u₅, u₆], _ =>
    apply best_of_check
    apply check_stairs
    exact List.all_eq_true.mpr fun i _ => decide_eq_true (hcount i)

private theorem best_of_no_gap {rs : List Nat} (hlen : rs.length = 7) (hcount : ∀ i, rs.count i ≤ 4)
    (hgap : ∀ i ∈ rs, ∀ j ≤ i, j ∈ rs) : Best rs := by
  have hperm := rs.perm_insertionSort (· ≤ ·)
  have hsorted := rs.pairwise_insertionSort (· ≤ ·)
  cases hsort : rs.insertionSort (· ≤ ·) with
  | nil =>
    rw [hsort] at hperm
    rw [← hperm.length_eq] at hlen
    exact absurd hlen (by decide)
  | cons a l =>
    rw [hsort] at hperm hsorted
    have hmem : ∀ i, i ∈ a :: l ↔ i ∈ rs := fun i => hperm.mem_iff
    have hzero : a = 0 := by
      have hz := (hmem 0).mpr (hgap a ((hmem a).mp List.mem_cons_self) 0 (Nat.zero_le a))
      obtain h | h := List.mem_cons.mp hz
      · exact h.symm
      · exact Nat.le_zero.mp ((List.pairwise_cons.mp hsorted).1 0 h)
    have hgap' : ∀ i ∈ a :: l, ∀ j, a ≤ j → j ≤ i → j ∈ a :: l :=
      fun i hi j _ hj => (hmem j).mpr (hgap i ((hmem i).mp hi) j hj)
    obtain ⟨ups, hups, hstairs⟩ := exists_stairs hsorted hgap'
    rw [← hstairs, hzero] at hperm
    have hlen6 : ups.length = 6 := by
      have hal := congrArg List.length hsort
      rw [List.length_insertionSort, hlen, List.length_cons] at hal
      omega
    apply Best.perm _ hperm
    exact best_of_stairs hlen6 fun i => (hperm.count_eq i).trans_le (hcount i)

end Stairs

private theorem exists_map_skip {rs : List Nat} {j : Nat} (hj : j ∉ rs) :
    ∃ rs' : List Nat, rs = rs'.map (skip j) ∧ rs'.sum ≤ rs.sum ∧ ∀ i ∈ rs, j < i → rs'.sum < rs.sum := by
  induction rs with
  | nil => exact ⟨[], rfl, Nat.le_refl 0, fun i hi => absurd hi (by simp)⟩
  | cons r rs ih =>
    obtain ⟨hr, hmem⟩ := not_or.mp (mt List.mem_cons.mpr hj)
    obtain ⟨rs', hmap, hsum, hlt⟩ := ih hmem
    obtain ⟨r', hskip⟩ := exists_skip (Ne.symm hr)
    have hle : r' ≤ r ∧ (j < r → r' < r) := by
      rw [← hskip, skip]
      split <;> omega
    refine ⟨r' :: rs', by rw [List.map_cons, hskip, hmap], ?_, ?_⟩
    · rw [List.sum_cons, List.sum_cons]
      omega
    · intro i hi hji
      rw [List.sum_cons, List.sum_cons]
      obtain rfl | hi := List.mem_cons.mp hi
      · have := hle.2 hji
        omega
      · have := hlt i hi hji
        omega

/-- The key of seven ranks, none of them more than four times, is that of the best five of them. -/
theorem best_of_count_le {rs : List Nat} (hlen : rs.length = 7) (hcount : ∀ i, rs.count i ≤ 4) : Best rs := by
  induction hn : rs.sum using Nat.strong_induction_on generalizing rs with
  | _ n ih =>
    by_cases hgap : ∀ i ∈ rs, ∀ j ≤ i, j ∈ rs
    · exact best_of_no_gap hlen hcount hgap
    · push Not at hgap
      obtain ⟨i, hi, j, hji, hj⟩ := hgap
      have hne : j ≠ i := fun heq => hj (heq ▸ hi)
      obtain ⟨rs', hmap, -, hlt⟩ := exists_map_skip hj
      have hsum := hlt i hi (Nat.lt_of_le_of_ne hji hne)
      have hlen' : rs'.length = 7 := by rw [← hlen, hmap, List.length_map]
      have hcount' : ∀ i, rs'.count i ≤ 4 := by
        intro i
        rw [← List.count_map_of_injective rs' (skip j) skip_injective, ← hmap]
        exact hcount _
      rw [hmap]
      exact (ih _ (hn ▸ hsum) hlen' hcount' rfl).skip j

end SuperNet.Games.Poker
