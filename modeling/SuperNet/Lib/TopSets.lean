import Mathlib.Algebra.Order.BigOperators.Group.Finset
import Mathlib.Algebra.BigOperators.Group.Finset.Basic
import Mathlib.Tactic

/-! Sets that hold the largest elements of a finite set. -/
namespace SuperNet.Lib.TopSets

variable {ι : Type*} {all top top' s : Finset ι} {f : ι → Nat} {j k : ι}

structure Largest (all : Finset ι) (f : ι → Nat) (top : Finset ι) : Prop where
  subset : top ⊆ all
  above : ∀ k ∈ top, ∀ j ∈ all, j ∉ top → f j ≤ f k

theorem largest_empty (all : Finset ι) (f : ι → Nat) : Largest all f ∅ :=
  ⟨Finset.empty_subset all, fun _ h => absurd h (Finset.notMem_empty _)⟩

variable [DecidableEq ι]

theorem Largest.insert (h : Largest all f top) (hk : k ∈ all) (hmax : ∀ j ∈ all, j ∉ top → f j ≤ f k) :
    Largest all f (insert k top) := by
  refine ⟨Finset.insert_subset hk h.subset, fun i hi j hj hnot => ?_⟩
  have hj' : j ∉ top := fun hmem => hnot (Finset.mem_insert_of_mem hmem)
  rcases Finset.mem_insert.mp hi with rfl | hi
  · exact hmax j hj hj'
  · exact h.above i hi j hj hj'

/-- No set of so many elements has a larger sum. -/
theorem Largest.sum_le (h : Largest all f top) (hs : s ⊆ all) (hcard : s.card ≤ top.card) :
    ∑ i ∈ s, f i ≤ ∑ i ∈ top, f i := by
  have hcards : (s \ top).card ≤ (top \ s).card := by
    have h1 := Finset.card_sdiff_add_card_inter s top
    have h2 := Finset.card_sdiff_add_card_inter top s
    rw [Finset.inter_comm] at h2
    omega
  have hrest : ∑ i ∈ s \ top, f i ≤ ∑ i ∈ top \ s, f i := by
    rcases (top \ s).eq_empty_or_nonempty with hempty | hsome
    · rw [hempty, Finset.card_empty, Nat.le_zero, Finset.card_eq_zero] at hcards
      rw [hempty, hcards]
    · -- the least element that only `top` has lies between the two sums
      obtain ⟨m, hm, hmin⟩ := Finset.exists_min_image (top \ s) f hsome
      have hm' := Finset.mem_sdiff.mp hm
      calc ∑ i ∈ s \ top, f i ≤ (s \ top).card • f m := by
            refine Finset.sum_le_card_nsmul _ _ _ fun i hi => ?_
            obtain ⟨his, hnot⟩ := Finset.mem_sdiff.mp hi
            exact h.above m hm'.1 i (hs his) hnot
        _ ≤ (top \ s).card • f m := Nat.mul_le_mul_right _ hcards
        _ ≤ ∑ i ∈ top \ s, f i := Finset.card_nsmul_le_sum _ _ _ hmin
  have hleft := Finset.sum_inter_add_sum_sdiff s top f
  have hright := Finset.sum_inter_add_sum_sdiff top s f
  rw [Finset.inter_comm] at hright
  omega

theorem Largest.sum_eq (h : Largest all f top) (h' : Largest all f top') (hcard : top.card = top'.card) :
    ∑ i ∈ top, f i = ∑ i ∈ top', f i :=
  Nat.le_antisymm (h'.sum_le h.subset hcard.le) (h.sum_le h'.subset hcard.ge)

/-- What one set of the largest leaves out has an equal outside of any other with so many elements. -/
theorem Largest.swap (h : Largest all f top) (h' : Largest all f top') (hcard : top.card = top'.card) (hk : k ∈ all)
    (hnot : k ∉ top) : ∃ j ∈ all, j ∉ top' ∧ f j = f k := by
  by_cases hk' : k ∈ top'
  case neg => exact ⟨k, hk, hk', rfl⟩
  case pos =>
    obtain ⟨j, hj, hj'⟩ : ∃ j ∈ top, j ∉ top' := by
      by_contra hnone
      push Not at hnone
      have heq := Finset.eq_of_subset_of_card_le (fun j hj => hnone j hj) hcard.ge
      exact hnot (heq ▸ hk')
    exact ⟨j, h.subset hj, hj', Nat.le_antisymm (h'.above k hk' j (h.subset hj) hj') (h.above j hj k hk hnot)⟩

end SuperNet.Lib.TopSets
