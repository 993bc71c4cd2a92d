import Mathlib.Algebra.BigOperators.Finprod
import Mathlib.Algebra.BigOperators.Finsupp.Basic
import Mathlib.Algebra.Order.BigOperators.Group.Finset
import Mathlib.Tactic.Linarith

/-! Credits and debits between two balance sheets over any set of accounts. -/
namespace SuperNet.Lib.Flows

variable {κ : Type*} {f g h : κ → ℤ} {v w : ℤ}

/-- The sum of all increases. -/
noncomputable def credited (f g : κ → ℤ) : ℤ := ∑ᶠ k, max 0 (g k - f k)

/-- The sum of the decreases in `A`. -/
def debited (A : Finset κ) (f g : κ → ℤ) : ℤ := ∑ k ∈ A, max 0 (f k - g k)

/-- Finitely many accounts are credited with `v` in all, and none is debited. -/
def Credits (f g : κ → ℤ) (v : ℤ) : Prop :=
  ∃ l : κ →₀ ℤ, (∀ k, 0 ≤ l k) ∧ (∀ k, g k = f k + l k) ∧ l.sum (fun _ x => x) = v

theorem Credits.refl (f : κ → ℤ) : Credits f f 0 :=
  ⟨0, fun _ => le_rfl, fun k => (add_zero (f k)).symm, Finsupp.sum_zero_index⟩

theorem Credits.trans (h1 : Credits f g v) (h2 : Credits g h w) : Credits f h (v + w) := by
  obtain ⟨l, hl0, hl, hv⟩ := h1
  obtain ⟨m, hm0, hm, hw⟩ := h2
  refine ⟨l + m, fun k => add_nonneg (hl0 k) (hm0 k), fun k => ?_, ?_⟩
  · rw [hm, hl, Finsupp.add_apply, add_assoc]
  · rw [Finsupp.sum_add_index' (fun _ => rfl) fun _ _ _ => rfl, hv, hw]

theorem Credits.single [DecidableEq κ] {k : κ} (hv : 0 ≤ v) (hk : ∀ j, g j = f j + if j = k then v else 0) :
    Credits f g v := by
  refine ⟨Finsupp.single k v, fun j => ?_, fun j => ?_, Finsupp.sum_single_index rfl⟩
  · rw [Finsupp.single_apply]
    split
    · exact hv
    · exact le_rfl
  · rw [hk, Finsupp.single_apply]
    simp only [eq_comm]

theorem Credits.credited_eq (hc : Credits f g v) : credited f g = v := by
  obtain ⟨l, hl0, hl, hv⟩ := hc
  have hmax : (fun k => max 0 (g k - f k)) = l := by
    funext k
    rw [hl, add_sub_cancel_left, max_eq_right (hl0 k)]
  rw [credited, hmax, finsum_eq_sum_of_support_subset l (s := l.support) (by rw [Finsupp.fun_support_eq])]
  exact hv

theorem Credits.debited_eq (hc : Credits f g v) (A : Finset κ) : debited A f g = 0 := by
  obtain ⟨l, hl0, hl, -⟩ := hc
  refine Finset.sum_eq_zero fun k _ => max_eq_left ?_
  rw [hl]
  linarith [hl0 k]

/-- Either `v` is credited, or it is not positive and nothing is credited. -/
def Gains (f g : κ → ℤ) (v : ℤ) : Prop := Credits f g v ∨ v ≤ 0 ∧ ∀ k, g k ≤ f k

theorem Gains.refl (f : κ → ℤ) : Gains f f 0 := .inl (.refl f)

/-- The credits are paid for by the debits in `A` and `x` more, exactly when `x` alone pays for them. -/
theorem Gains.covered_iff (hg : Gains f g v) (A : Finset κ) {x : ℤ} (hx : 0 ≤ x) :
    credited f g ≤ debited A f g + x ↔ v ≤ x := by
  rcases hg with hc | ⟨hv, hle⟩
  · rw [hc.credited_eq, hc.debited_eq, zero_add]
  · have hzero : credited f g = 0 := by
      have hmax : (fun k => max 0 (g k - f k)) = fun _ => 0 := by
        funext k
        exact max_eq_left (by linarith [hle k])
      rw [credited, hmax, finsum_zero]
    have hdeb : 0 ≤ debited A f g := Finset.sum_nonneg fun _ _ => le_max_left _ _
    rw [hzero]
    exact iff_of_true (by linarith) (by linarith)

end SuperNet.Lib.Flows
