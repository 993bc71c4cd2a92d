import Mathlib.Algebra.Polynomial.BigOperators
import Mathlib.Algebra.Polynomial.Eval.Degree
import Mathlib.InformationTheory.Hamming

/-! Words whose sums with the powers of their places vanish. As many powers as there are nonzero symbols leave no
such word but zero, and so two of them are far apart. -/
namespace SuperNet.Lib.ReedSolomon
open Polynomial

variable {K ι : Type*} [Field K] {x d : ι → K} {s : Finset ι} {b t : Nat}

/-- Vanishing sums with the powers from `b` on vanish with every polynomial of as many coefficients. -/
theorem sum_mul_eval (h : ∀ k < t, ∑ j ∈ s, d j * x j^(b + k) = 0) {p : K[X]} (hp : p.natDegree < t) :
    ∑ j ∈ s, d j * x j^b * p.eval (x j) = 0 := by
  have hterm : ∀ j ∈ s, d j * x j^b * p.eval (x j) = ∑ k ∈ Finset.range t, p.coeff k * (d j * x j^(b + k)) := by
    intro j _
    rw [eval_eq_sum_range' hp, Finset.mul_sum]
    refine Finset.sum_congr rfl fun k _ => ?_
    rw [pow_add]
    ring
  rw [Finset.sum_congr rfl hterm, Finset.sum_comm]
  refine Finset.sum_eq_zero fun k hk => ?_
  rw [← Finset.mul_sum, h k (Finset.mem_range.mp hk), mul_zero]

/-- The polynomial that vanishes at all other places isolates a symbol. -/
theorem eq_zero_of_card_le [DecidableEq ι] (hx : Set.InjOn x s) (hx0 : ∀ j ∈ s, x j ≠ 0) (hcard : s.card ≤ t)
    (h : ∀ k < t, ∑ j ∈ s, d j * x j^(b + k) = 0) : ∀ j ∈ s, d j = 0 := by
  intro j hj
  let p : K[X] := ∏ i ∈ s.erase j, (X - C (x i))
  have hdeg : p.natDegree < t := by
    rw [natDegree_prod_of_monic _ _ fun i _ => monic_X_sub_C (x i)]
    simp only [natDegree_X_sub_C, Finset.sum_const, smul_eq_mul, mul_one]
    exact (Finset.card_erase_lt_of_mem hj).trans_le hcard
  have heval : ∀ i, p.eval (x i) = ∏ k ∈ s.erase j, (x i - x k) := by
    intro i
    rw [eval_prod]
    simp only [eval_sub, eval_X, eval_C]
  have hsum := sum_mul_eval h hdeg
  rw [Finset.sum_eq_single_of_mem j hj] at hsum
  · have hne : p.eval (x j) ≠ 0 := by
      rw [heval, Finset.prod_ne_zero_iff]
      intro i hi heq
      obtain ⟨hij, his⟩ := Finset.mem_erase.mp hi
      exact hij (hx his hj (sub_eq_zero.mp heq).symm)
    exact ((mul_eq_zero.mp ((mul_eq_zero.mp hsum).resolve_right hne)).resolve_right (pow_ne_zero b (hx0 j hj)))
  · intro i hi hij
    rw [heval, Finset.prod_eq_zero (Finset.mem_erase.mpr ⟨hij, hi⟩) (sub_self _), mul_zero]

/-- Distinct words of the code differ in more places than it has powers. -/
theorem lt_hammingDist [Fintype ι] [DecidableEq ι] [DecidableEq K] (hx : Function.Injective x) (hx0 : ∀ j, x j ≠ 0)
    {c c' : ι → K} (h : ∀ k < t, ∑ j, c j * x j^(b + k) = 0) (h' : ∀ k < t, ∑ j, c' j * x j^(b + k) = 0) (hne : c ≠ c') :
    t < hammingDist c c' := by
  by_contra hle
  apply hne
  have hdiff : ∀ k < t, ∑ j ∈ Finset.univ.filter (fun j => c j ≠ c' j), (c j - c' j) * x j^(b + k) = 0 := by
    intro k hk
    have hsum : ∑ j, (c j - c' j) * x j^(b + k) = 0 := by
      simp only [sub_mul, Finset.sum_sub_distrib, h k hk, h' k hk, sub_zero]
    rw [← hsum]
    apply Finset.sum_subset (Finset.subset_univ _)
    intro j _ hj
    rw [Finset.mem_filter, not_and, not_not] at hj
    rw [hj (Finset.mem_univ j), sub_self, zero_mul]
  funext j
  by_contra hj
  have hmem : j ∈ Finset.univ.filter (fun j => c j ≠ c' j) := Finset.mem_filter.mpr ⟨Finset.mem_univ j, hj⟩
  exact hj (sub_eq_zero.mp (eq_zero_of_card_le hx.injOn (fun j _ => hx0 j) (Nat.le_of_not_lt hle) hdiff j hmem))

end SuperNet.Lib.ReedSolomon
