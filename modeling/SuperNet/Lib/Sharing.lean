import Mathlib.LinearAlgebra.Lagrange
import SuperNet.Lib.Runs

/-! Threshold sharing over a field: shares are values of a polynomial that takes the secret at zero. -/
namespace SuperNet.Lib.Sharing
open Polynomial SuperNet.Lib.Runs

variable {F : Type*} [Field F]

/-- Value at `x` of the polynomial with the coefficients `coeff 0`, ..., `coeff d`, the leading one first. -/
def horner (coeff : Nat → F) (d : Nat) (x : F) : F := rounds (fun y c => x * y + coeff (c + 1)) (coeff 0) d

theorem exists_horner (coeff : Nat → F) (d : Nat) :
    ∃ p : F[X], p.natDegree ≤ d ∧ p.eval 0 = coeff d ∧ ∀ x, p.eval x = horner coeff d x := by
  induction d with
  | zero => exact ⟨C (coeff 0), (natDegree_C _).le, by simp, fun x => by simp [horner]⟩
  | succ d ih =>
    obtain ⟨p, hdeg, -, hval⟩ := ih
    refine ⟨X * p + C (coeff (d + 1)), ?_, by simp, fun x => ?_⟩
    · have hmul : (X * p).natDegree ≤ 1 + d := natDegree_mul_le_of_le natDegree_X_le hdeg
      rw [natDegree_add_C]
      omega
    · rw [horner, rounds_succ, ← horner, ← hval]
      simp

/-- The weight of the share at `v i` in the value at zero. -/
noncomputable def weight {ι : Type*} [DecidableEq ι] (s : Finset ι) (v : ι → F) (i : ι) : F :=
  (∏ j ∈ s.erase i, -v j) / ∏ j ∈ s.erase i, (v i - v j)

/-- As many shares as the polynomial has coefficients determine its value at zero. -/
theorem horner_recover {ι : Type*} [DecidableEq ι] {s : Finset ι} {v : ι → F} (hv : Set.InjOn v s)
    (coeff : Nat → F) {d : Nat} (hd : d < s.card) :
    ∑ i ∈ s, weight s v i * horner coeff d (v i) = coeff d := by
  obtain ⟨p, hdeg, hzero, hval⟩ := exists_horner coeff d
  have hcard : p.degree < s.card :=
    lt_of_le_of_lt (degree_le_of_natDegree_le hdeg) (by exact_mod_cast hd)
  have hp := congrArg (eval 0) (Lagrange.eq_interpolate hv hcard)
  rw [hzero, Lagrange.interpolate_apply, eval_finsetSum] at hp
  rw [hp]
  apply Finset.sum_congr rfl
  intro i _
  rw [eval_mul, eval_C, hval, mul_comm, Lagrange.basis, eval_prod, weight, ← Finset.prod_div_distrib]
  congr 1
  apply Finset.prod_congr rfl
  intro j _
  simp [Lagrange.basisDivisor, div_eq_inv_mul]

theorem horner_eq_sum (coeff : Nat → F) (d : Nat) (x : F) :
    horner coeff d x = ∑ c ∈ Finset.range (d + 1), coeff c * x^(d - c) := by
  induction d with
  | zero => simp [horner]
  | succ d ih =>
    rw [horner, rounds_succ, ← horner, ih, Finset.sum_range_succ _ (d + 1), Nat.sub_self, pow_zero, mul_one, Finset.mul_sum]
    congr 1
    refine Finset.sum_congr rfl fun c hc => ?_
    have hle : c ≤ d := Nat.le_of_lt_succ (Finset.mem_range.mp hc)
    rw [Nat.succ_sub hle, pow_succ']
    ring

theorem horner_add (coeff coeff' : Nat → F) (d : Nat) (x : F) :
    horner (fun c => coeff c + coeff' c) d x = horner coeff d x + horner coeff' d x := by
  simp only [horner_eq_sum, add_mul, Finset.sum_add_distrib]

theorem horner_congr {coeff coeff' : Nat → F} {d : Nat} (h : ∀ c ≤ d, coeff c = coeff' c) (x : F) :
    horner coeff d x = horner coeff' d x := by
  rw [horner_eq_sum, horner_eq_sum]
  exact Finset.sum_congr rfl fun c hc => by rw [h c (Nat.le_of_lt_succ (Finset.mem_range.mp hc))]

theorem horner_coeff {p : F[X]} {d : Nat} (hp : p.natDegree ≤ d) (x : F) : horner (fun c => p.coeff (d - c)) d x = p.eval x := by
  rw [horner_eq_sum, eval_eq_sum_range' (Nat.lt_succ_of_le hp), ← Finset.sum_range_reflect (fun k => p.coeff k * x^k)]
  rfl

/-- Fewer shares than the polynomial has coefficients leave its value at zero open: a change of the other coefficients
makes up for any change there. -/
theorem exists_mask {ι : Type*} {s : Finset ι} {v : ι → F} (hv : ∀ i ∈ s, v i ≠ 0) {d : Nat} (hcard : s.card ≤ d) (a : F) :
    ∃ mask : Nat → F, mask d = a ∧ ∀ i ∈ s, horner mask d (v i) = 0 := by
  let p : F[X] := C (a / ∏ i ∈ s, -v i) * ∏ i ∈ s, (X - C (v i))
  have hdeg : p.natDegree ≤ d := by
    refine (natDegree_C_mul_le _ _).trans ?_
    rw [natDegree_prod_of_monic _ _ fun i _ => monic_X_sub_C (v i)]
    simpa using hcard
  refine ⟨fun c => p.coeff (d - c), ?_, fun i hi => ?_⟩
  · have hne : ∏ i ∈ s, -v i ≠ 0 := Finset.prod_ne_zero_iff.mpr fun i hi => neg_ne_zero.mpr (hv i hi)
    have heval : p.eval 0 = a := by
      simp only [p, eval_mul, eval_C, eval_prod, eval_sub, eval_X, zero_sub]
      exact div_mul_cancel₀ a hne
    dsimp only
    rw [Nat.sub_self, coeff_zero_eq_eval_zero, heval]
  · have hzero : eval (v i) (X - C (v i)) = 0 := by rw [eval_sub, eval_X, eval_C, sub_self]
    have hprod : eval (v i) (∏ i ∈ s, (X - C (v i))) = 0 := by rw [eval_prod, Finset.prod_eq_zero hi hzero]
    rw [horner_coeff hdeg, eval_mul, hprod, mul_zero]

end SuperNet.Lib.Sharing
