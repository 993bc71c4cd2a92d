import Mathlib.AlgebraicGeometry.EllipticCurve.Affine.Point
import Mathlib.Tactic

/-! The curves `y^2 = x^3 + A x^2 + x` and the x-coordinates of sums and differences of their points. -/
namespace SuperNet.Lib.MontgomeryCurve
open WeierstrassCurve.Affine

variable {K : Type*} [Field K] {A : K}

abbrev curve (A : K) : WeierstrassCurve.Affine K := ⟨0, A, 0, 1, 0⟩

theorem on_curve_iff {x y : K} : (curve A).Equation x y ↔ y^2 = x^3 + A * x^2 + x := by
  rw [equation_iff]
  simp

theorem negY_eq (x y : K) : (curve A).negY x y = -y := by
  simp [negY]

/-- Where `A^2` is not 4, the right side of the equation has no double zero. -/
theorem nonsingular {x y : K} (h2 : (2 : K) ≠ 0) (hA : A^2 ≠ 4) (h : y^2 = x^3 + A * x^2 + x) :
    (curve A).Nonsingular x y := by
  rw [nonsingular_iff]
  refine ⟨on_curve_iff.mpr h, ?_⟩
  by_contra hzero
  push Not at hzero
  simp only [zero_mul, sub_zero] at hzero
  obtain ⟨hx, hy⟩ := hzero
  have hy0 : y = 0 := by
    have : 2 * y = 0 := by linear_combination hy
    exact (mul_eq_zero.mp this).resolve_left h2
  have hx0 : x ≠ 0 := by
    rintro rfl
    simp at hx
  have hquad : x^2 + A * x + 1 = 0 := by
    apply (mul_eq_zero.mp (_ : x * (x^2 + A * x + 1) = 0)).resolve_left hx0
    rw [hy0] at h
    linear_combination -h
  have hone : x^2 = 1 := by linear_combination -2 * hquad - hx
  have hAx : A * x = -2 := by linear_combination hquad - hone
  exact hA (by linear_combination (A * x - 2) * hAx - A^2 * hone)

theorem ne_negY {x y : K} (h2 : (2 : K) ≠ 0) (hy : y ≠ 0) : y ≠ (curve A).negY x y := by
  rw [negY_eq]
  intro heq
  have : 2 * y = 0 := by linear_combination heq
  exact hy ((mul_eq_zero.mp this).resolve_left h2)

/-- The x-coordinate of a point other than infinity. -/
def HasX (P : (curve A).Point) (x : K) : Prop := ∃ y h, P = Point.some x y h

variable {P : (curve A).Point}

theorem hasX_neg {x : K} (h : HasX P x) : HasX (-P) x := by
  obtain ⟨y, h, rfl⟩ := h
  exact ⟨_, _, Point.neg_some h⟩

theorem HasX.unique {x x' : K} (h : HasX P x) (h' : HasX P x') : x = x' := by
  obtain ⟨y, h, rfl⟩ := h
  obtain ⟨y', h', heq⟩ := h'
  exact (Point.some.inj heq).1

theorem HasX.ne_zero {x : K} (h : HasX P x) : P ≠ 0 := by
  obtain ⟨y, h, rfl⟩ := h
  exact Point.some_ne_zero h

theorem four_ne_zero' (h2 : (2 : K) ≠ 0) : (4 : K) ≠ 0 := by
  have h4 : (4 : K) = 2^2 := by norm_num
  rw [h4]
  exact pow_ne_zero 2 h2

section Group
variable [DecidableEq K] {x y x' y' : K}

theorem double_x (h2 : (2 : K) ≠ 0) {h : (curve A).Nonsingular x y} (hy : y ≠ 0) :
    ∃ u, HasX (Point.some x y h + Point.some x y h) u ∧ u * (4 * (x^3 + A * x^2 + x)) = (x^2 - 1)^2 := by
  refine ⟨_, ⟨_, _, Point.add_self_of_Y_ne (ne_negY h2 hy)⟩, ?_⟩
  have heq := on_curve_iff.mp h.1
  rw [addX, slope_of_Y_ne rfl (ne_negY h2 hy), negY_eq]
  simp only [zero_mul, sub_zero, add_zero]
  have hd : y - -y ≠ 0 := by
    rw [sub_neg_eq_add, ← two_mul]
    exact mul_ne_zero h2 hy
  have hslope := div_mul_cancel₀ (3 * x^2 + 2 * A * x + 1) hd
  generalize (3 * x^2 + 2 * A * x + 1) / (y - -y) = slope at hslope ⊢
  linear_combination (slope * (y - -y) + (3 * x^2 + 2 * A * x + 1)) * hslope - 4 * slope^2 * heq

/-- The sum and the difference of two points. -/
theorem add_sub_x (h : (curve A).Nonsingular x y) (h' : (curve A).Nonsingular x' y') (hne : x ≠ x') :
    ∃ u v, HasX (Point.some x y h + Point.some x' y' h') u ∧ HasX (Point.some x y h - Point.some x' y' h') v ∧
      u * v * (x - x')^2 = (x * x' - 1)^2 := by
  have heq := on_curve_iff.mp h.1
  have heq' := on_curve_iff.mp h'.1
  have hd : x - x' ≠ 0 := sub_ne_zero.mpr hne
  have hminus : Point.some x y h - Point.some x' y' h' = Point.some x y h + Point.some x' _ ((nonsingular_neg x' y').mpr h') := rfl
  rw [Point.add_of_X_ne hne] at hminus
  refine ⟨_, _, ⟨_, _, Point.add_of_X_ne hne⟩, ⟨_, _, hminus⟩, ?_⟩
  rw [addX, addX, slope_of_X_ne hne, slope_of_X_ne hne, negY_eq]
  simp only [zero_mul, add_zero]
  have hplus := div_mul_cancel₀ (y - y') hd
  have hminus := div_mul_cancel₀ (y - -y') hd
  generalize (y - y') / (x - x') = p at hplus ⊢
  generalize (y - -y') / (x - x') = m at hminus ⊢
  apply mul_right_cancel₀ (pow_ne_zero 2 hd)
  have hp : p^2 * (x - x')^2 = (y - y')^2 := by rw [← mul_pow, hplus]
  have hm : m^2 * (x - x')^2 = (y + y')^2 := by rw [← mul_pow, hminus, sub_neg_eq_add]
  have hprod : (p^2 - A - x - x') * (m^2 - A - x - x') * (x - x')^2 * (x - x')^2 =
      ((y - y')^2 - (A + x + x') * (x - x')^2) * ((y + y')^2 - (A + x + x') * (x - x')^2) := by
    rw [← hp, ← hm]
    ring
  rw [hprod]
  linear_combination (y^2 - y'^2 + (x^3 + A * x^2 + x) - (x'^3 + A * x'^2 + x') - 2 * (A + x + x') * (x - x')^2) * heq +
    (-(y^2 - y'^2 + (x^3 + A * x^2 + x) - (x'^3 + A * x'^2 + x')) - 2 * (A + x + x') * (x - x')^2) * heq'

end Group

end SuperNet.Lib.MontgomeryCurve
