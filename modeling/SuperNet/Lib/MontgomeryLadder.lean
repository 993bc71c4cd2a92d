import SuperNet.Lib.MontgomeryCurve
import Mathlib.FieldTheory.IsAlgClosed.AlgebraicClosure

/-! Multiples of a point on such a curve by their x-coordinates alone. A point is given by a pair `X : Z` with `X = x Z`,
the point at infinity by one with `Z = 0`. -/
namespace SuperNet.Lib.MontgomeryCurve
open WeierstrassCurve.Affine

variable {K : Type*} [Field K] {A : K}

/-- The pair `X : Z` stands for the x-coordinate of a point. -/
inductive Represents : K → K → (curve A).Point → Prop
  | zero {X : K} (hX : X ≠ 0) : Represents X 0 0
  | some {x y Z : K} (h : (curve A).Nonsingular x y) (hZ : Z ≠ 0) : Represents (x * Z) Z (Point.some x y h)

/-- The x-coordinate, 0 for the point at infinity. -/
def x0 : (curve A).Point → K
  | .zero => 0
  | .some x _ _ => x

variable {X Z : K} {P : (curve A).Point}

theorem Represents.div_eq (h : Represents X Z P) : X / Z = x0 P := by
  cases h with
  | zero hX => exact div_zero X
  | some h hZ => exact mul_div_cancel_right₀ _ hZ

theorem HasX.represents {x : K} (h : HasX P x) (hX : X = x * Z) (hZ : Z ≠ 0) : Represents X Z P := by
  obtain ⟨y, h, rfl⟩ := h
  rw [hX]
  exact .some h hZ

def doubleX (X Z : K) : K := (X + Z)^2 * (X - Z)^2

def doubleZ (a24 X Z : K) : K :=
  ((X + Z)^2 - (X - Z)^2) * (a24 * ((X + Z)^2 - (X - Z)^2) + (X + Z)^2)

def sumX (X Z X' Z' : K) : K := ((X' + Z') * (X - Z) + (X + Z) * (X' - Z'))^2

def sumZ (q X Z X' Z' : K) : K := ((X' + Z') * (X - Z) - (X + Z) * (X' - Z'))^2 * q

section Steps
variable [DecidableEq K] {a24 q X' Z' : K} {P' : (curve A).Point}

theorem represents_double (h2 : (2 : K) ≠ 0) (hA : A^2 ≠ 4) (ha : 4 * a24 = A - 2) (h : Represents X Z P) :
    Represents (doubleX X Z) (doubleZ a24 X Z) (P + P) := by
  cases h with
  | zero hX =>
    have hZ : doubleZ a24 X 0 = 0 := by
      rw [doubleZ]
      ring
    rw [hZ, add_zero]
    apply Represents.zero
    rw [doubleX, add_zero, sub_zero, ← mul_pow]
    exact pow_ne_zero 2 (mul_ne_zero hX hX)
  | @some x y Z h hZ =>
    have heq := on_curve_iff.mp h.1
    have hdX : doubleX (x * Z) Z = (x^2 - 1)^2 * Z^4 := by
      rw [doubleX]
      ring
    have hdZ : doubleZ a24 (x * Z) Z = 4 * (x^3 + A * x^2 + x) * Z^4 := by
      rw [doubleZ]
      linear_combination 4 * x^2 * Z^4 * ha
    rw [hdX, hdZ]
    by_cases hy : y = 0
    · subst hy
      have hsum : Point.some x 0 h + Point.some x 0 h = 0 := Point.add_self_of_Y_eq (by rw [negY_eq, neg_zero])
      rw [hsum, ← heq]
      have hzero : 4 * (0 : K)^2 * Z^4 = 0 := by ring
      rw [hzero]
      apply Represents.zero
      apply mul_ne_zero _ (pow_ne_zero 4 hZ)
      -- the points of order 2 have other x-coordinates than 1 and -1
      intro hone
      have hx2 : x^2 = 1 := sub_eq_zero.mp (pow_eq_zero_iff two_ne_zero |>.mp hone)
      apply hA
      have hx : A + 2 * x = 0 := by linear_combination -heq - (A + x) * hx2
      linear_combination (A - 2 * x) * hx + 4 * hx2
    · obtain ⟨u, hu, hval⟩ := double_x h2 (h := h) hy
      apply hu.represents
      · rw [← hval]
        ring
      · rw [← heq]
        exact mul_ne_zero (mul_ne_zero (four_ne_zero' h2) (pow_ne_zero 2 hy)) (pow_ne_zero 4 hZ)

/-- The sum of two points whose difference is known. -/
theorem represents_sum (h2 : (2 : K) ≠ 0) (hdiff : HasX (P - P') q) (hq : q ≠ 0) (h : Represents X Z P)
    (h' : Represents X' Z' P') : Represents (sumX X Z X' Z') (sumZ q X Z X' Z') (P + P') := by
  cases h with
  | zero hX =>
    cases h' with
    | zero hX' => exact absurd (sub_self _) hdiff.ne_zero
    | @some x y Z' h hZ' =>
      rw [zero_sub] at hdiff
      obtain rfl := (hasX_neg hdiff).unique ⟨y, h, neg_neg _⟩
      rw [zero_add]
      apply HasX.represents ⟨y, h, rfl⟩
      · rw [sumX, sumZ]
        ring
      · have hval : sumZ q X 0 (q * Z') Z' = (2 * X * Z')^2 * q := by
          rw [sumZ]
          ring
        rw [hval]
        exact mul_ne_zero (pow_ne_zero 2 (mul_ne_zero (mul_ne_zero h2 hX) hZ')) hq
  | @some x y Z h hZ =>
    cases h' with
    | zero hX' =>
      rw [sub_zero] at hdiff
      obtain rfl := hdiff.unique ⟨y, h, rfl⟩
      rw [add_zero]
      apply HasX.represents ⟨y, h, rfl⟩
      · rw [sumX, sumZ]
        ring
      · have hval : sumZ q (q * Z) Z X' 0 = (2 * Z * X')^2 * q := by
          rw [sumZ]
          ring
        rw [hval]
        exact mul_ne_zero (pow_ne_zero 2 (mul_ne_zero (mul_ne_zero h2 hZ) hX')) hq
    | @some x' y' Z' h' hZ' =>
      have hsX : sumX (x * Z) Z (x' * Z') Z' = (x * x' - 1)^2 * (2 * Z * Z')^2 := by
        rw [sumX]
        ring
      have hsZ : sumZ q (x * Z) Z (x' * Z') Z' = q * (x - x')^2 * (2 * Z * Z')^2 := by
        rw [sumZ]
        ring
      have hZZ : (2 * Z * Z')^2 ≠ 0 := pow_ne_zero 2 (mul_ne_zero (mul_ne_zero h2 hZ) hZ')
      rw [hsX, hsZ]
      by_cases hne : x = x'
      · subst hne
        have hdouble : Point.some x y h = -Point.some x y' h' := by
          refine (Point.X_eq_iff.mp rfl).resolve_left fun heq => ?_
          exact hdiff.ne_zero (sub_eq_zero.mpr heq)
        have hsum : Point.some x y h + Point.some x y' h' = 0 := by rw [hdouble, neg_add_cancel]
        have hsZ0 : q * (x - x)^2 * (2 * Z * Z')^2 = 0 := by ring
        rw [hsum, hsZ0]
        apply Represents.zero
        apply mul_ne_zero _ hZZ
        -- the difference is the double of the point, and its x-coordinate is not 0
        have hminus : Point.some x y h - Point.some x y' h' = Point.some x y h + Point.some x y h := by
          rw [sub_eq_add_neg, ← hdouble]
        rw [hminus] at hdiff
        have hy : y ≠ 0 := by
          rintro rfl
          exact hdiff.ne_zero (Point.add_self_of_Y_eq (by rw [negY_eq, neg_zero]))
        obtain ⟨u, hu, hval⟩ := double_x h2 (h := h) hy
        obtain rfl := hdiff.unique hu
        rw [← sq x, ← hval, ← on_curve_iff.mp h.1]
        exact mul_ne_zero hq (mul_ne_zero (four_ne_zero' h2) (pow_ne_zero 2 hy))
      · obtain ⟨u, v, hu, hv, hval⟩ := add_sub_x h h' hne
        obtain rfl := hdiff.unique hv
        apply hu.represents
        · rw [← hval]
          ring
        · exact mul_ne_zero (mul_ne_zero hq (pow_ne_zero 2 (sub_ne_zero.mpr hne))) hZZ

end Steps

/-- A multiple of the point and the next one. -/
structure Ladder (K : Type*) where
  X : K
  Z : K
  X' : K
  Z' : K

def Ladder.step (a24 q : K) (s : Ladder K) (bit : Bool) : Ladder K :=
  if bit then ⟨sumX s.X' s.Z' s.X s.Z, sumZ q s.X' s.Z' s.X s.Z, doubleX s.X' s.Z', doubleZ a24 s.X' s.Z'⟩
  else ⟨doubleX s.X s.Z, doubleZ a24 s.X s.Z, sumX s.X s.Z s.X' s.Z', sumZ q s.X s.Z s.X' s.Z'⟩

/-- The ladder over some bits, the highest first. -/
def ladder (a24 q : K) (bits : List Bool) : Ladder K := bits.foldl (Ladder.step a24 q) ⟨1, 0, q, 1⟩

/-- The number that bits stand for, the highest first. -/
def ofBits (bits : List Bool) : Nat := bits.foldl (fun n bit => 2 * n + bit.toNat) 0

theorem ofBits_concat (bits : List Bool) (bit : Bool) : ofBits (bits ++ [bit]) = 2 * ofBits bits + bit.toNat := by
  rw [ofBits, List.foldl_append]
  rfl

theorem ladder_concat (a24 q : K) (bits : List Bool) (bit : Bool) :
    ladder a24 q (bits ++ [bit]) = (ladder a24 q bits).step a24 q bit := by
  rw [ladder, List.foldl_append]
  rfl

section Run
variable [DecidableEq K] {a24 q : K}

/-- From a difference other than 0 on, the ladder holds the multiples of the point. -/
theorem represents_ladder (h2 : (2 : K) ≠ 0) (hA : A^2 ≠ 4) (ha : 4 * a24 = A - 2) (hP : HasX P q) (hq : q ≠ 0)
    (bits : List Bool) :
    Represents (ladder a24 q bits).X (ladder a24 q bits).Z (ofBits bits • P) ∧
      Represents (ladder a24 q bits).X' (ladder a24 q bits).Z' ((ofBits bits + 1) • P) := by
  induction bits using List.reverseRecOn with
  | nil =>
    constructor
    · rw [ofBits, List.foldl_nil, zero_smul]
      exact .zero one_ne_zero
    · rw [ofBits, List.foldl_nil, zero_add, one_smul]
      exact hP.represents (mul_one q).symm one_ne_zero
  | append_singleton bits bit ih =>
    obtain ⟨hn, hn'⟩ := ih
    rw [ladder_concat, ofBits_concat]
    generalize ladder a24 q bits = s at hn hn' ⊢
    generalize ofBits bits = n at hn hn' ⊢
    cases bit with
    | false =>
      have hdiff : HasX (n • P - (n + 1) • P) q := by
        rw [succ_nsmul, sub_add_cancel_left]
        exact hasX_neg hP
      have hdouble := represents_double h2 hA ha hn
      have hsum := represents_sum h2 hdiff hq hn hn'
      rw [← two_nsmul, smul_smul] at hdouble
      rw [← add_nsmul] at hsum
      have hnext : n + (n + 1) = 2 * n + 1 := by omega
      rw [hnext] at hsum
      exact ⟨hdouble, hsum⟩
    | true =>
      have hdiff : HasX ((n + 1) • P - n • P) q := by
        rw [succ_nsmul, add_sub_cancel_left]
        exact hP
      have hdouble := represents_double h2 hA ha hn'
      have hsum := represents_sum h2 hdiff hq hn' hn
      rw [← two_nsmul, smul_smul] at hdouble
      rw [← add_nsmul] at hsum
      have hnext : n + 1 + n = 2 * n + 1 := by omega
      have hnext' : 2 * (n + 1) = 2 * n + 1 + 1 := by omega
      rw [hnext] at hsum
      rw [hnext'] at hdouble
      exact ⟨hsum, hdouble⟩

omit [DecidableEq K] in
/-- From the difference 0 on, one of the coordinates stays 0. -/
theorem ladder_zero (a24 : K) (bits : List Bool) :
    (ladder a24 0 bits).X * (ladder a24 0 bits).Z = 0 ∧ (ladder a24 0 bits).X' * (ladder a24 0 bits).Z' = 0 := by
  induction bits using List.reverseRecOn with
  | nil => exact ⟨mul_zero 1, zero_mul 1⟩
  | append_singleton bits bit ih =>
    obtain ⟨hn, hn'⟩ := ih
    rw [ladder_concat]
    generalize ladder a24 0 bits = s at hn hn' ⊢
    have hdouble (X Z : K) (h : X * Z = 0) : doubleX X Z * doubleZ a24 X Z = 0 := by
      have hzero : doubleZ a24 X Z = X * Z * (4 * (a24 * (4 * (X * Z)) + (X + Z)^2)) := by
        rw [doubleZ]
        ring
      rw [hzero, h, zero_mul, mul_zero]
    have hsum (X Z X' Z' : K) : sumX X Z X' Z' * sumZ 0 X Z X' Z' = 0 := by rw [sumZ, mul_zero, mul_zero]
    cases bit with
    | false => exact ⟨hdouble _ _ hn, hsum _ _ _ _⟩
    | true => exact ⟨hsum _ _ _ _, hdouble _ _ hn'⟩

/-- The multiples of the point of order 2 at 0. -/
theorem x0_smul_of_zero (hP : HasX P 0) (n : Nat) : x0 (n • P) = 0 := by
  obtain ⟨y, h, rfl⟩ := hP
  have hy : y = 0 := by
    have heq := on_curve_iff.mp h.1
    apply pow_eq_zero_iff two_ne_zero |>.mp
    linear_combination heq
  subst hy
  have hsum : Point.some 0 0 h + Point.some 0 0 h = 0 := Point.add_self_of_Y_eq (by rw [negY_eq, neg_zero])
  have hall : n • Point.some 0 0 h = 0 ∨ n • Point.some 0 0 h = Point.some 0 0 h := by
    induction n with
    | zero => exact Or.inl (zero_smul _ _)
    | succ n ih =>
      rw [succ_nsmul]
      obtain hn | hn := ih <;> rw [hn]
      · exact Or.inr (zero_add _)
      · exact Or.inl hsum
  obtain hn | hn := hall <;> rw [hn] <;> rfl

/-- The ladder ends with the x-coordinate of the multiple that its bits stand for. -/
theorem ladder_div (h2 : (2 : K) ≠ 0) (hA : A^2 ≠ 4) (ha : 4 * a24 = A - 2) (hP : HasX P q) (bits : List Bool) :
    (ladder a24 q bits).X / (ladder a24 q bits).Z = x0 (ofBits bits • P) := by
  by_cases hq : q = 0
  · subst hq
    rw [x0_smul_of_zero hP, div_eq_zero_iff]
    exact mul_eq_zero.mp (ladder_zero a24 bits).1
  · exact (represents_ladder h2 hA ha hP hq bits).1.div_eq

end Run

/-- The x-coordinate at the end of the ladder. -/
def ladderX (a24 q : K) (bits : List Bool) : K := (ladder a24 q bits).X / (ladder a24 q bits).Z

theorem hasX_of_ne_zero (h : P ≠ 0) : HasX P (x0 P) := by
  cases P with
  | zero => exact absurd rfl h
  | some x y hxy => exact ⟨y, hxy, rfl⟩

/-- The origin is a point of order 2. -/
theorem exists_hasX_zero (A : K) : ∃ P : (curve A).Point, HasX P 0 := by
  have h : (curve A).Nonsingular 0 0 := by
    rw [nonsingular_iff]
    refine ⟨on_curve_iff.mpr (by ring), ?_⟩
    simp
  exact ⟨_, 0, h, rfl⟩

section Multiples
variable [DecidableEq K] {a24 : K}

/-- The ladder from the x-coordinate of any point, the one at infinity included. -/
theorem ladderX_x0 (h2 : (2 : K) ≠ 0) (hA : A^2 ≠ 4) (ha : 4 * a24 = A - 2) (P : (curve A).Point) (bits : List Bool) :
    ladderX a24 (x0 P) bits = x0 (ofBits bits • P) := by
  by_cases hP : P = 0
  · obtain ⟨P₀, hP₀⟩ := exists_hasX_zero A
    rw [hP, smul_zero]
    exact (ladder_div h2 hA ha hP₀ bits).trans (x0_smul_of_zero hP₀ _)
  · exact ladder_div h2 hA ha (hasX_of_ne_zero hP) bits

end Multiples

section Maps
variable {F : Type*} [Field F] (f : F →+* K) (a24 q : F)

def Ladder.map (f : F →+* K) (s : Ladder F) : Ladder K := ⟨f s.X, f s.Z, f s.X', f s.Z'⟩

theorem map_ladder (bits : List Bool) : (ladder a24 q bits).map f = ladder (f a24) (f q) bits := by
  induction bits using List.reverseRecOn with
  | nil => simp [ladder, Ladder.map]
  | append_singleton bits bit ih =>
    rw [ladder_concat, ladder_concat, ← ih]
    cases bit <;>
      simp [Ladder.step, Ladder.map, doubleX, doubleZ, sumX, sumZ]

theorem map_ladderX (bits : List Bool) : f (ladderX a24 q bits) = ladderX (f a24) (f q) bits := by
  rw [ladderX, ladderX, ← map_ladder, map_div₀]
  rfl

end Maps

/-- Over an algebraically closed field every element is the x-coordinate of a point. -/
theorem exists_x0 [IsAlgClosed K] (h2 : (2 : K) ≠ 0) (hA : A^2 ≠ 4) (q : K) : ∃ P : (curve A).Point, x0 P = q := by
  obtain ⟨y, hy⟩ := IsAlgClosed.exists_pow_nat_eq (q^3 + A * q^2 + q) (by decide : 0 < 2)
  exact ⟨.some q y (nonsingular h2 hA hy), rfl⟩

section Closure
variable {a24 : K} (h2 : (2 : K) ≠ 0) (hA : A^2 ≠ 4) (ha : 4 * a24 = A - 2)
include h2 hA

theorem map_constants {L : Type*} [Field L] (f : K →+* L) : (2 : L) ≠ 0 ∧ (f A)^2 ≠ 4 := by
  constructor
  · rw [← map_ofNat f 2]
    exact (map_ne_zero f).mpr h2
  · rw [← map_pow, ← map_ofNat f 4]
    exact f.injective.ne hA

/-- Every ladder is that of a point over the algebraic closure. -/
theorem exists_point (q : K) :
    ∃ P : (curve (algebraMap K (AlgebraicClosure K) A)).Point, x0 P = algebraMap K (AlgebraicClosure K) q :=
  have h := map_constants h2 hA (algebraMap K (AlgebraicClosure K))
  exists_x0 h.1 h.2 _

include ha

/-- A ladder of a field, by a point over a larger one. -/
theorem map_ladderX_x0 {L : Type*} [Field L] [DecidableEq L] (f : K →+* L) {q : K} {P : (curve (f A)).Point} (hP : x0 P = f q)
    (bits : List Bool) : f (ladderX a24 q bits) = x0 (ofBits bits • P) := by
  obtain ⟨h2', hA'⟩ := map_constants h2 hA f
  have ha' : 4 * f a24 = f A - 2 := by
    rw [← map_ofNat f 4, ← map_ofNat f 2, ← map_mul, ha, map_sub]
  rw [map_ladderX, ← hP, ladderX_x0 h2' hA' ha']

/-- Two ladders, one from the end of the other, may run in either order. -/
theorem ladderX_comm (q : K) (bits bits' : List Bool) :
    ladderX a24 (ladderX a24 q bits) bits' = ladderX a24 (ladderX a24 q bits') bits := by
  classical
  obtain ⟨P, hP⟩ := exists_point h2 hA q
  have hrun := map_ladderX_x0 h2 hA ha _ hP
  apply (algebraMap K (AlgebraicClosure K)).injective
  rw [map_ladderX_x0 h2 hA ha _ (hrun bits).symm, map_ladderX_x0 h2 hA ha _ (hrun bits').symm, smul_smul, smul_smul, mul_comm]

end Closure

end SuperNet.Lib.MontgomeryCurve
