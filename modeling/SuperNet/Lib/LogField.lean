import Mathlib.Algebra.Field.Basic
import Mathlib.Algebra.BigOperators.Group.Finset.Basic
import Mathlib.Tactic

/-! Fields given by tables of powers and logarithms: the powers of a generator run through all nonzero
elements and multiplication by the generator is additive. -/
namespace SuperNet.Lib.LogField

structure LogTables (A : Type*) [AddCommGroup A] where
  order : Nat
  order_pos : 0 < order
  exp : Nat → A
  log : A → Nat
  gen : A →+ A
  exp_succ : ∀ k, exp (k + 1) = gen (exp k)
  exp_order : exp order = exp 0
  exp_ne_zero : ∀ k < order, exp k ≠ 0
  exp_log : ∀ a, a ≠ 0 → exp (log a) = a
  log_exp : ∀ k < order, log (exp k) = k

namespace LogTables
variable {A : Type*} [AddCommGroup A] (t : LogTables A)

theorem exp_add (k l : Nat) : t.exp (k + l) = t.gen^[k] (t.exp l) := by
  induction k with
  | zero => rw [Nat.zero_add, Function.iterate_zero_apply]
  | succ k ih => rw [Nat.succ_add, exp_succ, ih, Function.iterate_succ_apply']

theorem exp_add_order (k : Nat) : t.exp (k + t.order) = t.exp k := by
  rw [exp_add, exp_order, ← exp_add, Nat.add_zero]

theorem exp_mod (k : Nat) : t.exp (k % t.order) = t.exp k := by
  have h (q r : Nat) : t.exp (r + t.order * q) = t.exp r := by
    induction q with
    | zero => rw [Nat.mul_zero, Nat.add_zero]
    | succ q ih => rw [Nat.mul_succ, ← Nat.add_assoc, exp_add_order, ih]
  have hk := h (k / t.order) (k % t.order)
  rw [Nat.mod_add_div] at hk
  exact hk.symm

theorem exp_congr {k l : Nat} (h : k ≡ l [MOD t.order]) : t.exp k = t.exp l := by
  rw [← exp_mod, show k % t.order = l % t.order from h, exp_mod]

theorem exp_ne (k : Nat) : t.exp k ≠ 0 := by
  rw [← exp_mod]
  exact t.exp_ne_zero _ (Nat.mod_lt _ t.order_pos)

theorem log_exp_mod (k : Nat) : t.log (t.exp k) = k % t.order := by
  rw [← exp_mod]
  exact t.log_exp _ (Nat.mod_lt _ t.order_pos)

variable [DecidableEq A]

/-- The product read from the tables. -/
def times (a b : A) : A := if a = 0 ∨ b = 0 then 0 else t.exp (t.log a + t.log b)

def recip (a : A) : A := if a = 0 then 0 else t.exp (t.order - t.log a % t.order)

theorem times_of_ne {a b : A} (ha : a ≠ 0) (hb : b ≠ 0) : t.times a b = t.exp (t.log a + t.log b) := by
  rw [times, if_neg (by simp [ha, hb])]

theorem exp_times_exp (k l : Nat) : t.times (t.exp k) (t.exp l) = t.exp (k + l) := by
  rw [times_of_ne t (t.exp_ne k) (t.exp_ne l), log_exp_mod, log_exp_mod]
  exact t.exp_congr ((Nat.mod_modEq _ _).add (Nat.mod_modEq _ _))

theorem times_comm (a b : A) : t.times a b = t.times b a := by
  simp only [times, Nat.add_comm (t.log a), or_comm]

/-- Multiplication by a nonzero element is multiplication by the generator, as often as its logarithm. -/
theorem times_eq_iterate {a : A} (ha : a ≠ 0) (b : A) : t.times a b = t.gen^[t.log a] b := by
  by_cases hb : b = 0
  · rw [times, if_pos (.inr hb), hb, iterate_map_zero]
  · rw [times_of_ne t ha hb, exp_add, t.exp_log b hb]

theorem times_add (a b c : A) : t.times a (b + c) = t.times a b + t.times a c := by
  by_cases ha : a = 0
  · simp [times, ha]
  · rw [times_eq_iterate t ha, times_eq_iterate t ha, times_eq_iterate t ha, iterate_map_add]

theorem one_times (b : A) : t.times (t.exp 0) b = b := by
  rw [times_eq_iterate t (t.exp_ne 0), log_exp_mod, Nat.zero_mod, Function.iterate_zero_apply]

theorem times_assoc (a b c : A) : t.times (t.times a b) c = t.times a (t.times b c) := by
  by_cases ha : a = 0
  · simp [times, ha]
  by_cases hb : b = 0
  · simp [times, hb]
  by_cases hc : c = 0
  · simp [times, hc]
  rw [times_of_ne t ha hb, times_of_ne t hb hc, times_of_ne t (t.exp_ne _) hc, times_of_ne t ha (t.exp_ne _),
    log_exp_mod, log_exp_mod]
  apply exp_congr
  calc (t.log a + t.log b) % t.order + t.log c
      ≡ t.log a + t.log b + t.log c [MOD t.order] := (Nat.mod_modEq _ _).add_right _
    _ = t.log a + (t.log b + t.log c) := Nat.add_assoc _ _ _
    _ ≡ t.log a + (t.log b + t.log c) % t.order [MOD t.order] := ((Nat.mod_modEq _ _).symm).add_left _

theorem times_recip {a : A} (ha : a ≠ 0) : t.times a (t.recip a) = t.exp 0 := by
  have hlt := Nat.mod_lt (t.log a) t.order_pos
  rw [recip, if_neg ha, times_of_ne t ha (t.exp_ne _), log_exp_mod]
  apply exp_congr
  calc t.log a + (t.order - t.log a % t.order) % t.order
      ≡ t.log a % t.order + (t.order - t.log a % t.order) [MOD t.order] :=
        (Nat.mod_modEq _ _).symm.add (Nat.mod_modEq _ _)
    _ = t.order := Nat.add_sub_cancel' hlt.le
    _ ≡ 0 [MOD t.order] := Nat.modEq_zero_iff_dvd.mpr dvd_rfl

/-- The tables make the group a field. -/
@[reducible] def field : Field A where
  __ := (inferInstance : AddCommGroup A)
  mul := t.times
  one := t.exp 0
  inv := t.recip
  left_distrib := t.times_add
  right_distrib a b c := (t.times_comm _ c).trans ((t.times_add c a b).trans
    (congrArg₂ (· + ·) (t.times_comm c a) (t.times_comm c b)))
  zero_mul a := if_pos (.inl rfl)
  mul_zero a := if_pos (.inr rfl)
  mul_assoc := t.times_assoc
  one_mul := t.one_times
  mul_one a := (t.times_comm a _).trans (t.one_times a)
  mul_comm := t.times_comm
  exists_pair_ne := ⟨t.exp 0, 0, t.exp_ne 0⟩
  mul_inv_cancel a ha := t.times_recip ha
  inv_zero := if_pos rfl
  nnqsmul := _
  nnqsmul_def := fun _ _ => rfl
  qsmul := _
  qsmul_def := fun _ _ => rfl

end LogTables

end SuperNet.Lib.LogField
