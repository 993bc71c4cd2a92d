import Mathlib.Tactic
import Mathlib.Data.ZMod.Basic

/-! Fixed-width machine words as integers reduced at each store. -/
namespace SuperNet.Lib.Words

/-- The value an unsigned word of `w` bits holds after `x` is stored in it. -/
def unsigned (w : Nat) (x : Int) : Nat := (x % 2^w).toNat

/-- The value a two's complement word of `w` bits holds after `x` is stored in it. -/
def signed (w : Nat) (x : Int) : Int := Int.bmod x (2^w)

abbrev u8 := unsigned 8
abbrev u16 := unsigned 16
abbrev u32 := unsigned 32
abbrev u64 := unsigned 64
abbrev i64 := signed 64

theorem unsigned_lt (w : Nat) (x : Int) : unsigned w x < 2^w := by
  have hp : (0 : Int) < 2^w := by positivity
  have h := Int.emod_lt_of_pos x hp
  have h0 := Int.emod_nonneg x hp.ne'
  rw [unsigned, Int.toNat_lt h0]
  exact_mod_cast h

theorem unsigned_natCast (w n : Nat) : unsigned w n = n % 2^w := by
  rw [unsigned]
  norm_cast

theorem unsigned_of_lt {w n : Nat} (h : n < 2^w) : unsigned w n = n := by
  rw [unsigned_natCast, Nat.mod_eq_of_lt h]

theorem unsigned_of_bounds {w : Nat} {x : Int} (h0 : 0 ≤ x) (h : x < 2^w) : (unsigned w x : Int) = x := by
  rw [unsigned, Int.toNat_of_nonneg (Int.emod_nonneg x (by positivity)), Int.emod_eq_of_lt h0 h]

theorem signed_of_bounds {w : Nat} {x : Int} (h0 : -2^w ≤ 2 * x) (h : 2 * x < 2^w) : signed w x = x := by
  have hp : (0 : Int) < ((2^w : Nat) : Int) := by positivity
  apply Int.bmod_eq_of_le_mul_two <;> push_cast <;> linarith

/-- Unsigned and signed stores keep the residue: word arithmetic is arithmetic modulo `2^w`. -/
@[simp] theorem unsigned_cast (w : Nat) (x : Int) : ((unsigned w x : Nat) : ZMod (2^w)) = (x : ZMod (2^w)) := by
  have hx : ((unsigned w x : Nat) : Int) = x % 2^w := Int.toNat_of_nonneg (Int.emod_nonneg x (by positivity))
  rw [← Int.cast_natCast, hx, ZMod.intCast_eq_intCast_iff]
  push_cast
  exact Int.mod_modEq x _

@[simp] theorem signed_cast (w : Nat) (x : Int) : ((signed w x : Int) : ZMod (2^w)) = (x : ZMod (2^w)) := by
  rw [signed, ZMod.intCast_eq_intCast_iff]
  exact Int.bmod_emod

theorem unsigned_signed (w : Nat) (x : Int) : unsigned w (signed w x) = unsigned w x := by
  have hcast : (2 : Int)^w = ((2^w : Nat) : Int) := by push_cast; rfl
  rw [unsigned, signed, hcast, Int.bmod_emod, unsigned, hcast]

/-- A factor may be reduced before its product is stored. -/
theorem signed_mul_unsigned (w : Nat) (x y : Int) : signed w (x * unsigned w y) = signed w (x * y) := by
  have hmod : x * (unsigned w y : Nat) ≡ x * y [ZMOD ((2^w : Nat) : Int)] := by
    rw [← ZMod.intCast_eq_intCast_iff]
    push_cast
    rw [unsigned_cast]
  unfold signed
  rw [← Int.emod_bmod, hmod, Int.emod_bmod]

theorem i64_mul_u64 (x y : Int) : i64 (x * u64 y) = i64 (x * y) := signed_mul_unsigned 64 x y

theorem i64_u64 (x : Int) : i64 (u64 x) = i64 x := by
  have h := i64_mul_u64 1 x
  rwa [one_mul, one_mul] at h

theorem u64_i64 (x : Int) : u64 (i64 x) = u64 x := unsigned_signed 64 x

theorem signed_bounds (x : Int) : -2^63 ≤ i64 x ∧ i64 x < 2^63 :=
  ⟨Int.le_bmod (by norm_num), Int.bmod_lt (by norm_num)⟩

/-- Past the largest value a signed word starts again at the smallest. -/
theorem signed_wrap {x : Int} (h : 2^63 ≤ x) (h' : x < 2^64) : i64 x = x - 2^64 := by
  have hshift : i64 x = i64 (x - 2^64) := (Int.sub_bmod_right x (2^64)).symm
  rw [hshift]
  exact signed_of_bounds (by omega) (by omega)

end SuperNet.Lib.Words
