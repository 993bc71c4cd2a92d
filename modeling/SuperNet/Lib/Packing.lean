import Mathlib.Tactic

/-! Digits to the base 4 packed into one number, which is put together in halves. -/
namespace SuperNet.Lib.Packing

/-- Digit `i` of a number. -/
def digit (x i : Nat) : Nat := (x >>> (2 * i)) &&& 3

/-- The number of the digits from `a` on, `2^k` of them. -/
def pack (d : Nat → Nat) : Nat → Nat → Nat
  | 0, a => d a
  | k + 1, a => pack d k a + pack d k (a + 2^k) <<< (2 * 2^k)

theorem digit_eq (x i : Nat) : digit x i = x / 4^i % 4 := by
  have hmask : (3 : Nat) = 2^2 - 1 := rfl
  rw [digit, hmask, Nat.and_two_pow_sub_one_eq_mod, Nat.shiftRight_eq_div_pow, Nat.pow_mul]

theorem digit_lt (x i : Nat) : digit x i < 4 := by
  rw [digit_eq]
  exact Nat.mod_lt _ (by decide)

theorem pack_lt {d : Nat → Nat} (hd : ∀ i, d i < 4) (k a : Nat) : pack d k a < 4^2^k := by
  induction k generalizing a with
  | zero => exact hd a
  | succ k ih =>
    have hlo := ih a
    have hhi := Nat.mul_le_mul_right (4^2^k) (Nat.succ_le_of_lt (ih (a + 2^k)))
    have hpow : (4 : Nat)^2^(k + 1) = 4^2^k * 4^2^k := by rw [← Nat.pow_add, ← Nat.mul_two, ← Nat.pow_succ]
    have hfour : (2 : Nat)^2 = 4 := rfl
    rw [Nat.succ_mul] at hhi
    rw [pack, Nat.shiftLeft_eq, Nat.pow_mul, hfour, hpow]
    omega

theorem digit_pack {d : Nat → Nat} (hd : ∀ i, d i < 4) (k a : Nat) {i : Nat} (hi : i < 2^k) :
    digit (pack d k a) i = d (a + i) := by
  induction k generalizing a i with
  | zero =>
    obtain rfl : i = 0 := by omega
    rw [digit_eq, pack, pow_zero, Nat.div_one, Nat.mod_eq_of_lt (hd a), Nat.add_zero]
  | succ k ih =>
    have hlo := pack_lt hd k a
    have hpos : 0 < 4^2^k := Nat.pos_of_ne_zero (by positivity)
    rw [pack, Nat.shiftLeft_eq, Nat.pow_mul, digit_eq]
    by_cases hlt : i < 2^k
    · have hsplit : (4 : Nat)^2^k = 4^i * (4 * 4^(2^k - i - 1)) := by
        rw [← Nat.pow_succ', ← Nat.pow_add]
        congr 1
        omega
      rw [hsplit, Nat.mul_comm (pack d k (a + 2^k)), Nat.mul_assoc, Nat.add_mul_div_left _ _ (by positivity), Nat.mul_assoc,
        Nat.add_mul_mod_self_left, ← digit_eq, ih a hlt]
    · obtain ⟨j, rfl⟩ := Nat.exists_eq_add_of_le (Nat.le_of_not_lt hlt)
      have hj : j < 2^k := by
        rw [Nat.pow_succ] at hi
        omega
      rw [Nat.pow_add, ← Nat.div_div_eq_div_mul, Nat.add_mul_div_right _ _ hpos, Nat.div_eq_of_lt hlo, Nat.zero_add,
        ← digit_eq, ih _ hj, Nat.add_assoc]

end SuperNet.Lib.Packing
