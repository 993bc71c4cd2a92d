import Mathlib.NumberTheory.LucasPrimality
import Mathlib.Tactic

/-! Lucas certificates for primes. -/
namespace SuperNet.Lib.Primality

/-- `a^e` modulo `m` for exponents of at most `bits` bits. -/
def powMod (m a : Nat) : Nat → Nat → Nat
  | 0, _ => 1 % m
  | bits+1, e => (powMod m a bits (e / 2))^2 * a^(e % 2) % m

theorem powMod_eq (m a : Nat) {bits e : Nat} (h : e < 2^bits) : powMod m a bits e = a^e % m := by
  induction bits generalizing e with
  | zero =>
    obtain rfl : e = 0 := by omega
    rw [powMod, pow_zero]
  | succ bits ih =>
    have hhalf : e / 2 < 2^bits := by omega
    have hsplit : a^e = (a^(e / 2))^2 * a^(e % 2) := by
      rw [← pow_mul, ← pow_add, mul_comm, Nat.div_add_mod]
    rw [powMod, ih hhalf, hsplit, Nat.mul_mod, ← Nat.pow_mod, ← Nat.mul_mod]

/-- The number `p` has the base `a` as certificate, `qs` being the prime factors of `p - 1`. -/
def certified (p a : Nat) (qs : List Nat) : Bool :=
  2 ≤ p ∧ qs.prod = p - 1 ∧ powMod p a (p.log2 + 1) (p - 1) = 1 ∧ ∀ q ∈ qs, powMod p a (p.log2 + 1) ((p - 1) / q) ≠ 1

theorem prime_of_certified {p a : Nat} {qs : List Nat} (h : certified p a qs) (hqs : qs.Forall Nat.Prime) : p.Prime := by
  rw [List.forall_iff_forall_mem] at hqs
  simp only [certified, decide_eq_true_eq] at h
  obtain ⟨hp, hprod, hone, hne⟩ := h
  have hsize (e : Nat) (he : e ≤ p) : e < 2^(p.log2 + 1) := lt_of_le_of_lt he Nat.lt_log2_self
  have hcast (e : Nat) : (a : ZMod p)^e = 1 ↔ a^e % p = 1 := by
    rw [← Nat.cast_pow, ← Nat.cast_one, ZMod.natCast_eq_natCast_iff, Nat.ModEq, Nat.mod_eq_of_lt hp]
  apply lucas_primality p a
  · rw [hcast, ← powMod_eq p a (hsize (p - 1) (Nat.sub_le p 1)), hone]
  · intro q hq hdvd
    rw [← hprod] at hdvd
    obtain ⟨r, hr, hqr⟩ := (Prime.dvd_prod_iff hq.prime).mp hdvd
    obtain rfl := (Nat.prime_dvd_prime_iff_eq hq (hqs r hr)).mp hqr
    have hle : (p - 1) / q ≤ p := le_trans (Nat.div_le_self _ _) (Nat.sub_le p 1)
    rw [ne_eq, hcast, ← powMod_eq p a (hsize _ hle)]
    exact hne q hr

end SuperNet.Lib.Primality
