import Mathlib.Data.Nat.Digits.Defs
import Mathlib.Tactic

/-! The decimal digits of a number as characters, the highest first. -/
namespace SuperNet.Lib.Decimal

theorem toDigits_step (n : Nat) :
    Nat.toDigits 10 n = if n < 10 then [Nat.digitChar n] else Nat.toDigits 10 (n / 10) ++ [Nat.digitChar (n % 10)] :=
  Nat.toDigits_eq_if (by decide)

theorem mem_toDigits {n : Nat} {c : Char} (h : c ∈ Nat.toDigits 10 n) : ∃ d < 10, c = Nat.digitChar d := by
  induction n using Nat.strongRecOn with
  | ind n ih =>
    rw [toDigits_step] at h
    split at h
    · next hlt => exact ⟨n, hlt, List.mem_singleton.mp h⟩
    · next hge =>
      rcases List.mem_append.mp h with h | h
      · exact ih (n / 10) (by omega) h
      · exact ⟨n % 10, Nat.mod_lt n (by decide), List.mem_singleton.mp h⟩

/-- Reading the digits gives the number back, whatever else a value gives to other characters. -/
theorem foldl_toDigits {v : Char → Nat} (hv : ∀ d < 10, v (Nat.digitChar d) = d) (n : Nat) :
    (Nat.toDigits 10 n).foldl (fun n c => n * 10 + v c) 0 = n := by
  induction n using Nat.strongRecOn with
  | ind n ih =>
    rw [toDigits_step]
    split
    · next hlt => rw [List.foldl_cons, List.foldl_nil, hv n hlt, Nat.zero_mul, Nat.zero_add]
    · next hge =>
      rw [List.foldl_append, ih (n / 10) (by omega), List.foldl_cons, List.foldl_nil, hv _ (Nat.mod_lt n (by decide)),
        Nat.div_add_mod']

theorem head_toDigits {n : Nat} (h : 0 < n) : ∃ d, 0 < d ∧ d < 10 ∧ (Nat.toDigits 10 n).head? = some (Nat.digitChar d) := by
  induction n using Nat.strongRecOn with
  | ind n ih =>
    rw [toDigits_step]
    split
    · next hlt => exact ⟨n, h, hlt, rfl⟩
    · next hge =>
      obtain ⟨d, hd, hd10, hhead⟩ := ih (n / 10) (by omega) (by omega)
      exact ⟨d, hd, hd10, by rw [List.head?_append, hhead]; rfl⟩

end SuperNet.Lib.Decimal
