import Mathlib.Data.Nat.ModEq
import Mathlib.Tactic.Common

/-! A pointer that goes round `N` seats: what holds of the last seats it has passed. -/
namespace SuperNet.Lib.Rotation

/-- The `n` seats before `pos`, counted round the table, have property `p`. -/
def Passed (N : Nat) (p : Nat → Prop) (pos n : Nat) : Prop :=
  ∀ s < N, ∀ k < n, s + 1 + k ≡ pos [MOD N] → p s

variable {N pos n : Nat} {p q : Nat → Prop}

theorem passed_zero : Passed N p pos 0 := fun _ _ _ hk => absurd hk (Nat.not_lt_zero _)

theorem passed_of_forall (h : ∀ s < N, p s) : Passed N p pos n := fun s hs _ _ _ => h s hs

theorem Passed.mono (h : Passed N p pos n) {n' : Nat} (hn : n' ≤ n) (hpq : ∀ s < N, p s → q s) :
    Passed N q pos n' :=
  fun s hs k hk hmod => hpq s hs (h s hs k (hk.trans_le hn) hmod)

theorem Passed.congr (h : Passed N p pos n) {pos' : Nat} (hpos : pos' ≡ pos [MOD N]) : Passed N p pos' n :=
  fun s hs k hk hmod => h s hs k hk (hmod.trans hpos)

/-- The pointer passes one more seat. -/
theorem Passed.advance (h : Passed N p pos n) (hp : p (pos % N)) : Passed N p (pos + 1) (n + 1) := by
  intro s hs k hk hmod
  cases k with
  | zero =>
    have hseat : s ≡ pos [MOD N] := Nat.ModEq.add_right_cancel' 1 hmod
    rwa [← Nat.mod_eq_of_lt hs, hseat]
  | succ k =>
    have hprev : s + 1 + k ≡ pos [MOD N] := Nat.ModEq.add_right_cancel' 1 hmod
    exact h s hs k (by omega) hprev

/-- The round in which a seat is met. -/
def roundOf (N pos s : Nat) : Nat := (s + (N - pos % N)) % N

theorem roundOf_seat (pos : Nat) {s : Nat} (hs : s < N) : (pos + roundOf N pos s) % N = s := by
  have hpos : pos % N < N := Nat.mod_lt _ (by omega)
  have hsum : pos % N + (s + (N - pos % N)) = s + N := by omega
  have hmod : pos + roundOf N pos s ≡ s [MOD N] := by
    calc pos + (s + (N - pos % N)) % N ≡ pos % N + (s + (N - pos % N)) [MOD N] :=
          Nat.ModEq.add (Nat.mod_modEq _ _).symm (Nat.mod_modEq _ _)
      _ = s + N := hsum
      _ ≡ s [MOD N] := Nat.add_modEq_right
  exact Eq.trans hmod (Nat.mod_eq_of_lt hs)

/-- Every seat is met within one round. -/
theorem exists_round (pos : Nat) {s : Nat} (hs : s < N) : ∃ k < N, (pos + k) % N = s :=
  ⟨roundOf N pos s, Nat.mod_lt _ (by omega), roundOf_seat pos hs⟩

theorem eq_roundOf {k s : Nat} (hk : k < N) (h : (pos + k) % N = s) : k = roundOf N pos s := by
  have hN : 0 < N := by omega
  have hs : s < N := h ▸ Nat.mod_lt _ hN
  have hmod : pos + k ≡ pos + roundOf N pos s [MOD N] := h.trans (roundOf_seat pos hs).symm
  have hcancel : k ≡ roundOf N pos s [MOD N] := Nat.ModEq.add_left_cancel' pos hmod
  have hround : roundOf N pos s < N := Nat.mod_lt _ hN
  rwa [Nat.ModEq, Nat.mod_eq_of_lt hk, Nat.mod_eq_of_lt hround] at hcancel

/-- A pointer that has passed `N` seats has passed all of them. -/
theorem Passed.all (h : Passed N p pos n) (hn : N ≤ n) : ∀ s < N, p s := by
  intro s hs
  obtain ⟨k, hk, hmod⟩ := exists_round (s + 1) (Nat.mod_lt pos (by omega : 0 < N))
  exact h s hs k (by omega) hmod

section Wrap
variable {M start : Nat}

/-- The seat met in round `k` when the pointer is a word of `M` values. -/
def wrapped (M N start k : Nat) : Nat := (start + k) % M % N

/-- A seat is met before the word wraps, or by what is left of the round after it. -/
theorem wrapped_reaches_iff (hstart : start < M) (hle : N ≤ M) {s : Nat} (hs : s < N) :
    (∃ k < N, wrapped M N start k = s) ↔ start + roundOf N start s < M ∨ M + s < start + N := by
  constructor
  · rintro ⟨k, hk, hseat⟩
    rw [wrapped] at hseat
    by_cases hlt : start + k < M
    · rw [Nat.mod_eq_of_lt hlt] at hseat
      rw [← eq_roundOf hk hseat]
      exact Or.inl hlt
    · have hpast : (start + k) % M = start + k - M := by
        rw [Nat.mod_eq_sub_mod (Nat.le_of_not_lt hlt), Nat.mod_eq_of_lt (by omega)]
      rw [hpast, Nat.mod_eq_of_lt (by omega)] at hseat
      omega
  · rintro (hbefore | hafter)
    · refine ⟨roundOf N start s, Nat.mod_lt _ (by omega), ?_⟩
      rw [wrapped, Nat.mod_eq_of_lt hbefore, roundOf_seat start hs]
    · refine ⟨M + s - start, by omega, ?_⟩
      have hpast : start + (M + s - start) = s + M := by omega
      rw [wrapped, hpast, Nat.add_mod_right, Nat.mod_eq_of_lt (by omega : s < M), Nat.mod_eq_of_lt hs]

end Wrap

end SuperNet.Lib.Rotation
