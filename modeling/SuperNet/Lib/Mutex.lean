import Mathlib.Tactic

/-! The calls of one thread on a mutex that is not recursive. -/
namespace SuperNet.Lib.Mutex

inductive Call
  | lock
  | unlock
  deriving DecidableEq, Repr

/-- The mutex after a call. A thread that waits for itself, or releases what it does not hold, has no
next state. -/
def step : Bool → Call → Option Bool
  | false, .lock => some true
  | true, .unlock => some false
  | _, _ => none

/-- The mutex after some calls, which is held or not before them. -/
def run : Bool → List Call → Option Bool
  | held, [] => some held
  | held, call :: calls => (step held call).bind fun held => run held calls

/-- So many times locked and unlocked again. -/
def pairs : Nat → List Call
  | 0 => []
  | n + 1 => .lock :: .unlock :: pairs n

theorem pairs_append (m n : Nat) : pairs m ++ pairs n = pairs (m + n) := by
  induction m with
  | zero => rw [Nat.zero_add, pairs, List.nil_append]
  | succ m ih => rw [Nat.succ_add, pairs, List.cons_append, List.cons_append, ih, pairs]

/-- A thread leaves the mutex free exactly when it unlocks once after each lock. -/
theorem run_free_iff (calls : List Call) : run false calls = some false ↔ ∃ n, calls = pairs n := by
  constructor
  · intro h
    match calls with
    | [] => exact ⟨0, rfl⟩
    | [.lock] => cases h
    | .unlock :: _ => cases h
    | .lock :: .lock :: _ => cases h
    | .lock :: .unlock :: calls =>
      obtain ⟨n, hn⟩ := (run_free_iff calls).mp h
      exact ⟨n + 1, by rw [hn, pairs]⟩
  · rintro ⟨n, rfl⟩
    induction n with
    | zero => rfl
    | succ n ih => exact ih

/-- Between the two lists of calls every lock is followed by one unlock. -/
def Released (before after : List Call) : Prop := ∃ n, after = before ++ pairs n

namespace Released
variable {before middle after : List Call}

theorem refl (calls : List Call) : Released calls calls := ⟨0, (List.append_nil calls).symm⟩

theorem trans (h : Released before middle) (h' : Released middle after) : Released before after := by
  obtain ⟨m, rfl⟩ := h
  obtain ⟨n, rfl⟩ := h'
  exact ⟨m + n, by rw [List.append_assoc, pairs_append]⟩

theorem pair (calls : List Call) : Released calls (calls ++ [.lock] ++ [.unlock]) := ⟨1, by rw [List.append_assoc]; rfl⟩

theorem not_twice_locked (calls : List Call) : ¬ Released calls (calls ++ [.lock] ++ [.lock]) := by
  rintro ⟨n, h⟩
  rw [List.append_assoc, List.append_cancel_left_eq] at h
  cases n <;> simp [pairs] at h

theorem free (h : Released [] after) : run false after = some false := by
  obtain ⟨n, rfl⟩ := h
  exact (run_free_iff _).mpr ⟨n, List.nil_append _⟩

end Released

end SuperNet.Lib.Mutex
