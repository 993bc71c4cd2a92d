import Mathlib.Data.List.Range

/-! Induction over the rounds of a loop written as a fold over a range. -/
namespace SuperNet.Lib.Runs

variable {σ : Type*} {f : σ → Nat → σ} {s : σ}

/-- The state of the loop after `n` rounds. -/
def rounds (f : σ → Nat → σ) (s : σ) (n : Nat) : σ := (List.range n).foldl f s

@[simp] theorem rounds_zero : rounds f s 0 = s := rfl

@[simp] theorem rounds_succ (n : Nat) : rounds f s (n + 1) = f (rounds f s n) n := by
  simp [rounds, List.range_succ, List.foldl_append]

/-- What holds before the loop and is kept by each round holds after it. -/
theorem rounds_induct {motive : Nat → σ → Prop} (n : Nat) (h0 : motive 0 s)
    (hstep : ∀ k < n, motive k (rounds f s k) → motive (k + 1) (f (rounds f s k) k)) :
    motive n (rounds f s n) := by
  induction n with
  | zero => exact h0
  | succ n ih =>
    rw [rounds_succ]
    exact hstep n (Nat.lt_succ_self n) (ih fun k hk => hstep k (Nat.lt_succ_of_lt hk))

/-- A loop that keeps the better of what it has and what it meets, starting from 0 for nothing: the
result is as good as every candidate, and is one of them unless it is 0. -/
theorem rounds_pick {c : Nat → Prop} {better : Nat → Nat → Prop} {v : Nat → Nat} {r : Nat → Nat → Prop}
    [∀ m j, Decidable (c j ∧ better m j)] (n : Nat) (hself : ∀ j, c j → r (v j) (v j))
    (hbetter : ∀ m j x, c j → better m j → r m x → r (v j) x)
    (hkeep : ∀ m j, c j → ¬ better m j → r m (v j)) :
    let m := rounds (fun m j => if c j ∧ better m j then v j else m) 0 n
    (∀ j < n, c j → r m (v j)) ∧ (m ≠ 0 → ∃ j < n, c j ∧ v j = m) := by
  refine rounds_induct (motive := fun k m => (∀ j < k, c j → r m (v j)) ∧ (m ≠ 0 → ∃ j < k, c j ∧ v j = m)) n
    ⟨fun _ h => absurd h (Nat.not_lt_zero _), fun h => absurd rfl h⟩ ?_
  intro k _ ⟨hall, hex⟩
  split
  case isTrue hnew =>
    refine ⟨fun j hj hc => ?_, fun _ => ⟨k, Nat.lt_succ_self k, hnew.1, rfl⟩⟩
    rcases Nat.lt_succ_iff_lt_or_eq.mp hj with hj | rfl
    · exact hbetter _ k _ hnew.1 hnew.2 (hall j hj hc)
    · exact hself j hc
  case isFalse hold =>
    refine ⟨fun j hj hc => ?_, fun hm => ?_⟩
    · rcases Nat.lt_succ_iff_lt_or_eq.mp hj with hj | rfl
      · exact hall j hj hc
      · exact hkeep _ j hc fun hb => hold ⟨hc, hb⟩
    · obtain ⟨j, hj, hc⟩ := hex hm
      exact ⟨j, Nat.lt_succ_of_lt hj, hc⟩

/-- A loop over the entries of a list that ends at the first for which `visit` says so. -/
def walk {α : Type*} (visit : σ → α → Bool × σ) : σ → List α → Bool × σ
  | s, [] => (false, s)
  | s, x :: xs => if (visit s x).1 then (true, (visit s x).2) else walk visit (visit s x).2 xs

/-- What holds before the walk and is kept by each visit holds after it. -/
theorem walk_induct {α : Type*} {visit : σ → α → Bool × σ} {motive : σ → Prop} (xs : List α) (h0 : motive s)
    (hvisit : ∀ t, ∀ x ∈ xs, motive t → motive (visit t x).2) : motive (walk visit s xs).2 := by
  induction xs generalizing s with
  | nil => exact h0
  | cons x xs ih =>
    have hx := hvisit s x List.mem_cons_self h0
    rw [walk]
    split
    · exact hx
    · exact ih hx fun t y hy => hvisit t y (List.mem_cons_of_mem x hy)

section Steps
variable {Op : Type*} {step : σ → Op → σ} {P Q : σ → Op → Prop}

/-- A condition on every step of a run and the state before it. -/
def Steps (step : σ → Op → σ) (P : σ → Op → Prop) : σ → List Op → Prop
  | _, [] => True
  | s, op :: ops => P s op ∧ Steps step P (step s op) ops

/-- Two conditions that agree wherever the invariant holds, which the second keeps, agree on every run. -/
theorem Steps.congr {I : σ → Prop} (hiff : ∀ s op, I s → (P s op ↔ Q s op)) (hkeep : ∀ s op, I s → Q s op → I (step s op))
    (ops : List Op) (hs : I s) : Steps step P s ops ↔ Steps step Q s ops := by
  induction ops generalizing s with
  | nil => exact Iff.rfl
  | cons op ops ih =>
    rw [Steps, Steps, hiff s op hs]
    exact and_congr_right fun hop => ih (hkeep s op hs hop)

end Steps

end SuperNet.Lib.Runs
