import Mathlib.Tactic

/-! A function iterated over the blocks of a stream that comes in pieces of any length. -/
namespace SuperNet.Lib.IteratedHash

variable {S α : Type} (compress : S → List α → S) (B : Nat)

/-- The state after some blocks of a list. -/
def absorb : Nat → S → List α → S
  | 0, s, _ => s
  | k + 1, s, bytes => absorb k (compress s (bytes.take B)) (bytes.drop B)

/-- The state after all whole blocks of a list. -/
def iterated (s : S) (bytes : List α) : S := absorb compress B (bytes.length / B) s bytes

/-- A stream has been fed when its whole blocks have gone into the state and the rest is kept. -/
structure Fed (iv : S) (bytes : List α) (s : S) (rest : List α) : Prop where
  short : rest.length < B
  blocks : ∃ k whole, whole.length = k * B ∧ bytes = whole ++ rest ∧ s = absorb compress B k iv whole

variable {compress B}

theorem absorb_append {k : Nat} {whole : List α} (h : whole.length = k * B) (j : Nat) (s : S) (bytes : List α) :
    absorb compress B (k + j) s (whole ++ bytes) = absorb compress B j (absorb compress B k s whole) bytes := by
  induction k generalizing s whole with
  | zero =>
    rw [Nat.zero_mul, List.length_eq_zero_iff] at h
    rw [h, List.nil_append, Nat.zero_add, absorb]
  | succ k ih =>
    rw [Nat.succ_mul] at h
    have hle : B ≤ whole.length := by omega
    have hdrop : (whole.drop B).length = k * B := by
      rw [List.length_drop]
      omega
    rw [Nat.succ_add, absorb, absorb, List.take_append_of_le_length hle, List.drop_append_of_le_length hle, ih hdrop]

theorem fed_nil (hB : 0 < B) (iv : S) : Fed compress B iv [] iv [] :=
  ⟨hB, 0, [], (Nat.zero_mul B).symm, rfl, rfl⟩

section Steps
variable {iv s : S} {bytes rest : List α} (h : Fed compress B iv bytes s rest)
include h

/-- What does not fill a block is kept. -/
theorem Fed.keep {piece : List α} (hshort : rest.length + piece.length < B) :
    Fed compress B iv (bytes ++ piece) s (rest ++ piece) := by
  obtain ⟨-, k, whole, hlen, rfl, hs⟩ := h
  refine ⟨?_, k, whole, hlen, List.append_assoc _ _ _, hs⟩
  rw [List.length_append]
  exact hshort

theorem Fed.fill {piece : List α} (hfull : rest.length + piece.length = B) :
    Fed compress B iv (bytes ++ piece) (compress s (rest ++ piece)) [] := by
  obtain ⟨hshort, k, whole, hlen, rfl, rfl⟩ := h
  have hblock : (rest ++ piece).length = B := by rw [List.length_append, hfull]
  refine ⟨Nat.zero_lt_of_lt hshort, k + 1, whole ++ (rest ++ piece), ?_, by simp, ?_⟩
  · rw [List.length_append, hlen, hblock, Nat.succ_mul]
  · rw [absorb_append hlen, absorb, absorb, List.take_of_length_le hblock.le]

/-- The state depends on the bytes alone, however they came. -/
theorem Fed.state_eq : s = iterated compress B iv bytes := by
  obtain ⟨hshort, k, whole, hlen, rfl, rfl⟩ := h
  have hB : 0 < B := Nat.zero_lt_of_lt hshort
  have hcount : (whole ++ rest).length / B = k := by
    rw [List.length_append, hlen, Nat.mul_comm, Nat.mul_add_div hB, Nat.div_eq_of_lt hshort, Nat.add_zero]
  have hsplit : absorb compress B (k + 0) iv (whole ++ rest) = _ := absorb_append hlen 0 iv rest
  rw [Nat.add_zero] at hsplit
  rw [iterated, hcount, hsplit, absorb]

theorem Fed.length_rest : rest.length = bytes.length % B := by
  obtain ⟨hshort, k, whole, hlen, rfl, -⟩ := h
  rw [List.length_append, hlen, Nat.add_comm, Nat.add_mul_mod_self_right, Nat.mod_eq_of_lt hshort]

end Steps

end SuperNet.Lib.IteratedHash
