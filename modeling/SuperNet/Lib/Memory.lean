import Mathlib.Data.List.Basic
import Mathlib.Data.List.GetD
import Mathlib.Tactic
import SuperNet.Lib.Runs

/-! Byte memory as a function of the address, read and written in slices. -/
namespace SuperNet.Lib.Memory
open SuperNet.Lib.Runs

/-- The `n` bytes from address `i` on. -/
def slice (mem : Nat → UInt8) (i n : Nat) : List UInt8 := (List.range' i n).map mem

/-- Memory after the bytes `bs` have been written at address `i`. -/
def blit (mem : Nat → UInt8) (i : Nat) (bs : List UInt8) : Nat → UInt8 :=
  fun k => if i ≤ k ∧ k < i + bs.length then bs.getD (k - i) 0 else mem k

/-- Memory after `f` has run on a pointer to address `i`. -/
def atPtr (mem : Nat → UInt8) (i : Nat) (f : (Nat → UInt8) → Nat → UInt8) : Nat → UInt8 :=
  fun k => if k < i then mem k else f (fun d => mem (i + d)) (k - i)

variable {mem : Nat → UInt8} {i n : Nat} {bs : List UInt8}

@[simp] theorem slice_length (mem : Nat → UInt8) (i n : Nat) : (slice mem i n).length = n := by
  simp [slice]

theorem slice_append (mem : Nat → UInt8) (i m n : Nat) :
    slice mem i (m + n) = slice mem i m ++ slice mem (i + m) n := by
  rw [slice, slice, slice, ← List.map_append]
  congr 1
  have h : List.range' i m ++ List.range' (i + 1 * m) n = List.range' i (m + n) := List.range'_append
  rw [one_mul] at h
  exact h.symm

theorem slice_congr {mem' : Nat → UInt8} (h : ∀ k, i ≤ k → k < i + n → mem k = mem' k) :
    slice mem i n = slice mem' i n := by
  apply List.map_congr_left
  intro k hk
  obtain ⟨d, hd, rfl⟩ := List.mem_range'.mp hk
  rw [one_mul]
  exact h _ (Nat.le_add_right i d) (by omega)

/-- What is written is read back. -/
theorem slice_blit (mem : Nat → UInt8) (i : Nat) (bs : List UInt8) : slice (blit mem i bs) i bs.length = bs := by
  apply List.ext_getElem (slice_length _ _ _)
  intro k hk hk'
  simp [slice, blit, hk']

/-- A write behind a slice leaves it alone. -/
theorem slice_blit_before {j : Nat} (h : i + n ≤ j) : slice (blit mem j bs) i n = slice mem i n := by
  apply slice_congr
  intro k _ hk
  rw [blit, if_neg (by omega)]

/-- A write over a shorter one at the same address is the only one left. -/
theorem blit_blit {cs : List UInt8} (h : bs.length ≤ cs.length) : blit (blit mem i bs) i cs = blit mem i cs := by
  funext k
  by_cases hk : i ≤ k ∧ k < i + cs.length
  · rw [blit, if_pos hk, blit, if_pos hk]
  · rw [blit, if_neg hk, blit, if_neg (by omega), blit, if_neg hk]

theorem blit_append (mem : Nat → UInt8) (i : Nat) (bs cs : List UInt8) :
    blit (blit mem i bs) (i + bs.length) cs = blit mem i (bs ++ cs) := by
  funext k
  rw [blit, blit, blit, List.length_append]
  by_cases hbs : k - i < bs.length
  · rw [if_neg (by omega), List.getD_append _ _ _ _ hbs]
    by_cases hk : i ≤ k
    · rw [if_pos (by omega), if_pos (by omega)]
    · rw [if_neg (by omega), if_neg (by omega)]
  · rw [List.getD_append_right _ _ _ _ (not_lt.mp hbs), ← Nat.sub_add_eq]
    by_cases hcs : i + bs.length ≤ k ∧ k < i + bs.length + cs.length
    · rw [if_pos hcs, if_pos (by omega)]
    · rw [if_neg hcs, if_neg (by omega), if_neg (by omega)]

/-- Of one long write, a part is read back at its own address. -/
theorem slice_blit_part {first mid last : List UInt8} {j : Nat} (hj : i + first.length = j) (hn : mid.length = n) :
    slice (blit mem i (first ++ (mid ++ last))) j n = mid := by
  subst hj hn
  rw [← blit_append, ← blit_append, slice_blit_before (le_refl _), slice_blit]

theorem atPtr_id (mem : Nat → UInt8) (i : Nat) : atPtr mem i (fun dest => dest) = mem := by
  funext k
  rw [atPtr]
  split
  · rfl
  · change mem (i + (k - i)) = mem k
    rw [Nat.add_sub_cancel' (by omega)]

/-- A loop over the blocks of an array, whose round `i` fills block `i` where `c i` holds, leaves these
blocks as their rounds have filled them: later rounds work behind them. -/
theorem rounds_atPtr (mem : Nat → UInt8) {f : Nat → (Nat → UInt8) → Nat → UInt8} {g : Nat → Nat → UInt8} {c : Nat → Prop} {width : Nat}
    (hin : ∀ i d k, c i → k < width → f i d k = g i k) {n i k : Nat} (hi : i < n) (hc : c i) (hk : k < width) :
    rounds (fun mem i => atPtr mem (i * width) (f i)) mem n (i * width + k) = g i k := by
  induction n with
  | zero => exact absurd hi (Nat.not_lt_zero i)
  | succ n ih =>
    rw [rounds_succ, atPtr]
    rcases Nat.lt_succ_iff_lt_or_eq.mp hi with hlt | rfl
    · have hblock : i * width + k < n * width :=
        lt_of_lt_of_le (Nat.add_lt_add_left hk _) (by rw [← Nat.succ_mul]; exact Nat.mul_le_mul_right _ hlt)
      rw [if_pos hblock, ih hlt]
    · rw [if_neg (by omega), Nat.add_sub_cancel_left, hin _ _ _ hc hk]

end SuperNet.Lib.Memory
