import SuperNet.Lib.Words

/-! Accounts numbered from zero, their total, and credits stored in signed words. -/
namespace SuperNet.Lib.Ledger
open SuperNet.Lib.Words Finset

/-- The total of the first `n` accounts. -/
def total (n : Nat) (f : Nat → Int) : Int := ∑ i ∈ range n, f i

variable {n slot : Nat} {f : Nat → Int}

theorem total_update (h : slot < n) (x : Int) : total n (Function.update f slot x) = total n f + (x - f slot) := by
  have hm : slot ∈ range n := mem_range.mpr h
  rw [total, total, sum_update_of_mem hm, ← add_sum_erase _ _ hm, sdiff_singleton_eq_erase]
  ring

theorem total_update_of_le (h : n ≤ slot) (x : Int) : total n (Function.update f slot x) = total n f := by
  refine sum_congr rfl fun i hi => Function.update_of_ne ?_ _ _
  have := mem_range.mp hi
  omega

/-- A credit stored in a word adds to the total modulo the size of the word. -/
theorem total_store (w : Nat) (h : slot < n) (x : Int) :
    (total n (Function.update f slot (signed w (f slot + x))) : ZMod (2^w)) = total n f + x := by
  rw [total_update h]
  push_cast
  rw [signed_cast]
  push_cast
  ring

theorem le_total (hf : ∀ i < n, 0 ≤ f i) (h : slot < n) : f slot ≤ total n f :=
  single_le_sum (fun i hi => hf i (mem_range.mp hi)) (mem_range.mpr h)

theorem total_nonneg (hf : ∀ i < n, 0 ≤ f i) : 0 ≤ total n f :=
  sum_nonneg fun i hi => hf i (mem_range.mp hi)

/-- A credit that keeps the total below the range of the word is stored exactly. -/
theorem total_credit {w : Nat} {x : Int} (hf : ∀ i < n, 0 ≤ f i) (h : slot < n) (hx : 0 ≤ x)
    (hb : 2 * (total n f + x) < 2^w) :
    total n (Function.update f slot (signed w (f slot + x))) = total n f + x ∧
      ∀ i < n, 0 ≤ Function.update f slot (signed w (f slot + x)) i := by
  have hslot := le_total hf h
  have hp : (0 : Int) < 2^w := by positivity
  have hstore : signed w (f slot + x) = f slot + x :=
    signed_of_bounds (by linarith [hf slot h]) (by linarith)
  rw [hstore]
  refine ⟨by rw [total_update h]; ring, fun i hi => ?_⟩
  by_cases hs : i = slot
  · rw [hs, Function.update_self]
    exact add_nonneg (hf slot h) hx
  · rw [Function.update_of_ne hs]
    exact hf i hi

end SuperNet.Lib.Ledger
