import SuperNet.Lib.Words

/-! Sums over a list that are kept in a word, and pools shared out in proportion to weights. -/
namespace SuperNet.Lib.Shares
open SuperNet.Lib.Words

variable {α : Type*}

/-- The sum of `f` over a list, stored in a word of `w` bits after each addition. -/
def tally (w : Nat) (f : α → Nat) (l : List α) : Nat := l.foldl (fun x a => unsigned w (x + f a : Nat)) 0

/-- Cutting each partial sum cuts the whole sum. -/
theorem tally_eq (w : Nat) (f : α → Nat) (l : List α) : tally w f l = (l.map f).sum % 2^w := by
  have hfold : ∀ x < 2^w, l.foldl (fun x a => unsigned w (x + f a : Nat)) x = (x + (l.map f).sum) % 2^w := by
    induction l with
    | nil =>
      intro x hx
      exact (Nat.mod_eq_of_lt hx).symm
    | cons a l ih =>
      intro x _
      rw [List.foldl_cons, ih _ (unsigned_lt w _), List.map_cons, List.sum_cons]
      rw [unsigned_natCast, Nat.mod_add_mod, Nat.add_assoc]
  have hzero := hfold 0 (Nat.two_pow_pos w)
  rwa [Nat.zero_add] at hzero

/-- It makes no difference whether what is added was cut before. -/
theorem tally_words (w : Nat) (f : α → Nat) (l : List α) : tally w (fun a => unsigned w (f a)) l = tally w f l := by
  unfold tally
  congr 1
  funext x a
  simp only [unsigned_natCast, Nat.add_mod_mod]

/-- A sum that fits the word is never cut, since no partial sum is larger. -/
theorem tally_of_lt {w : Nat} {f : α → Nat} {l : List α} (h : (l.map f).sum < 2^w) : tally w f l = (l.map f).sum := by
  rw [tally_eq, Nat.mod_eq_of_lt h]

/-- What is added may be known only for the members of the list. -/
theorem tally_congr {w : Nat} {f g : α → Nat} {l : List α} (hfg : ∀ a ∈ l, f a = g a) (h : (l.map g).sum < 2^w) :
    tally w f l = (l.map g).sum := by
  rw [← List.map_congr_left hfg] at h ⊢
  exact tally_of_lt h

variable {stake weight : α → Nat} {total : Nat} {l : List α}

/-- Shares rounded down never exceed the pool, when the weights add up to no more than the total. -/
theorem sum_share_le (pool : Nat) (h : (l.map weight).sum ≤ total) : (l.map fun a => weight a * pool / total).sum ≤ pool := by
  have hsum : (l.map fun a => weight a * pool / total).sum ≤ (l.map weight).sum * pool / total := by
    clear h
    induction l with
    | nil => simp
    | cons a l ih =>
      simp only [List.map_cons, List.sum_cons, Nat.add_mul]
      calc weight a * pool / total + (l.map fun a => weight a * pool / total).sum
          ≤ weight a * pool / total + (l.map weight).sum * pool / total := Nat.add_le_add_left ih _
        _ ≤ (weight a * pool + (l.map weight).sum * pool) / total := Nat.div_add_div_le_add_div
  calc (l.map fun a => weight a * pool / total).sum
      ≤ (l.map weight).sum * pool / total := hsum
    _ ≤ total * pool / total := Nat.div_le_div_right (Nat.mul_le_mul_right pool h)
    _ ≤ pool := Nat.div_le_of_le_mul (Nat.le_refl _)

/-- Stakes returned together with their shares of a pool take no more than the stakes and the pool. -/
theorem sum_settled_le (pool : Nat) (h : (l.map weight).sum ≤ total) :
    (l.map fun a => stake a + weight a * pool / total).sum ≤ (l.map stake).sum + pool := by
  rw [List.sum_map_add]
  exact Nat.add_le_add_left (sum_share_le pool h) _

end SuperNet.Lib.Shares
