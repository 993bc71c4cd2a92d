import Mathlib.Algebra.Order.BigOperators.Group.List
import Mathlib.Algebra.Order.Floor.Ring
import Mathlib.Data.Rat.Floor
import Mathlib.Tactic.Linarith
import Mathlib.Tactic.Ring

/-! Quotients rounded down: the error of their products, and averages that stay within the averaged values. -/
namespace SuperNet.Lib.Averages

section
variable {x y : ℚ}

/-- A product of two rounded factors is short of the product by less than a step of each of them. -/
theorem floor_mul_floor (hx : 0 ≤ x) (hy : 0 ≤ y) :
    (⌊x⌋ : ℚ) * ⌊y⌋ ≤ x * y ∧ x * y - ⌊x⌋ * ⌊y⌋ ≤ x + ⌊y⌋ := by
  have hfx := Int.floor_le x
  have hfy := Int.floor_le y
  have hgx := (Int.lt_floor_add_one x).le
  have hgy := (Int.lt_floor_add_one y).le
  have hny : (0 : ℚ) ≤ ⌊y⌋ := by exact_mod_cast Int.floor_nonneg.mpr hy
  constructor
  · exact mul_le_mul hfx hfy hny hx
  · have hsplit : x * y - ⌊x⌋ * ⌊y⌋ = x * (y - ⌊y⌋) + (x - ⌊x⌋) * ⌊y⌋ := by ring
    rw [hsplit]
    apply add_le_add
    · exact mul_le_of_le_one_right hx (by linarith)
    · exact mul_le_of_le_one_left hny (by linarith)

end

variable {α : Type*} {w v : α → Nat} {l : List α} {lo hi : Nat}

theorem sum_mul_le (h : ∀ a ∈ l, v a ≤ hi) : (l.map fun a => w a * v a).sum ≤ (l.map w).sum * hi := by
  induction l with
  | nil => simp
  | cons a l ih =>
    simp only [List.map_cons, List.sum_cons, Nat.add_mul]
    apply Nat.add_le_add
    · exact Nat.mul_le_mul_left _ (h a List.mem_cons_self)
    · exact ih fun b hb => h b (List.mem_cons_of_mem a hb)

theorem le_sum_mul (h : ∀ a ∈ l, lo ≤ v a) : (l.map w).sum * lo ≤ (l.map fun a => w a * v a).sum := by
  induction l with
  | nil => simp
  | cons a l ih =>
    simp only [List.map_cons, List.sum_cons, Nat.add_mul]
    apply Nat.add_le_add
    · exact Nat.mul_le_mul_left _ (h a List.mem_cons_self)
    · exact ih fun b hb => h b (List.mem_cons_of_mem a hb)

/-- A value that has members of `s` on both sides. -/
def Within {β : Type*} [LE β] (s : Set β) (x : β) : Prop := (∃ a ∈ s, a ≤ x) ∧ ∃ b ∈ s, x ≤ b

section
variable {β : Type*} [LinearOrder β] {s t : Set β} {x y z : β}

theorem within_of_mem (h : x ∈ s) : Within s x := ⟨⟨x, h, le_rfl⟩, x, h, le_rfl⟩

theorem Within.mono (h : Within s x) (hst : s ⊆ t) : Within t x := by
  obtain ⟨⟨a, ha, hle⟩, b, hb, hge⟩ := h
  exact ⟨⟨a, hst ha, hle⟩, b, hst hb, hge⟩

/-- What lies between two such values is one itself. -/
theorem Within.between (hx : Within s x) (hy : Within s y) (hlo : min x y ≤ z) (hhi : z ≤ max x y) : Within s z := by
  obtain ⟨⟨a, ha, hax⟩, b, hb, hxb⟩ := hx
  obtain ⟨⟨c, hc, hcy⟩, d, hd, hyd⟩ := hy
  constructor
  · rcases min_choice x y with heq | heq <;> rw [heq] at hlo
    · exact ⟨a, ha, hax.trans hlo⟩
    · exact ⟨c, hc, hcy.trans hlo⟩
  · rcases max_choice x y with heq | heq <;> rw [heq] at hhi
    · exact ⟨b, hb, hhi.trans hxb⟩
    · exact ⟨d, hd, hhi.trans hyd⟩

end

/-- A weighted average, rounded down, has averaged values on both sides. -/
theorem within_average (hw : (l.map w).sum ≠ 0) :
    Within {x | ∃ a ∈ l, v a = x} ((l.map fun a => w a * v a).sum / (l.map w).sum) := by
  have hpos := Nat.pos_of_ne_zero hw
  have hdiv := Nat.div_mul_le_self (l.map fun a => w a * v a).sum (l.map w).sum
  have hlt := Nat.lt_mul_div_succ (l.map fun a => w a * v a).sum hpos
  generalize (l.map fun a => w a * v a).sum / (l.map w).sum = average at hdiv hlt ⊢
  constructor
  · by_contra hnone
    have hall : ∀ a ∈ l, average + 1 ≤ v a := by
      intro a ha
      by_contra hle
      exact hnone ⟨v a, ⟨a, ha, rfl⟩, by omega⟩
    have hsum := le_sum_mul (w := w) hall
    omega
  · by_contra hnone
    have hall : ∀ a ∈ l, v a + 1 ≤ average := by
      intro a ha
      by_contra hge
      exact hnone ⟨v a, ⟨a, ha, rfl⟩, by omega⟩
    have hsum := sum_mul_le (w := w) fun a ha => Nat.le_sub_one_of_lt (hall a ha)
    obtain ⟨a, ha⟩ : ∃ a, a ∈ l := by
      by_contra hempty
      apply hw
      rw [List.eq_nil_iff_forall_not_mem.mpr fun a ha => hempty ⟨a, ha⟩]
      rfl
    have hone : 1 ≤ average := (Nat.le_add_left _ _).trans (hall a ha)
    have hless : (l.map w).sum * (average - 1) < average * (l.map w).sum := by
      rw [Nat.mul_comm]
      exact Nat.mul_lt_mul_of_pos_right (by omega) hpos
    omega

end SuperNet.Lib.Averages
