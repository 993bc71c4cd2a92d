import Mathlib.Data.Nat.Bitwise
import Mathlib.Tactic

/-! Bit masks as the sets of their bits: taking the lowest bit out of a mask, and making room for a new bit. -/
namespace SuperNet.Lib.Masks

/-- A mask without its lowest bit. -/
def rip (x : Nat) : Nat := x &&& (x - 1)

/-- The bits of one mask that are not in another. -/
def diff (x y : Nat) : Nat := x ^^^ (x &&& y)

def maskOf (bits : List Nat) : Nat := bits.foldl (fun m b => m ||| 2^b) 0

@[simp] theorem testBit_diff (x y i : Nat) : (diff x y).testBit i = (x.testBit i && !y.testBit i) := by
  rw [diff, Nat.testBit_xor, Nat.testBit_and]
  cases x.testBit i <;> cases y.testBit i <;> rfl

theorem diff_zero (x : Nat) : diff x 0 = x := by
  rw [diff, Nat.and_zero, Nat.xor_zero]

theorem testBit_maskOf (bits : List Nat) (i : Nat) : (maskOf bits).testBit i = decide (i ∈ bits) := by
  have hfold : ∀ m, (bits.foldl (fun m b => m ||| 2^b) m).testBit i = (m.testBit i || decide (i ∈ bits)) := by
    induction bits with
    | nil => exact fun m => (Bool.or_false _).symm
    | cons b bits ih =>
      intro m
      have hcons : decide (i ∈ b :: bits) = (decide (b = i) || decide (i ∈ bits)) := by
        rw [← Bool.decide_or]
        exact decide_eq_decide.mpr (List.mem_cons.trans (or_congr_left eq_comm))
      rw [List.foldl_cons, ih, Nat.testBit_or, Nat.testBit_two_pow, Bool.or_assoc, hcons]
  rw [maskOf, hfold, Nat.zero_testBit, Bool.false_or]

theorem maskOf_lt {bits : List Nat} {n : Nat} (h : ∀ b ∈ bits, b < n) : maskOf bits < 2^n := by
  apply Nat.lt_pow_two_of_testBit
  intro i hi
  rw [testBit_maskOf, decide_eq_false]
  exact fun hmem => absurd (h i hmem) (Nat.not_lt_of_le hi)

theorem testBit_of_and_eq {x y i : Nat} (h : x &&& y = x) (hi : x.testBit i = true) : y.testBit i = true := by
  rw [← h, Nat.testBit_and, Bool.and_eq_true] at hi
  exact hi.2

theorem and_eq_of_testBit {x y : Nat} (h : ∀ i, x.testBit i = true → y.testBit i = true) : x &&& y = x := by
  apply Nat.eq_of_testBit_eq
  intro i
  rw [Nat.testBit_and]
  cases hi : x.testBit i with
  | true => rw [h i hi]; rfl
  | false => rfl

section Rip

private theorem rip_odd (y : Nat) : rip (2 * y + 1) = 2 * y := by
  apply Nat.eq_of_testBit_eq
  intro i
  rw [rip, Nat.testBit_and, Nat.add_sub_cancel]
  cases i with
  | zero => rw [Nat.testBit_zero, Nat.testBit_zero]; simp
  | succ i =>
    rw [Nat.testBit_succ, Nat.testBit_succ, show (2 * y + 1) / 2 = y by omega, show 2 * y / 2 = y by omega,
      Bool.and_self]

private theorem rip_even (y : Nat) : rip (2 * y) = 2 * rip y := by
  obtain rfl | hy := Nat.eq_zero_or_pos y
  · rfl
  apply Nat.eq_of_testBit_eq
  intro i
  rw [rip, rip, Nat.testBit_and]
  cases i with
  | zero => rw [Nat.testBit_zero, Nat.testBit_zero, Nat.testBit_zero]; simp
  | succ i =>
    rw [Nat.testBit_succ, Nat.testBit_succ, Nat.testBit_succ, show 2 * y / 2 = y by omega,
      show (2 * y - 1) / 2 = y - 1 by omega, show 2 * (y &&& (y - 1)) / 2 = y &&& (y - 1) by omega, Nat.testBit_and]

private theorem digits_induct {motive : Nat → Prop} (zero : motive 0) (even : ∀ y, motive y → motive (2 * y))
    (odd : ∀ y, motive y → motive (2 * y + 1)) (x : Nat) : motive x := by
  induction x using Nat.strong_induction_on with
  | _ x ih =>
    obtain rfl | hx := Nat.eq_zero_or_pos x
    · exact zero
    · obtain heven | hodd := Nat.mod_two_eq_zero_or_one x
      · have hx2 : x = 2 * (x / 2) := by omega
        rw [hx2]
        exact even _ (ih _ (by omega))
      · have hx2 : x = 2 * (x / 2) + 1 := by omega
        rw [hx2]
        exact odd _ (ih _ (by omega))

theorem testBit_rip (x i : Nat) : (rip x).testBit i = true ↔ x.testBit i = true ∧ ∃ j < i, x.testBit j = true := by
  induction x using digits_induct generalizing i with
  | zero =>
    rw [show rip 0 = 0 from rfl, Nat.zero_testBit]
    exact ⟨fun h => absurd h Bool.false_ne_true, fun h => h.1⟩
  | even y ih =>
    have hzero : (2 * y).testBit 0 = false := by rw [Nat.testBit_zero]; simp
    rw [rip_even]
    cases i with
    | zero =>
      rw [hzero, show (2 * rip y).testBit 0 = false by rw [Nat.testBit_zero]; simp]
      exact ⟨fun h => absurd h Bool.false_ne_true, fun h => h.1⟩
    | succ i =>
      rw [Nat.testBit_succ, Nat.testBit_succ, show 2 * rip y / 2 = rip y by omega, show 2 * y / 2 = y by omega, ih]
      constructor
      · rintro ⟨hi, j, hj, hbit⟩
        refine ⟨hi, j + 1, by omega, ?_⟩
        rw [Nat.testBit_succ, show 2 * y / 2 = y by omega]
        exact hbit
      · rintro ⟨hi, j, hj, hbit⟩
        cases j with
        | zero => exact absurd hbit (by rw [hzero]; exact Bool.false_ne_true)
        | succ j =>
          rw [Nat.testBit_succ, show 2 * y / 2 = y by omega] at hbit
          exact ⟨hi, j, by omega, hbit⟩
  | odd y _ =>
    have hzero : (2 * y + 1).testBit 0 = true := by rw [Nat.testBit_zero]; simp
    rw [rip_odd]
    cases i with
    | zero =>
      rw [show (2 * y).testBit 0 = false by rw [Nat.testBit_zero]; simp]
      refine ⟨fun h => absurd h Bool.false_ne_true, ?_⟩
      rintro ⟨-, j, hj, -⟩
      exact absurd hj (Nat.not_lt_zero j)
    | succ i =>
      rw [Nat.testBit_succ, Nat.testBit_succ, show 2 * y / 2 = y by omega, show (2 * y + 1) / 2 = y by omega]
      exact ⟨fun h => ⟨h, 0, Nat.succ_pos i, hzero⟩, fun h => h.1⟩

theorem rip_le (x : Nat) : rip x ≤ x := Nat.and_le_left

theorem rip_eq_zero_iff (x : Nat) : rip x = 0 ↔ ∀ i j, x.testBit i = true → x.testBit j = true → i = j := by
  constructor
  · intro h i j hi hj
    obtain hlt | heq | hgt := Nat.lt_trichotomy i j
    · have hbit := (testBit_rip x j).mpr ⟨hj, i, hlt, hi⟩
      rw [h, Nat.zero_testBit] at hbit
      exact absurd hbit Bool.false_ne_true
    · exact heq
    · have hbit := (testBit_rip x i).mpr ⟨hi, j, hgt, hj⟩
      rw [h, Nat.zero_testBit] at hbit
      exact absurd hbit Bool.false_ne_true
  · intro h
    apply Nat.eq_of_testBit_eq
    intro i
    rw [Nat.zero_testBit]
    cases hi : (rip x).testBit i with
    | false => rfl
    | true =>
      obtain ⟨hbit, j, hj, hbit'⟩ := (testBit_rip x i).mp hi
      exact absurd (h i j hbit hbit') (Nat.ne_of_gt hj)

theorem rip_xor {x : Nat} (h : x ≠ 0) : ∃ a, x.testBit a = true ∧ rip x ^^^ x = 2^a := by
  induction x using digits_induct with
  | zero => exact absurd rfl h
  | even y ih =>
    obtain ⟨a, ha, hxor⟩ := ih (by omega)
    refine ⟨a + 1, by rw [Nat.testBit_succ, show 2 * y / 2 = y by omega]; exact ha, ?_⟩
    rw [rip_even]
    apply Nat.eq_of_testBit_eq
    intro i
    cases i with
    | zero => rw [Nat.testBit_xor, Nat.testBit_zero, Nat.testBit_zero, Nat.testBit_zero, Nat.pow_succ]; simp
    | succ i =>
      rw [Nat.testBit_xor, Nat.testBit_succ, Nat.testBit_succ, Nat.testBit_succ, show 2 * rip y / 2 = rip y by omega,
        show 2 * y / 2 = y by omega, ← Nat.testBit_xor, hxor, Nat.pow_succ, Nat.mul_div_cancel _ (by omega)]
  | odd y _ =>
    refine ⟨0, by rw [Nat.testBit_zero]; simp, ?_⟩
    rw [rip_odd]
    apply Nat.eq_of_testBit_eq
    intro i
    cases i with
    | zero => rw [Nat.testBit_xor, Nat.testBit_zero, Nat.testBit_zero, Nat.testBit_zero]; simp
    | succ i =>
      rw [Nat.testBit_xor, Nat.testBit_succ, Nat.testBit_succ, Nat.testBit_succ, show (2 * y + 1) / 2 = y by omega,
        show 2 * y / 2 = y by omega, Bool.xor_self, show 2^0 / 2 = 0 from rfl, Nat.zero_testBit]

/-- A bit that is put in adds its value. -/
theorem or_two_pow {x b : Nat} (h : x.testBit b = false) : x ||| 2^b = x + 2^b := by
  induction b generalizing x with
  | zero =>
    have hmod : x % 2 = 0 := by
      rw [Nat.testBit_zero] at h
      simpa using h
    apply Nat.eq_of_testBit_eq
    intro i
    cases i with
    | zero =>
      rw [Nat.testBit_or, Nat.testBit_zero, Nat.testBit_zero, Nat.testBit_zero]
      rw [show (x + 2^0) % 2 = 1 by omega, hmod]
      rfl
    | succ i =>
      rw [Nat.testBit_or, Nat.testBit_succ, Nat.testBit_succ, Nat.testBit_succ, show 2^0 / 2 = 0 from rfl,
        Nat.zero_testBit, Bool.or_false, show (x + 2^0) / 2 = x / 2 by omega]
  | succ b ih =>
    have hpow : 2^(b + 1) = 2 * 2^b := by rw [Nat.pow_succ, Nat.mul_comm]
    apply Nat.eq_of_testBit_eq
    intro i
    cases i with
    | zero =>
      rw [Nat.testBit_or, Nat.testBit_zero, Nat.testBit_zero, Nat.testBit_zero, hpow, Nat.mul_mod_right,
        Nat.add_mul_mod_self_left]
      simp
    | succ i =>
      rw [Nat.testBit_succ] at h
      rw [Nat.testBit_or, Nat.testBit_succ, Nat.testBit_succ, Nat.testBit_succ, hpow,
        Nat.mul_div_cancel_left _ (by omega), show (x + 2 * 2^b) / 2 = x / 2 + 2^b by omega, ← ih h, Nat.testBit_or]

end Rip

section Top

theorem maskOf_perm {l l' : List Nat} (h : l.Perm l') : maskOf l = maskOf l' := by
  apply Nat.eq_of_testBit_eq
  intro i
  rw [testBit_maskOf, testBit_maskOf]
  exact decide_eq_decide.mpr h.mem_iff

theorem maskOf_append (l l' : List Nat) : maskOf (l ++ l') = maskOf l ||| maskOf l' := by
  apply Nat.eq_of_testBit_eq
  intro i
  rw [Nat.testBit_or, testBit_maskOf, testBit_maskOf, testBit_maskOf, ← Bool.decide_or]
  exact decide_eq_decide.mpr List.mem_append

theorem maskOf_cons {a : Nat} {l : List Nat} (h : a ∉ l) : maskOf (a :: l) = maskOf l + 2^a := by
  rw [← or_two_pow (by rw [testBit_maskOf]; exact decide_eq_false h)]
  apply Nat.eq_of_testBit_eq
  intro i
  rw [Nat.testBit_or, testBit_maskOf, testBit_maskOf, Nat.testBit_two_pow, ← Bool.decide_or]
  exact decide_eq_decide.mpr (List.mem_cons.trans (or_comm.trans (or_congr_right eq_comm)))

theorem maskOf_subset {l l' : List Nat} (h : l ⊆ l') : maskOf l &&& maskOf l' = maskOf l := by
  apply and_eq_of_testBit
  intro i hi
  rw [testBit_maskOf, decide_eq_true_eq] at hi ⊢
  exact h hi

theorem subset_of_maskOf {l l' : List Nat} (h : maskOf l &&& maskOf l' = maskOf l) : l ⊆ l' := by
  intro i hi
  have hbit := testBit_of_and_eq (i := i) h (by rw [testBit_maskOf]; exact decide_eq_true hi)
  rw [testBit_maskOf] at hbit
  exact of_decide_eq_true hbit

theorem maskOf_eq_zero {l : List Nat} : maskOf l = 0 ↔ l = [] := by
  constructor
  · intro h
    cases l with
    | nil => rfl
    | cons a l =>
      have hbit := testBit_maskOf (a :: l) a
      rw [h, Nat.zero_testBit, decide_eq_true List.mem_cons_self] at hbit
      exact absurd hbit Bool.false_ne_true
  · rintro rfl
    rfl

theorem rip_maskOf_cons {a : Nat} {l : List Nat} (h : (a :: l).Pairwise (· < ·)) : rip (maskOf (a :: l)) = maskOf l := by
  obtain ⟨hlt, -⟩ := List.pairwise_cons.mp h
  apply Nat.eq_of_testBit_eq
  intro i
  rw [Bool.eq_iff_iff, testBit_rip, testBit_maskOf, testBit_maskOf, decide_eq_true_eq, decide_eq_true_eq]
  constructor
  · rintro ⟨hi, j, hj, hbit⟩
    rw [testBit_maskOf, decide_eq_true_eq] at hbit
    obtain rfl | hi := List.mem_cons.mp hi
    · obtain rfl | hj' := List.mem_cons.mp hbit
      · exact absurd hj (Nat.lt_irrefl j)
      · exact absurd (hlt j hj') (Nat.not_lt_of_lt hj)
    · exact hi
  · intro hi
    refine ⟨List.mem_cons_of_mem a hi, a, hlt i hi, ?_⟩
    rw [testBit_maskOf]
    exact decide_eq_true List.mem_cons_self

/-- Of all choices of some bits the highest ones give the highest mask. -/
theorem maskOf_le_drop {d l : List Nat} (hsub : d.Sublist l) (hl : l.Pairwise (· < ·)) :
    maskOf d ≤ maskOf (l.drop (l.length - d.length)) := by
  induction hsub with
  | slnil => exact Nat.le_refl 0
  | @cons d l a hsub ih =>
    have hlen := hsub.length_le
    rw [List.length_cons, show l.length + 1 - d.length = l.length - d.length + 1 by omega, List.drop_succ_cons]
    exact ih (List.pairwise_cons.mp hl).2
  | @cons_cons d l a hsub ih =>
    obtain ⟨hlt, hl'⟩ := List.pairwise_cons.mp hl
    have hle := ih hl'
    have hnot : a ∉ l := fun hmem => Nat.lt_irrefl a (hlt a hmem)
    have hd : a ∉ d := fun hmem => Nat.lt_irrefl a (hlt a (hsub.subset hmem))
    rw [List.length_cons, List.length_cons, Nat.add_sub_add_right, maskOf_cons hd]
    cases hk : l.length - d.length with
    | zero =>
      rw [hk] at hle
      rw [List.drop_zero] at hle ⊢
      rw [maskOf_cons hnot]
      exact Nat.add_le_add_right hle _
    | succ k =>
      rw [hk] at hle
      have hkl : k < l.length := by omega
      have hb : a < l[k] := hlt _ (List.getElem_mem hkl)
      have hdrop := List.drop_eq_getElem_cons hkl
      have hbl : l[k] ∉ l.drop (k + 1) := by
        have hpair := hl'.drop (i := k)
        rw [hdrop] at hpair
        exact fun hmem => Nat.lt_irrefl _ ((List.pairwise_cons.mp hpair).1 _ hmem)
      rw [List.drop_succ_cons, hdrop, maskOf_cons hbl]
      exact Nat.add_le_add hle (Nat.pow_le_pow_right (by omega) hb.le)

/-- Of masks with as many bits, given from the highest down, the one with the first higher bit is higher. -/
theorem maskOf_lt_of_lex {l l' : List Nat} (hl : l.Pairwise (· > ·)) (hl' : l'.Pairwise (· > ·)) (hlen : l.length = l'.length)
    (h : l < l') : maskOf l < maskOf l' := by
  induction h with
  | nil => cases hlen
  | @rel a l b l' hab =>
    have ha : a ∉ l := fun hmem => Nat.lt_irrefl a ((List.pairwise_cons.mp hl).1 a hmem)
    have hb : b ∉ l' := fun hmem => Nat.lt_irrefl b ((List.pairwise_cons.mp hl').1 b hmem)
    have hlt : maskOf l < 2^a := maskOf_lt (List.pairwise_cons.mp hl).1
    have hpow : 2^(a + 1) ≤ 2^b := Nat.pow_le_pow_right (by decide) hab
    rw [maskOf_cons ha, maskOf_cons hb]
    rw [Nat.pow_succ] at hpow
    omega
  | @cons a l l' _ ih =>
    have ha : a ∉ l := fun hmem => Nat.lt_irrefl a ((List.pairwise_cons.mp hl).1 a hmem)
    have ha' : a ∉ l' := fun hmem => Nat.lt_irrefl a ((List.pairwise_cons.mp hl').1 a hmem)
    rw [maskOf_cons ha, maskOf_cons ha']
    exact Nat.add_lt_add_right (ih (List.pairwise_cons.mp hl).2 (List.pairwise_cons.mp hl').2 (Nat.succ_inj.mp hlen)) _

end Top

section Spread
variable {j : Nat}

/-- The places of the bits when a new one is put in at `j`. -/
def skip (j i : Nat) : Nat := if i < j then i else i + 1

/-- A mask with its bits in those places. -/
def spread (j x : Nat) : Nat := 2^(j + 1) * (x / 2^j) + x % 2^j

private theorem testBit_spread (x i : Nat) :
    (spread j x).testBit i = if i < j then x.testBit i else decide (i ≠ j) && x.testBit (i - 1) := by
  have hmod : x % 2^j < 2^(j + 1) := (Nat.mod_lt x (Nat.two_pow_pos j)).trans_le (Nat.pow_le_pow_right (by omega) (by omega))
  rw [spread, Nat.testBit_two_pow_mul_add _ hmod]
  obtain hlt | rfl | hgt := Nat.lt_trichotomy i j
  · rw [if_pos (by omega), if_pos hlt, Nat.testBit_mod_two_pow, decide_eq_true hlt, Bool.true_and]
  · rw [if_pos (by omega), if_neg (by omega), Nat.testBit_mod_two_pow, decide_eq_false (by omega), Bool.false_and,
      decide_eq_false (by omega), Bool.false_and]
  · rw [if_neg (by omega), if_neg (by omega), decide_eq_true (by omega : i ≠ j), Bool.true_and, Nat.testBit_div_two_pow]
    congr 1
    omega

theorem skip_ne (i : Nat) : skip j i ≠ j := by
  rw [skip]
  split <;> omega

theorem skip_lt_skip {i i' : Nat} : skip j i < skip j i' ↔ i < i' := by
  rw [skip, skip]
  split <;> split <;> omega

theorem skip_injective : Function.Injective (skip j) := by
  intro i i' h
  rw [skip, skip] at h
  split at h <;> split at h <;> omega

theorem exists_skip {i : Nat} (h : i ≠ j) : ∃ i', skip j i' = i := by
  by_cases hlt : i < j
  · exact ⟨i, if_pos hlt⟩
  · refine ⟨i - 1, ?_⟩
    rw [skip, if_neg (by omega)]
    omega

@[simp] theorem testBit_spread_skip (x i : Nat) : (spread j x).testBit (skip j i) = x.testBit i := by
  rw [testBit_spread, skip]
  by_cases hlt : i < j
  · rw [if_pos hlt, if_pos hlt]
  · rw [if_neg hlt, if_neg (by omega), decide_eq_true (by omega), Bool.true_and, Nat.add_sub_cancel]

@[simp] theorem testBit_spread_self (x : Nat) : (spread j x).testBit j = false := by
  rw [testBit_spread, if_neg (Nat.lt_irrefl j), decide_eq_false (not_not_intro rfl), Bool.false_and]

/-- Masks that agree on all bits but the new one, and have that not, are the same. -/
theorem spread_ext {x y : Nat} (h : ∀ i, x.testBit (skip j i) = y.testBit (skip j i)) (hx : x.testBit j = false)
    (hy : y.testBit j = false) : x = y := by
  apply Nat.eq_of_testBit_eq
  intro i
  by_cases hi : i = j
  · rw [hi, hx, hy]
  · obtain ⟨i', rfl⟩ := exists_skip hi
    exact h i'

theorem spread_zero : spread j 0 = 0 := by
  rw [spread, Nat.zero_div, Nat.zero_mod, Nat.mul_zero]

theorem spread_or (x y : Nat) : spread j (x ||| y) = spread j x ||| spread j y :=
  spread_ext (j := j) (fun i => by simp) (by simp) (by simp)

theorem spread_and (x y : Nat) : spread j (x &&& y) = spread j x &&& spread j y :=
  spread_ext (j := j) (fun i => by simp) (by simp) (by simp)

theorem spread_xor (x y : Nat) : spread j (x ^^^ y) = spread j x ^^^ spread j y :=
  spread_ext (j := j) (fun i => by simp) (by simp) (by simp)

theorem spread_diff (x y : Nat) : spread j (diff x y) = diff (spread j x) (spread j y) := by
  rw [diff, diff, spread_xor, spread_and]

theorem spread_two_pow (i : Nat) : spread j (2^i) = 2^(skip j i) := by
  apply spread_ext (j := j)
  · intro k
    rw [testBit_spread_skip, Nat.testBit_two_pow, Nat.testBit_two_pow]
    exact decide_eq_decide.mpr skip_injective.eq_iff.symm
  · exact testBit_spread_self _
  · rw [Nat.testBit_two_pow, decide_eq_false (skip_ne i)]

theorem spread_strictMono : StrictMono (spread j) := by
  intro x y h
  have hpos := Nat.two_pow_pos j
  have hx := Nat.div_add_mod x (2^j)
  have hy := Nat.div_add_mod y (2^j)
  have hmx := Nat.mod_lt x hpos
  rw [spread, spread, Nat.pow_succ]
  obtain hlt | heq | hgt := Nat.lt_trichotomy (x / 2^j) (y / 2^j)
  · have hle : 2^j * 2 * (x / 2^j) + 2^j * 2 ≤ 2^j * 2 * (y / 2^j) := by
      rw [← Nat.mul_succ]
      exact Nat.mul_le_mul_left _ hlt
    omega
  · rw [heq] at hx ⊢
    omega
  · exact absurd (Nat.div_le_div_right h.le) (Nat.not_le_of_lt hgt)

theorem spread_eq_zero_iff (x : Nat) : spread j x = 0 ↔ x = 0 := by
  rw [← spread_strictMono.injective.eq_iff (a := x), spread_zero]

theorem spread_rip (x : Nat) : spread j (rip x) = rip (spread j x) := by
  apply spread_ext (j := j)
  · intro i
    rw [testBit_spread_skip, Bool.eq_iff_iff, testBit_rip, testBit_rip, testBit_spread_skip]
    apply and_congr_right
    intro _
    constructor
    · rintro ⟨k, hk, hbit⟩
      exact ⟨skip j k, skip_lt_skip.mpr hk, by rw [testBit_spread_skip]; exact hbit⟩
    · rintro ⟨k, hk, hbit⟩
      by_cases hkj : k = j
      · rw [hkj, testBit_spread_self] at hbit
        exact absurd hbit Bool.false_ne_true
      · obtain ⟨k', rfl⟩ := exists_skip hkj
        rw [testBit_spread_skip] at hbit
        exact ⟨k', skip_lt_skip.mp hk, hbit⟩
  · exact testBit_spread_self _
  · cases hj : (rip (spread j x)).testBit j with
    | false => rfl
    | true =>
      have hbit := ((testBit_rip _ _).mp hj).1
      rw [testBit_spread_self] at hbit
      exact absurd hbit Bool.false_ne_true

end Spread

end SuperNet.Lib.Masks
