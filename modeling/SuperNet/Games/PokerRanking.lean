import SuperNet.Games.Holdem
import SuperNet.Games.PokerEvaluators
import Mathlib.Algebra.BigOperators.Ring.Finset

/-! The scores of poker.c follow the standard ranking, when the cards are read as the evaluator reads them: the score
of five cards is a strictly monotone function of where they stand. -/
namespace SuperNet.Games.Poker
open Lib.Masks Holdem

section Order

/-- How many of the ranks that decide are in the upper mask of a score. -/
def lead : Nat → Nat
  | 1 => 1
  | 2 => 2
  | 3 => 1
  | 6 => 1
  | 7 => 1
  | _ => 0

/-- How many ranks decide. -/
def places : Nat → Nat
  | 0 => 5
  | 1 => 4
  | 2 => 3
  | 3 => 3
  | 4 => 1
  | 5 => 5
  | 8 => 1
  | _ => 2

def straightMask (high : Nat) : Nat := if high = 3 then 0xF else 0x1F <<< (high - 4)

def lower (cat : Nat) (l : List Nat) : Nat :=
  if cat = 4 ∨ cat = 8 then straightMask (l.headD 0) else maskOf (l.drop (lead cat))

def standingScore (k : Nat ×ₗ List Nat) : Nat :=
  (ofLex k).1 * 2^27 + maskOf ((ofLex k).2.take (lead (ofLex k).1)) * 2^13 + lower (ofLex k).1 (ofLex k).2

theorem standingScore_toLex (cat : Nat) (l : List Nat) :
    standingScore (toLex (cat, l)) = cat * 2^27 + maskOf (l.take (lead cat)) * 2^13 + lower cat l := rfl

/-- What the ranks that decide are like. -/
structure Fair (cat : Nat) (l : List Nat) : Prop where
  length_eq : l.length = places cat
  lt : ∀ r ∈ l, r < 13
  upper : (l.take (lead cat)).Pairwise (· > ·)
  lower : (l.drop (lead cat)).Pairwise (· > ·)
  straight : cat = 4 ∨ cat = 8 → 3 ≤ l.headD 0

/-- The first difference is in the first part or in the rest. -/
theorem take_lt_or {l l' : List Nat} (n : Nat) (h : l < l') :
    l.take n < l'.take n ∨ l.take n = l'.take n ∧ l.drop n < l'.drop n := by
  induction n generalizing l l' with
  | zero => exact .inr ⟨rfl, h⟩
  | succ n ih =>
    cases h with
    | nil => exact .inl List.Lex.nil
    | rel hab => exact .inl (List.Lex.rel hab)
    | cons h =>
      obtain hlt | ⟨heq, hlt⟩ := ih h
      · exact .inl (List.Lex.cons hlt)
      · exact .inr ⟨by rw [List.take_succ_cons, List.take_succ_cons, heq], hlt⟩

private theorem straightMask_lt {high high' : Nat} (h3 : 3 ≤ high) (h : high < high') (h13 : high' < 13) :
    straightMask high < straightMask high' := by
  have hall : ∀ high' < 13, ∀ high < high', 3 ≤ high → straightMask high < straightMask high' := by decide
  exact hall high' h13 high h h3

section Bounds
variable {cat : Nat} {l : List Nat}

theorem Fair.upper_lt (h : Fair cat l) : maskOf (l.take (lead cat)) < 2^13 :=
  maskOf_lt fun r hr => h.lt r (List.mem_of_mem_take hr)

theorem Fair.head_lt (h : Fair cat l) : l.headD 0 < 13 := by
  cases l with
  | nil => decide
  | cons r l => exact h.lt r List.mem_cons_self

theorem Fair.lower_lt (h : Fair cat l) : Poker.lower cat l < 2^13 := by
  rw [Poker.lower]
  split
  · have hall : ∀ high < 13, straightMask high < 2^13 := by decide
    exact hall _ h.head_lt
  · exact maskOf_lt fun r hr => h.lt r (List.mem_of_mem_drop hr)

/-- Within one class, the ranks that decide are in the order of the masks. -/
theorem Fair.masks_lt {l' : List Nat} (h : Fair cat l) (h' : Fair cat l') (hlt : l < l') :
    maskOf (l.take (lead cat)) * 2^13 + Poker.lower cat l < maskOf (l'.take (lead cat)) * 2^13 + Poker.lower cat l' := by
  have hlow := h.lower_lt
  have hlow' := h'.lower_lt
  have hlen : l.length = l'.length := h.length_eq.trans h'.length_eq.symm
  obtain htake | ⟨htake, hdrop⟩ := take_lt_or (lead cat) hlt
  · have hmask := maskOf_lt_of_lex h.upper h'.upper (by rw [List.length_take, List.length_take, hlen]) htake
    omega
  · rw [htake]
    apply Nat.add_lt_add_left
    rw [Poker.lower, Poker.lower]
    by_cases hs : cat = 4 ∨ cat = 8
    · rw [if_pos hs, if_pos hs]
      have hone : l.length = 1 ∧ l'.length = 1 := by
        rw [h.length_eq, h'.length_eq]
        obtain rfl | rfl := hs <;> exact ⟨rfl, rfl⟩
      obtain ⟨a, rfl⟩ := List.length_eq_one_iff.mp hone.1
      obtain ⟨b, rfl⟩ := List.length_eq_one_iff.mp hone.2
      cases hlt with
      | rel hab => exact straightMask_lt (h.straight hs) hab h'.head_lt
      | cons hnil => cases hnil
    · rw [if_neg hs, if_neg hs]
      exact maskOf_lt_of_lex h.lower h'.lower (by rw [List.length_drop, List.length_drop, hlen]) hdrop

end Bounds

theorem standingScore_strictMonoOn : StrictMonoOn standingScore {k | Fair (ofLex k).1 (ofLex k).2} := by
  intro k hk k' hk' h
  have hup := hk.upper_lt
  have hlow := hk.lower_lt
  rw [standingScore, standingScore]
  obtain hlt | ⟨heq, hlt⟩ := Prod.Lex.lt_iff.mp h
  · omega
  · have hk'' : Fair (ofLex k).1 (ofLex k').2 := by rw [heq]; exact hk'
    have hmasks := Fair.masks_lt hk hk'' hlt
    rw [← heq, Nat.add_assoc, Nat.add_assoc]
    exact Nat.add_lt_add_left hmasks _

end Order

section Kinds
variable {rs : List Nat}

theorem mem_ofCount {n i : Nat} : i ∈ ofCount rs n ↔ i < 13 ∧ rs.count i = n := by
  rw [ofCount, List.mem_filter, List.mem_reverse, List.mem_range, decide_eq_true_eq]

theorem ofCount_sorted (rs : List Nat) (n : Nat) : (ofCount rs n).Pairwise (· > ·) := by
  apply List.Pairwise.filter
  rw [List.pairwise_reverse]
  exact List.pairwise_lt_range

private theorem sum_filter (l : List Nat) (f : Nat → Nat) (hf : ∀ i ∈ l, f i ≤ 4) : (l.map f).sum =
    4 * (l.filter fun i => f i = 4).length + 3 * (l.filter fun i => f i = 3).length +
      2 * (l.filter fun i => f i = 2).length + (l.filter fun i => f i = 1).length := by
  induction l with
  | nil => rfl
  | cons i l ih =>
    have hi := hf i List.mem_cons_self
    have hl := ih fun j hj => hf j (List.mem_cons_of_mem i hj)
    rw [List.map_cons, List.sum_cons, hl]
    simp only [List.filter_cons, decide_eq_true_eq]
    interval_cases f i <;> simp <;> omega

private theorem sum_count (h13 : ∀ r ∈ rs, r < 13) : ((List.range 13).reverse.map rs.count).sum = rs.length := by
  rw [List.map_reverse, List.sum_reverse]
  induction rs with
  | nil => rfl
  | cons r rs ih =>
    have hr := h13 r List.mem_cons_self
    have hone : ((List.range 13).map fun i => if r = i then 1 else 0).sum = 1 := by
      have hall : ∀ r < 13, ((List.range 13).map fun i => if r = i then 1 else 0).sum = 1 := by decide
      exact hall r hr
    have hcount : (r :: rs).count = fun i => rs.count i + if r = i then 1 else 0 := by
      funext i
      rw [List.count_cons]
      simp only [beq_iff_eq]
    rw [hcount, List.sum_map_add, ih fun q hq => h13 q (List.mem_cons_of_mem r hq), hone, List.length_cons]

theorem length_eq_sum (h13 : ∀ r ∈ rs, r < 13) (h4 : ∀ i, rs.count i ≤ 4) : rs.length =
    4 * (ofCount rs 4).length + 3 * (ofCount rs 3).length + 2 * (ofCount rs 2).length + (ofCount rs 1).length := by
  rw [← sum_count h13, sum_filter _ _ fun i _ => h4 i]
  rfl

/-- The masks are those of the ranks that occur so often. -/
structure Masks (m : Kinds) (rs : List Nat) : Prop where
  m1 : diff m.m1 m.m2 = maskOf (ofCount rs 1)
  m2 : diff m.m2 m.m3 = maskOf (ofCount rs 2)
  m3 : diff m.m3 m.m4 = maskOf (ofCount rs 3)
  m4 : m.m4 = maskOf (ofCount rs 4)
  of_m2 : m.m2 = 0 → m.m3 = 0
  of_m3 : m.m3 = 0 → m.m4 = 0

theorem masks_kindsOf (h13 : ∀ r ∈ rs, r < 13) (h4 : ∀ i, rs.count i ≤ 4) : Masks (kindsOf rs) rs := by
  have hcounts := counts_kindsOf rs
  have hlt : ∀ i n, 0 < n → rs.count i = n → i < 13 := by
    intro i n hn hcount
    exact h13 i (List.count_pos_iff.mp (by omega))
  have hbit : ∀ i n, 0 < n → (maskOf (ofCount rs n)).testBit i = decide (rs.count i = n) := by
    intro i n hn
    rw [testBit_maskOf]
    exact decide_eq_decide.mpr (mem_ofCount.trans ⟨fun h => h.2, fun h => ⟨hlt i n hn h, h⟩⟩)
  have hdiff : ∀ x y n, 0 < n → (∀ i, x.testBit i = decide (n ≤ rs.count i)) →
      (∀ i, y.testBit i = decide (n + 1 ≤ rs.count i)) → diff x y = maskOf (ofCount rs n) := by
    intro x y n hn hx hy
    apply Nat.eq_of_testBit_eq
    intro i
    rw [testBit_diff, hx, hy, hbit i n hn, ← decide_not, ← Bool.decide_and]
    exact decide_eq_decide.mpr (by omega)
  have hsub : ∀ x y n, (∀ i, x.testBit i = decide (n ≤ rs.count i)) → (∀ i, y.testBit i = decide (n + 1 ≤ rs.count i)) →
      x = 0 → y = 0 := by
    rintro x y n hx hy rfl
    apply Nat.eq_of_testBit_eq
    intro i
    have hi := of_decide_eq_false ((hx i).symm.trans (Nat.zero_testBit i))
    rw [hy, Nat.zero_testBit]
    exact decide_eq_false (by omega)
  constructor
  · exact hdiff _ _ 1 (by decide) hcounts.m1 hcounts.m2
  · exact hdiff _ _ 2 (by decide) hcounts.m2 hcounts.m3
  · exact hdiff _ _ 3 (by decide) hcounts.m3 hcounts.m4
  · apply Nat.eq_of_testBit_eq
    intro i
    have hi := h4 i
    rw [hcounts.m4, hbit i 4 (by decide)]
    exact decide_eq_decide.mpr (by omega)
  · exact hsub _ _ 2 hcounts.m2 hcounts.m3
  · exact hsub _ _ 3 hcounts.m3 hcounts.m4

section Empty
variable {m : Kinds}

private theorem Masks.no_fours (h : Masks m rs) (h4 : ofCount rs 4 = []) : m.m4 = 0 ∧ m.m3 = maskOf (ofCount rs 3) := by
  have hm4 : m.m4 = 0 := by rw [h.m4, h4]; rfl
  refine ⟨hm4, ?_⟩
  rw [← h.m3, hm4, diff_zero]

private theorem Masks.no_threes (h : Masks m rs) (h4 : ofCount rs 4 = []) (h3 : ofCount rs 3 = []) :
    m.m3 = 0 ∧ m.m2 = maskOf (ofCount rs 2) := by
  have hm3 : m.m3 = 0 := by rw [(h.no_fours h4).2, h3]; rfl
  refine ⟨hm3, ?_⟩
  rw [← h.m2, hm3, diff_zero]

private theorem Masks.no_pairs (h : Masks m rs) (h4 : ofCount rs 4 = []) (h3 : ofCount rs 3 = []) (h2 : ofCount rs 2 = []) :
    m.m2 = 0 ∧ m.m1 = maskOf (ofCount rs 1) := by
  have hm2 : m.m2 = 0 := by rw [(h.no_threes h4 h3).2, h2]; rfl
  refine ⟨hm2, ?_⟩
  rw [← h.m1, hm2, diff_zero]

private theorem maskOf_ne_zero {l : List Nat} (h : l.length ≠ 0) : maskOf l ≠ 0 :=
  fun hzero => h (List.length_eq_zero_iff.mpr (maskOf_eq_zero.mp hzero))

private theorem rip_pairs (h2 : (ofCount rs 2).length = 2) : rip (maskOf (ofCount rs 2)) ≠ 0 := by
  obtain ⟨p, q, hpq⟩ := List.length_eq_two.mp h2
  have hsorted := ofCount_sorted rs 2
  rw [hpq, List.pairwise_pair] at hsorted
  intro hzero
  rw [hpq] at hzero
  have heq := (rip_eq_zero_iff _).mp hzero p q (by rw [testBit_maskOf]; simp) (by rw [testBit_maskOf]; simp)
  exact Nat.lt_irrefl q (heq ▸ hsorted)

private theorem rip_pair (h2 : (ofCount rs 2).length = 1) : rip (maskOf (ofCount rs 2)) = 0 := by
  obtain ⟨p, hp⟩ := List.length_eq_one_iff.mp h2
  rw [hp, rip_eq_zero_iff]
  intro i j hi hj
  rw [testBit_maskOf, decide_eq_true_eq, List.mem_singleton] at hi hj
  exact hi.trans hj.symm

end Empty

private theorem kinds_cases (hlen : rs.length = 5) (h13 : ∀ r ∈ rs, r < 13) (h4 : ∀ i, rs.count i ≤ 4) :
    (ofCount rs 4).length = 1 ∧ ofCount rs 3 = [] ∧ ofCount rs 2 = [] ∧ (ofCount rs 1).length = 1 ∨
    ofCount rs 4 = [] ∧ (ofCount rs 3).length = 1 ∧ (ofCount rs 2).length = 1 ∧ ofCount rs 1 = [] ∨
    ofCount rs 4 = [] ∧ (ofCount rs 3).length = 1 ∧ ofCount rs 2 = [] ∧ (ofCount rs 1).length = 2 ∨
    ofCount rs 4 = [] ∧ ofCount rs 3 = [] ∧ (ofCount rs 2).length = 2 ∧ (ofCount rs 1).length = 1 ∨
    ofCount rs 4 = [] ∧ ofCount rs 3 = [] ∧ (ofCount rs 2).length = 1 ∧ (ofCount rs 1).length = 3 ∨
    ofCount rs 4 = [] ∧ ofCount rs 3 = [] ∧ ofCount rs 2 = [] ∧ (ofCount rs 1).length = 5 := by
  have hsum := length_eq_sum h13 h4
  rw [hlen] at hsum
  simp only [← List.length_eq_zero_iff]
  generalize (ofCount rs 4).length = a, (ofCount rs 3).length = b, (ofCount rs 2).length = c, (ofCount rs 1).length = d at hsum ⊢
  have ha : a = 0 ∨ a = 1 := by omega
  have hb : b = 0 ∨ b = 1 := by omega
  have hc : c = 0 ∨ c = 1 ∨ c = 2 := by omega
  obtain rfl | rfl := ha
  · obtain rfl | rfl := hb
    · obtain rfl | rfl | rfl := hc
      · exact .inr (.inr (.inr (.inr (.inr (by omega)))))
      · exact .inr (.inr (.inr (.inr (.inl (by omega)))))
      · exact .inr (.inr (.inr (.inl (by omega))))
    · obtain rfl | rfl | rfl := hc
      · exact .inr (.inr (.inl (by omega)))
      · exact .inr (.inl (by omega))
      · omega
  · exact .inl (by omega)

/-- The parts of a key are the masks of the ranks that decide. -/
structure Splits (k : Key) (cls : HandClass) (l : List Nat) : Prop where
  fair : Fair cls.rank l
  score : standingScore (toLex (cls.rank, l)) = k.score

private theorem splits_ofCount (cls : HandClass) {a b i j : Nat} (hcls : ¬(cls.rank = 4 ∨ cls.rank = 8))
    (hi : (ofCount rs i).length = lead cls.rank) (hj : lead cls.rank + (ofCount rs j).length = places cls.rank)
    (ha : a = maskOf (ofCount rs i)) (hb : b = maskOf (ofCount rs j)) :
    Splits ⟨cls.rank, a, b⟩ cls (ofCount rs i ++ ofCount rs j) := by
  have htake : (ofCount rs i ++ ofCount rs j).take (lead cls.rank) = ofCount rs i := List.take_left' hi
  have hdrop : (ofCount rs i ++ ofCount rs j).drop (lead cls.rank) = ofCount rs j := List.drop_left' hi
  constructor
  · constructor
    · rw [List.length_append, hi, hj]
    · intro r hr
      obtain hr | hr := List.mem_append.mp hr
      · exact (mem_ofCount.mp hr).1
      · exact (mem_ofCount.mp hr).1
    · rw [htake]
      exact ofCount_sorted rs i
    · rw [hdrop]
      exact ofCount_sorted rs j
    · exact fun hs => absurd hs hcls
  · rw [standingScore_toLex, Key.score, ha, hb, lower, if_neg hcls, htake, hdrop]

private theorem splits_kinds (hlen : rs.length = 5) (h13 : ∀ r ∈ rs, r < 13) (h4 : ∀ i, rs.count i ≤ 4) :
    Splits (fiveKey (kindsOf rs)) (kindClass rs) (deciding rs) := by
  have hmasks := masks_kindsOf h13 h4
  generalize kindsOf rs = m at hmasks ⊢
  rw [fiveKey, kindClass, deciding]
  obtain ⟨hlen4, he3, he2, hlen1⟩ | ⟨he4, hlen3, hlen2, he1⟩ | ⟨he4, hlen3, he2, hlen1⟩ | ⟨he4, he3, hlen2, hlen1⟩ |
    ⟨he4, he3, hlen2, hlen1⟩ | ⟨he4, he3, he2, hlen1⟩ := kinds_cases hlen h13 h4
  · have hne4 : ofCount rs 4 ≠ [] := List.ne_nil_of_length_pos (by omega)
    have hm4 : m.m4 ≠ 0 := by rw [hmasks.m4]; exact maskOf_ne_zero (by omega)
    have hm3 : m.m3 ≠ 0 := mt hmasks.of_m3 hm4
    have hm2 : m.m2 ≠ 0 := mt hmasks.of_m2 hm3
    rw [if_neg hm2, if_neg hm3, if_neg hm4, if_pos hne4, he3, he2, List.nil_append, List.nil_append]
    exact splits_ofCount .fourKind (by decide) hlen4 (by rw [hlen1]; rfl) hmasks.m4 hmasks.m1
  · obtain ⟨hm4, hm3⟩ := hmasks.no_fours he4
    have hne3 : ofCount rs 3 ≠ [] := List.ne_nil_of_length_pos (by omega)
    have hne2 : ofCount rs 2 ≠ [] := List.ne_nil_of_length_pos (by omega)
    have hm3' : m.m3 ≠ 0 := by rw [hm3]; exact maskOf_ne_zero (by omega)
    have hm2 : m.m2 ≠ 0 := mt hmasks.of_m2 hm3'
    have hpairs : diff m.m2 m.m3 ≠ 0 := by rw [hmasks.m2]; exact maskOf_ne_zero (by omega)
    rw [if_neg hm2, if_neg hm3', if_pos hm4, if_neg hpairs, if_neg (not_not_intro he4), if_pos hne3, if_pos hne2, he4, he1,
      List.nil_append, List.append_nil]
    exact splits_ofCount .fullHouse (by decide) hlen3 (by rw [hlen2]; rfl) hm3 hmasks.m2
  · obtain ⟨hm4, hm3⟩ := hmasks.no_fours he4
    have hne3 : ofCount rs 3 ≠ [] := List.ne_nil_of_length_pos (by omega)
    have hm3' : m.m3 ≠ 0 := by rw [hm3]; exact maskOf_ne_zero (by omega)
    have hm2 : m.m2 ≠ 0 := mt hmasks.of_m2 hm3'
    have hpairs : diff m.m2 m.m3 = 0 := by rw [hmasks.m2, he2]; rfl
    rw [if_neg hm2, if_neg hm3', if_pos hm4, if_pos hpairs, if_neg (not_not_intro he4), if_pos hne3,
      if_neg (not_not_intro he2), he4, he2, List.nil_append, List.nil_append]
    exact splits_ofCount .threeKind (by decide) hlen3 (by rw [hlen1]; rfl) hm3 hmasks.m1
  · obtain ⟨hm3, hm2⟩ := hmasks.no_threes he4 he3
    have hm2' : m.m2 ≠ 0 := by rw [hm2]; exact maskOf_ne_zero (by omega)
    have hrip : rip m.m2 ≠ 0 := by rw [hm2]; exact rip_pairs hlen2
    rw [if_neg hm2', if_pos hm3, if_neg hrip, if_neg (not_not_intro he4), if_neg (not_not_intro he3), hlen2, he4, he3,
      List.nil_append, List.nil_append]
    exact splits_ofCount .twoPair (by decide) hlen2 (by rw [hlen1]; rfl) hm2 hmasks.m1
  · obtain ⟨hm3, hm2⟩ := hmasks.no_threes he4 he3
    have hm2' : m.m2 ≠ 0 := by rw [hm2]; exact maskOf_ne_zero (by omega)
    have hrip : rip m.m2 = 0 := by rw [hm2]; exact rip_pair hlen2
    rw [if_neg hm2', if_pos hm3, if_pos hrip, if_neg (not_not_intro he4), if_neg (not_not_intro he3), hlen2, he4, he3,
      List.nil_append, List.nil_append]
    exact splits_ofCount .onePair (by decide) hlen2 (by rw [hlen1]; rfl) hm2 hmasks.m1
  · obtain ⟨hm2, hm1⟩ := hmasks.no_pairs he4 he3 he2
    rw [if_pos hm2, if_neg (not_not_intro he4), if_neg (not_not_intro he3), he2, he3]
    exact splits_ofCount .highCard (by decide) (by rw [he4]; rfl) (by rw [hlen1]; rfl) (by rw [he4]; rfl) hm1

private theorem splits_flush (hlen : rs.length = 5) (h13 : ∀ r ∈ rs, r < 13) (hnodup : rs.Nodup) :
    Splits ⟨5, 0, maskOf rs⟩ .flush (deciding rs) := by
  have h1 := List.nodup_iff_count_le_one.mp hnodup
  have h4 : ∀ i, rs.count i ≤ 4 := fun i => (h1 i).trans (by decide)
  have hempty : ∀ n, 1 < n → ofCount rs n = [] := by
    intro n hn
    rw [List.eq_nil_iff_forall_not_mem]
    intro i hi
    have hcount := (mem_ofCount.mp hi).2
    have := h1 i
    omega
  have hlen1 := length_eq_sum h13 h4
  rw [hempty 4 (by decide), hempty 3 (by decide), hempty 2 (by decide), hlen] at hlen1
  have hmask := ((masks_kindsOf h13 h4).no_pairs (hempty 4 (by decide)) (hempty 3 (by decide)) (hempty 2 (by decide))).2
  rw [kindsOf_m1] at hmask
  rw [deciding, hempty 3 (by decide), hempty 2 (by decide), List.nil_append, List.nil_append]
  have hlen1' : (ofCount rs 1).length = 5 := by
    rw [List.length_nil] at hlen1
    omega
  exact splits_ofCount .flush (by decide) (by rw [hempty 4 (by decide)]; rfl) (by rw [hlen1']; rfl)
    (by rw [hempty 4 (by decide)]; rfl) hmask

end Kinds

section Straights

private theorem straights_eq : straights = straightRanks.map fun s => (maskOf s, straightMask (s.headD 0)) := by decide

theorem bestStraight_maskOf (rs : List Nat) : bestStraight (maskOf rs) = (straightHigh rs).map straightMask := by
  have hpred : ((fun p : Nat × Nat => decide (p.1 &&& maskOf rs = p.1)) ∘ fun s => (maskOf s, straightMask (s.headD 0))) =
      fun s : List Nat => decide (s ⊆ rs) := by
    funext s
    rw [Function.comp_apply]
    exact decide_eq_decide.mpr ⟨subset_of_maskOf, maskOf_subset⟩
  rw [bestStraight, straights_eq, List.find?_map, hpred, straightHigh, Option.map_map, Option.map_map]
  rfl

theorem straightHigh_bounds {rs : List Nat} {high : Nat} (h : straightHigh rs = some high) : 3 ≤ high ∧ high < 13 := by
  obtain ⟨s, hs, rfl⟩ := Option.map_eq_some_iff.mp h
  have hall : ∀ s ∈ straightRanks, 3 ≤ s.headD 0 ∧ s.headD 0 < 13 := by decide
  exact hall s (List.mem_of_find?_eq_some hs)

private theorem fair_straight {cat high : Nat} (hcat : cat = 4 ∨ cat = 8) (h3 : 3 ≤ high) (h13 : high < 13) :
    Fair cat [high] := by
  obtain rfl | rfl := hcat
  all_goals
    constructor
    · rfl
    · intro r hr
      rw [List.mem_singleton.mp hr]
      exact h13
    · exact List.Pairwise.nil
    · exact List.pairwise_singleton _ _
    · exact fun _ => h3

private theorem standingScore_straight {cat : Nat} (hcat : cat = 4 ∨ cat = 8) (high : Nat) :
    standingScore (toLex (cat, [high])) = cat <<< 27 + straightMask high := by
  have hupper : [high].take (lead cat) = [] := by obtain rfl | rfl := hcat <;> rfl
  rw [standingScore_toLex, lower, if_pos hcat, Nat.shiftLeft_eq, hupper, show maskOf [] = 0 from rfl, Nat.zero_mul,
    Nat.add_zero, List.headD_cons]

end Straights

/-- A reading of the cards of a hand that has the ranks of the evaluator, and tells its suits apart. -/
structure Reads (read : Nat → Card) (h : Hand) : Prop where
  height : ∀ c ∈ h.cards, (read c).height = cardValue c
  suit : ∀ c ∈ h.cards, ∀ d ∈ h.cards, (read c).suit = (read d).suit ↔ cardSuitIdx c = cardSuitIdx d

section Reading
variable {read : Nat → Card} {h : Hand} {x : List Nat}

theorem Reads.heights (hread : Reads read h) (hx : x.Subperm h.cards) : (x.map read).map Card.height = ranks x := by
  rw [List.map_map, ranks]
  exact List.map_congr_left fun c hc => hread.height c (hx.subset hc)

theorem Reads.suited (hread : Reads read h) (hx : x.Subperm h.cards) : Suited (x.map read) ↔ OneSuit x := by
  rw [Suited, OneSuit]
  simp only [List.forall_mem_map]
  constructor
  · intro hsuit c hc d hd
    exact (hread.suit c (hx.subset hc) d (hx.subset hd)).mp (hsuit c hc d hd)
  · intro hsuit c hc d hd
    exact (hread.suit c (hx.subset hc) d (hx.subset hd)).mpr (hsuit c hc d hd)

theorem Reads.standing_eq (hread : Reads read h) (hx : x.Subperm h.cards) (hlen : x.length = 5) :
    Fair (ofLex (standing (x.map read))).1 (ofLex (standing (x.map read))).2 ∧
      fiveCardDrawScore x = standingScore (standing (x.map read)) := by
  have hcard := cards_lt hx
  have hlen' : (ranks x).length = 5 := by rw [ranks, List.length_map, hlen]
  have hcount : ∀ i, (ranks x).count i ≤ 4 := fun i => ((ranks_subperm hx).count_le i).trans (h.count_ranks_le i)
  have hheights := hread.heights hx
  have hbest := bestStraight_maskOf (ranks x)
  cases hhigh : straightHigh (ranks x) with
  | some high =>
    obtain ⟨h3, h13⟩ := straightHigh_bounds hhigh
    rw [standing_of_some (by rw [hheights]; exact hhigh)]
    rw [hhigh, Option.map_some] at hbest
    by_cases hsuit : OneSuit x
    · rw [if_pos ((hread.suited hx).mpr hsuit), fiveCardDrawScore_oneSuit hlen hcard (cards_nodup hx) hsuit, hbest]
      exact ⟨fair_straight (.inr rfl) h3 h13, (standingScore_straight (.inr rfl) high).symm⟩
    · rw [if_neg (mt (hread.suited hx).mp hsuit), fiveCardDrawScore_mixed hlen hcard hsuit, hbest]
      exact ⟨fair_straight (.inl rfl) h3 h13, (standingScore_straight (.inl rfl) high).symm⟩
  | none =>
    rw [standing_of_none (by rw [hheights]; exact hhigh), hheights]
    rw [hhigh, Option.map_none] at hbest
    by_cases hsuit : OneSuit x
    · obtain ⟨hfair, hscore⟩ := splits_flush hlen' ranks_lt (hsuit.ranks_nodup (cards_nodup hx))
      rw [if_pos ((hread.suited hx).mpr hsuit), fiveCardDrawScore_oneSuit hlen hcard (cards_nodup hx) hsuit, hbest]
      refine ⟨hfair, Eq.trans ?_ hscore.symm⟩
      rw [Option.map_none, Option.getD_none, Key.score, Nat.zero_mul, Nat.add_zero, flushScore, Nat.shiftLeft_eq]
    · obtain ⟨hfair, hscore⟩ := splits_kinds hlen' ranks_lt hcount
      rw [if_neg (mt (hread.suited hx).mp hsuit), fiveCardDrawScore_mixed hlen hcard hsuit, hbest]
      exact ⟨hfair, hscore.symm⟩

theorem Reads.ranking_eq (hread : Reads read h) : ∃ k : Nat ×ₗ List Nat, ranking (h.cards.map read) = k ∧
    Fair (ofLex k).1 (ofLex k).2 ∧ sevenCardDrawScore h.cards = standingScore k := by
  have hlen7 : 5 ≤ (h.cards.map read).length := by
    rw [List.length_map, h.length_eq]
    decide
  obtain ⟨k, hk⟩ := exists_ranking hlen7
  obtain ⟨⟨y, hy, hylen, hstanding⟩, hle⟩ := ranking_eq_coe.mp hk
  obtain ⟨x, hx, rfl⟩ := List.sublist_map_iff.mp hy
  rw [List.length_map] at hylen
  obtain ⟨hfair, hscore⟩ := hread.standing_eq hx.subperm hylen
  rw [hstanding] at hfair hscore
  refine ⟨k, hk, hfair, ?_⟩
  apply (isBest_fast h).unique
  constructor
  · rintro x' ⟨l, hperm, hl⟩ hlen
    have hllen : l.length = 5 := hperm.length_eq.trans hlen
    obtain ⟨hfair', hscore'⟩ := hread.standing_eq hl.subperm hllen
    rw [← fiveCardDrawScore_perm hperm, hscore']
    exact standingScore_strictMonoOn.monotoneOn hfair' hfair (hle _ (hl.map read) (by rw [List.length_map, hllen]))
  · exact ⟨x, hx.subperm, hylen, hscore⟩

/-- Hands are scored in the order of the standard ranking. -/
theorem Reads.cmp_score {read' : Nat → Card} {h' : Hand} (hread : Reads read h) (hread' : Reads read' h') :
    cmp (sevenCardDrawScore h.cards) (sevenCardDrawScore h'.cards) =
      cmp (ranking (h.cards.map read)) (ranking (h'.cards.map read')) := by
  obtain ⟨k, hk, hfair, hscore⟩ := hread.ranking_eq
  obtain ⟨k', hk', hfair', hscore'⟩ := hread'.ranking_eq
  rw [hk, hk', hscore, hscore', cmp_coe]
  exact standingScore_strictMonoOn.cmp_map_eq hfair hfair'

end Reading

end SuperNet.Games.Poker
