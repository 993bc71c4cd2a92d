import SuperNet.Lib.Masks
import SuperNet.Games.Poker
import Mathlib.Data.List.Sublists

/-! The hands of poker.c without runs and flushes. The score of such a hand depends on the order of its ranks only,
not on the ranks that lie between them. -/
namespace SuperNet.Games.Poker
open Lib.Masks

/-- The masks of some ranks. -/
def kindsOf (rs : List Nat) : Kinds := kinds (rs.map fun r => 2^r)

/-- A score in its parts: the class of the hand and the masks of the ranks that decide. -/
structure Key where
  cat : Nat
  a : Nat
  b : Nat
  deriving DecidableEq, Repr

def Key.score (k : Key) : Nat := k.cat * 2^27 + k.a * 2^13 + k.b

/-- The order of the scores. -/
def Key.Le (k k' : Key) : Prop := k.cat < k'.cat ∨ k.cat = k'.cat ∧ (k.a < k'.a ∨ k.a = k'.a ∧ k.b ≤ k'.b)

instance instDecidableKeyLe (k k' : Key) : Decidable (k.Le k') := inferInstanceAs (Decidable (_ ∨ _))

/-- A mask down to its highest bit, when it has at most `n + 1`. -/
def top : Nat → Nat → Nat
  | 0, x => x
  | n + 1, x => if rip x ≠ 0 then top n (rip x) else x

def fiveKey (m : Kinds) : Key :=
  if m.m2 = 0 then ⟨0, 0, m.m1⟩
  else if m.m3 = 0 then ⟨if rip m.m2 = 0 then 1 else 2, m.m2, diff m.m1 m.m2⟩
  else if m.m4 = 0 then
    if diff m.m2 m.m3 = 0 then ⟨3, m.m3, diff m.m1 m.m2⟩ else ⟨6, m.m3, diff m.m2 m.m3⟩
  else ⟨7, m.m4, diff m.m1 m.m2⟩

def sevenKey (m : Kinds) : Key :=
  if m.m3 = 0 then
    if m.m2 = 0 then ⟨0, 0, rip (rip (diff m.m1 m.m2))⟩
    else if rip m.m2 = 0 then ⟨1, m.m2, rip (rip (diff m.m1 m.m2))⟩
    else if rip (rip m.m2) = 0 then ⟨2, m.m2, rip (rip (diff m.m1 m.m2))⟩
    else ⟨2, rip m.m2, rip (diff m.m1 m.m2 ||| (m.m2 ^^^ rip m.m2))⟩
  else if m.m4 ≠ 0 then ⟨7, m.m4, top 31 (diff m.m1 m.m2 ||| diff m.m2 m.m4)⟩
  else if diff m.m2 m.m3 = 0 then
    if rip m.m3 = 0 then ⟨3, m.m3, rip (rip (diff m.m1 m.m2))⟩ else ⟨6, rip m.m3, m.m3 ^^^ rip m.m3⟩
  else ⟨6, m.m3, if rip (diff m.m2 m.m3) = 0 then diff m.m2 m.m3 else rip (diff m.m2 m.m3)⟩

section Counts

private theorem testBit_two_pow_and (r m i : Nat) : (2^r &&& m).testBit i = (decide (r = i) && m.testBit i) := by
  rw [Nat.testBit_and, Nat.testBit_two_pow]

/-- What the masks say about the number of times that each rank occurs. -/
structure Counts (m : Kinds) (n : Nat → Nat) : Prop where
  m1 : ∀ i, m.m1.testBit i = decide (1 ≤ n i)
  m2 : ∀ i, m.m2.testBit i = decide (2 ≤ n i)
  m3 : ∀ i, m.m3.testBit i = decide (3 ≤ n i)
  m4 : ∀ i, m.m4.testBit i = decide (4 ≤ n i)

private theorem count_add (n i r k : Nat) :
    (decide (k + 1 ≤ n) || (decide (r = i) && decide (k ≤ n))) = decide (k + 1 ≤ n + if r = i then 1 else 0) := by
  by_cases hri : r = i
  · rw [if_pos hri, decide_eq_true hri, Bool.true_and, ← Bool.decide_or]
    exact decide_eq_decide.mpr (by omega)
  · rw [if_neg hri, decide_eq_false hri, Bool.false_and, Bool.or_false]
    rfl

private theorem Counts.add {m : Kinds} {n : Nat → Nat} (h : Counts m n) (r : Nat) :
    Counts (m.add (2^r)) fun i => n i + if r = i then 1 else 0 where
  m1 i := by
    rw [Kinds.add, Nat.testBit_or, h.m1, Nat.testBit_two_pow, ← count_add, decide_eq_true (Nat.zero_le (n i)),
      Bool.and_true]
  m2 i := by rw [Kinds.add, Nat.testBit_or, h.m2, testBit_two_pow_and, h.m1, ← count_add]
  m3 i := by rw [Kinds.add, Nat.testBit_or, h.m3, testBit_two_pow_and, h.m2, ← count_add]
  m4 i := by rw [Kinds.add, Nat.testBit_or, h.m4, testBit_two_pow_and, h.m3, ← count_add]

theorem counts_kindsOf (rs : List Nat) : Counts (kindsOf rs) rs.count := by
  have hfold : ∀ (m : Kinds) (n : Nat → Nat), Counts m n →
      Counts ((rs.map fun r => 2^r).foldl Kinds.add m) fun i => n i + rs.count i := by
    induction rs with
    | nil => exact fun m n h => h
    | cons r rs ih =>
      intro m n h
      have hcons := ih _ _ (h.add r)
      have hcount : (fun i => n i + (r :: rs).count i) = fun i => (n i + if r = i then 1 else 0) + rs.count i := by
        funext i
        rw [List.count_cons, Nat.add_assoc, Nat.add_comm (rs.count i)]
        simp only [beq_iff_eq]
      rw [hcount]
      exact hcons
  have hempty : Counts ⟨0, 0, 0, 0⟩ fun _ => 0 :=
    ⟨fun i => Nat.zero_testBit i, fun i => Nat.zero_testBit i, fun i => Nat.zero_testBit i, fun i => Nat.zero_testBit i⟩
  have hkinds := hfold _ _ hempty
  simp only [Nat.zero_add] at hkinds
  exact hkinds

/-- The masks are those of the counts. -/
theorem Counts.unique {m m' : Kinds} {n : Nat → Nat} (h : Counts m n) (h' : Counts m' n) : m = m' := by
  obtain ⟨m1, m2, m3, m4⟩ := m
  obtain ⟨m1', m2', m3', m4'⟩ := m'
  rw [Kinds.mk.injEq]
  exact ⟨Nat.eq_of_testBit_eq fun i => (h.m1 i).trans (h'.m1 i).symm,
    Nat.eq_of_testBit_eq fun i => (h.m2 i).trans (h'.m2 i).symm,
    Nat.eq_of_testBit_eq fun i => (h.m3 i).trans (h'.m3 i).symm,
    Nat.eq_of_testBit_eq fun i => (h.m4 i).trans (h'.m4 i).symm⟩

theorem kindsOf_perm {rs rs' : List Nat} (h : rs.Perm rs') : kindsOf rs = kindsOf rs' := by
  apply (counts_kindsOf rs).unique
  have hcount : rs.count = rs'.count := funext fun i => h.count_eq i
  rw [hcount]
  exact counts_kindsOf rs'

theorem kindsOf_m1 (rs : List Nat) : (kindsOf rs).m1 = maskOf rs := by
  apply Nat.eq_of_testBit_eq
  intro i
  rw [(counts_kindsOf rs).m1, testBit_maskOf]
  exact decide_eq_decide.mpr List.one_le_count_iff

theorem kindsOf_m2_eq_zero {rs : List Nat} : (kindsOf rs).m2 = 0 ↔ rs.Nodup := by
  rw [List.nodup_iff_count_le_one]
  constructor
  · intro h i
    have hbit := (counts_kindsOf rs).m2 i
    rw [h, Nat.zero_testBit] at hbit
    have hlt := of_decide_eq_false hbit.symm
    omega
  · intro h
    apply Nat.eq_of_testBit_eq
    intro i
    rw [(counts_kindsOf rs).m2, Nat.zero_testBit]
    have hle := h i
    exact decide_eq_false (by omega)

end Counts

section Spread
variable {j : Nat}

def Kinds.spread (j : Nat) (m : Kinds) : Kinds :=
  ⟨Lib.Masks.spread j m.m1, Lib.Masks.spread j m.m2, Lib.Masks.spread j m.m3, Lib.Masks.spread j m.m4⟩

def Key.spread (j : Nat) (k : Key) : Key := ⟨k.cat, Lib.Masks.spread j k.a, Lib.Masks.spread j k.b⟩

private theorem add_spread (m : Kinds) (c : Nat) :
    (m.spread j).add (Lib.Masks.spread j c) = (m.add c).spread j := by
  rw [Kinds.add, Kinds.add, Kinds.spread, Kinds.spread]
  simp only [spread_or, spread_and]

theorem kindsOf_skip (rs : List Nat) : kindsOf (rs.map (skip j)) = (kindsOf rs).spread j := by
  have hfold : ∀ m : Kinds, ((rs.map (skip j)).map fun r => 2^r).foldl Kinds.add (m.spread j) =
      ((rs.map fun r => 2^r).foldl Kinds.add m).spread j := by
    induction rs with
    | nil => exact fun m => rfl
    | cons r rs ih =>
      intro m
      rw [List.map_cons, List.map_cons, List.map_cons, List.foldl_cons, List.foldl_cons, ← spread_two_pow, add_spread]
      exact ih _
  have hempty : (⟨0, 0, 0, 0⟩ : Kinds).spread j = ⟨0, 0, 0, 0⟩ := by rw [Kinds.spread, spread_zero]
  rw [kindsOf, kindsOf, kinds, kinds, ← hfold, hempty]

private theorem top_spread (n x : Nat) : top n (Lib.Masks.spread j x) = Lib.Masks.spread j (top n x) := by
  induction n generalizing x with
  | zero => rfl
  | succ n ih =>
    rw [top, top, ← spread_rip]
    by_cases hrip : rip x = 0
    · rw [if_neg (not_not_intro ((spread_eq_zero_iff _).mpr hrip)), if_neg (not_not_intro hrip)]
    · rw [if_pos (mt (spread_eq_zero_iff _).mp hrip), if_pos hrip, ih]

theorem fiveKey_spread (m : Kinds) : fiveKey (m.spread j) = (fiveKey m).spread j := by
  simp only [fiveKey, Kinds.spread, ← spread_rip, ← spread_diff, spread_eq_zero_iff]
  split_ifs <;> simp only [Key.spread, spread_zero]

theorem sevenKey_spread (m : Kinds) : sevenKey (m.spread j) = (sevenKey m).spread j := by
  simp only [sevenKey, Kinds.spread, ← spread_rip, ← spread_diff, ← spread_or, ← spread_xor, spread_eq_zero_iff, top_spread,
    ne_eq]
  split_ifs <;> simp only [Key.spread, spread_zero]

theorem Key.Le.spread {k k' : Key} (h : k.Le k') : (k.spread j).Le (k'.spread j) := by
  have hlt : ∀ x y : Nat, Lib.Masks.spread j x < Lib.Masks.spread j y ↔ x < y := fun x y => spread_strictMono.lt_iff_lt
  have hle : ∀ x y : Nat, Lib.Masks.spread j x ≤ Lib.Masks.spread j y ↔ x ≤ y := fun x y => spread_strictMono.le_iff_le
  have heq : ∀ x y : Nat, Lib.Masks.spread j x = Lib.Masks.spread j y ↔ x = y := fun x y => spread_strictMono.injective.eq_iff
  rw [Key.Le, Key.spread, Key.spread]
  simp only [hlt, hle, heq]
  exact h

end Spread

end SuperNet.Games.Poker
