import Mathlib.Algebra.BigOperators.Group.Multiset.Basic
import Mathlib.Data.Finset.Max
import Mathlib.Data.Nat.Fib.Basic
import Mathlib.InformationTheory.Coding.KraftMcMillan
import Mathlib.Logic.Relation
import Mathlib.Tactic

/-! Trees of codes, and the trees that come from merging the two lightest of a pool until one is left. -/
namespace SuperNet.Lib.Huffman
open Relation

/-- A leaf, or a node with the subtrees behind the bits 0 and 1. -/
inductive CodeTree (α : Type*) where
  | leaf (a : α)
  | node (zero one : CodeTree α)

namespace CodeTree
variable {α : Type*}

/-- The leaves with the bits on the way to them. -/
def codes : CodeTree α → List (α × List Bool)
  | leaf a => [(a, [])]
  | node l r => l.codes.map (fun q => (q.1, false :: q.2)) ++ r.codes.map fun q => (q.1, true :: q.2)

def height : CodeTree α → Nat
  | leaf _ => 0
  | node l r => max l.height r.height + 1

section Weight
variable (w : α → Nat)

def weight : CodeTree α → Nat
  | leaf a => w a
  | node l r => l.weight + r.weight

/-- The bits of all the codes, each as often as its leaf weighs. -/
def cost : CodeTree α → Nat
  | leaf _ => 0
  | node l r => l.cost + r.cost + (l.weight w + r.weight w)

theorem weight_eq (t : CodeTree α) : t.weight w = (t.codes.map fun q => w q.1).sum := by
  induction t with
  | leaf a => simp [weight, codes]
  | node l r ihl ihr => simp [weight, codes, ihl, ihr, Function.comp_def]

private theorem sum_succ (cs : List (α × List Bool)) :
    (cs.map fun q => w q.1 * (q.2.length + 1)).sum =
      (cs.map fun q => w q.1 * q.2.length).sum + (cs.map fun q => w q.1).sum := by
  rw [← List.sum_map_add]
  rfl

theorem cost_eq (t : CodeTree α) : t.cost w = (t.codes.map fun q => w q.1 * q.2.length).sum := by
  induction t with
  | leaf a => simp [cost, codes]
  | node l r ihl ihr =>
    simp only [cost, codes, List.map_append, List.map_map, Function.comp_def, List.length_cons, List.sum_append,
      sum_succ, ihl, ihr, weight_eq]
    omega

end Weight

theorem length_le_height {t : CodeTree α} {q : α × List Bool} (h : q ∈ t.codes) : q.2.length ≤ t.height := by
  induction t generalizing q with
  | leaf a =>
    rw [codes, List.mem_singleton] at h
    rw [h]
    exact Nat.zero_le _
  | node l r ihl ihr =>
    rw [codes, List.mem_append, List.mem_map, List.mem_map] at h
    rw [height]
    rcases h with ⟨q, hq, rfl⟩ | ⟨q, hq, rfl⟩
    · have := ihl hq
      simp only [List.length_cons]
      omega
    · have := ihr hq
      simp only [List.length_cons]
      omega

/-- No code is the beginning of another. -/
theorem codes_prefixFree (t : CodeTree α) : t.codes.Pairwise fun p q => ¬ p.2 <+: q.2 ∧ ¬ q.2 <+: p.2 := by
  induction t with
  | leaf a => exact List.pairwise_singleton _ _
  | node l r ihl ihr =>
    rw [codes, List.pairwise_append]
    refine ⟨?_, ?_, ?_⟩
    · rw [List.pairwise_map]
      refine ihl.imp fun h => ?_
      simpa only [List.prefix_cons_inj] using h
    · rw [List.pairwise_map]
      refine ihr.imp fun h => ?_
      simpa only [List.prefix_cons_inj] using h
    · intro p hp q hq
      obtain ⟨p, -, rfl⟩ := List.mem_map.mp hp
      obtain ⟨q, -, rfl⟩ := List.mem_map.mp hq
      simp [List.cons_prefix_cons]

end CodeTree

section Merging
variable {α : Type*} (w : α → Nat)

/-- Two trees no heavier than the others are put under a node. -/
inductive Merge : Multiset (CodeTree α) → Multiset (CodeTree α) → Prop
  | intro {l r : CodeTree α} {rest : Multiset (CodeTree α)}
      (lightest : ∀ t ∈ rest, l.weight w ≤ t.weight w ∧ r.weight w ≤ t.weight w) :
      Merge (l ::ₘ r ::ₘ rest) (.node l r ::ₘ rest)

/-- Merging loses no leaf and makes none. -/
theorem Merge.leaves_eq {S T : Multiset (CodeTree α)} (h : Merge w S T) :
    (T.bind fun t => (t.codes.map Prod.fst : Multiset α)) = S.bind fun t => (t.codes.map Prod.fst : Multiset α) := by
  cases h with | @intro l r rest => ?_
  simp [CodeTree.codes, Function.comp_def, ← Multiset.coe_add, add_assoc]

/-! How high the tree gets. -/

/-- The subtrees right below the root weigh at most `n`. -/
def CodeTree.Below : CodeTree α → Nat → Prop
  | .leaf _, _ => True
  | .node l r, n => l.weight w ≤ n ∧ r.weight w ≤ n

/-- Next to each subtree nothing right below it is heavier. -/
def CodeTree.Balanced : CodeTree α → Prop
  | .leaf _ => True
  | .node l r => l.Balanced ∧ r.Balanced ∧ l.Below w (r.weight w) ∧ r.Below w (l.weight w)

variable {w}

theorem CodeTree.Below.mono {t : CodeTree α} {m n : Nat} (h : t.Below w m) (hmn : m ≤ n) : t.Below w n := by
  cases t with
  | leaf a => trivial
  | node l r => exact ⟨h.1.trans hmn, h.2.trans hmn⟩

/-- What a pool keeps: its trees are balanced and nothing right below a root is heavier than a tree of it. -/
def Settled (w : α → Nat) (S : Multiset (CodeTree α)) : Prop := ∀ t ∈ S, t.Balanced w ∧ ∀ u ∈ S, t.Below w (u.weight w)

theorem Settled.leaves (s : Multiset α) : Settled w (s.map CodeTree.leaf) := by
  intro t ht
  obtain ⟨a, -, rfl⟩ := Multiset.mem_map.mp ht
  exact ⟨trivial, fun _ _ => trivial⟩

theorem Settled.merge {S T : Multiset (CodeTree α)} (hS : Settled w S) (h : Merge w S T) : Settled w T := by
  cases h with | @intro l r rest lightest => ?_
  have hl : l ∈ l ::ₘ r ::ₘ rest := Multiset.mem_cons_self _ _
  have hr : r ∈ l ::ₘ r ::ₘ rest := Multiset.mem_cons_of_mem (Multiset.mem_cons_self _ _)
  have hrest {t : CodeTree α} (ht : t ∈ rest) : t ∈ l ::ₘ r ::ₘ rest :=
    Multiset.mem_cons_of_mem (Multiset.mem_cons_of_mem ht)
  intro t ht
  rcases Multiset.mem_cons.mp ht with rfl | ht
  · refine ⟨⟨(hS l hl).1, (hS r hr).1, (hS l hl).2 r hr, (hS r hr).2 l hl⟩, fun u hu => ?_⟩
    rcases Multiset.mem_cons.mp hu with rfl | hu
    · exact ⟨Nat.le_add_right _ _, Nat.le_add_left _ _⟩
    · exact lightest u hu
  · refine ⟨(hS t (hrest ht)).1, fun u hu => ?_⟩
    rcases Multiset.mem_cons.mp hu with rfl | hu
    · exact ((hS t (hrest ht)).2 l hl).mono (Nat.le_add_right _ _)
    · exact (hS t (hrest ht)).2 u (hrest hu)

theorem Settled.run {S T : Multiset (CodeTree α)} (hS : Settled w S) (h : ReflTransGen (Merge w) S T) : Settled w T := by
  induction h with
  | refl => exact hS
  | tail _ hm ih => exact ih.merge hm

/-- The side that is as high as the other has Fibonacci weight one below its own, next to something
as heavy as what is right below it. -/
private theorem fib_side {t : CodeTree α} {n : Nat} (hpos : ∀ q ∈ t.codes, 0 < w q.1) (hn : 0 < n)
    (hbelow : t.Below w n) (ih : Nat.fib (t.height + 2) ≤ t.weight w)
    (hsub : ∀ l r, t = .node l r → Nat.fib (l.height + 2) ≤ l.weight w ∧ Nat.fib (r.height + 2) ≤ r.weight w) :
    Nat.fib (t.height + 3) ≤ t.weight w + n := by
  cases t with
  | leaf a =>
    have hw : 0 < w a := hpos (a, []) (List.mem_singleton_self _)
    have hfib : Nat.fib (0 + 3) = 2 := rfl
    rw [CodeTree.height, hfib, CodeTree.weight]
    omega
  | node l r =>
    have hfib : Nat.fib (max l.height r.height + 1 + 3) =
        Nat.fib (max l.height r.height + 2) + Nat.fib (max l.height r.height + 1 + 2) := Nat.fib_add_two
    have hchild : Nat.fib (max l.height r.height + 2) ≤ n := by
      obtain ⟨hl, hr⟩ := hsub l r rfl
      rcases max_choice l.height r.height with h | h
      · rw [h]
        exact hl.trans hbelow.1
      · rw [h]
        exact hr.trans hbelow.2
    rw [CodeTree.height] at ih ⊢
    rw [hfib]
    omega

/-- A balanced tree is at most as high as a Fibonacci tree of its weight. -/
theorem CodeTree.Balanced.fib_le {t : CodeTree α} (h : t.Balanced w) (hpos : ∀ q ∈ t.codes, 0 < w q.1) :
    Nat.fib (t.height + 2) ≤ t.weight w ∧
      ∀ l r, t = .node l r → Nat.fib (l.height + 2) ≤ l.weight w ∧ Nat.fib (r.height + 2) ≤ r.weight w := by
  induction t with
  | leaf a =>
    have hw : 0 < w a := hpos (a, []) (List.mem_singleton_self _)
    exact ⟨hw, fun l r h => by cases h⟩
  | node l r ihl ihr =>
    obtain ⟨hbl, hbr, hlr, hrl⟩ := h
    have hposl : ∀ q ∈ l.codes, 0 < w q.1 := fun q hq =>
      hpos (q.1, false :: q.2) (List.mem_append_left _ (List.mem_map_of_mem hq))
    have hposr : ∀ q ∈ r.codes, 0 < w q.1 := fun q hq =>
      hpos (q.1, true :: q.2) (List.mem_append_right _ (List.mem_map_of_mem hq))
    obtain ⟨hl, hsubl⟩ := ihl hbl hposl
    obtain ⟨hr, hsubr⟩ := ihr hbr hposr
    have hwl : 0 < l.weight w := (Nat.fib_pos.mpr (Nat.succ_pos _)).trans_le hl
    have hwr : 0 < r.weight w := (Nat.fib_pos.mpr (Nat.succ_pos _)).trans_le hr
    have hsidel := fib_side hposl hwr hlr hl hsubl
    have hsider := fib_side hposr hwl hrl hr hsubr
    refine ⟨?_, ?_⟩
    · rw [height, weight]
      rcases max_choice l.height r.height with h | h
      · rw [h]
        exact hsidel
      · rw [h, add_comm (l.weight w)]
        exact hsider
    · rintro l' r' ⟨⟩
      exact ⟨hl, hr⟩

/-! No other prefix code is shorter. -/

/-- The lengths leave room for all their codes. -/
def Kraft (L : Multiset Nat) : Prop := ∃ M, (∀ x ∈ L, x ≤ M) ∧ (L.map fun x => 2^(M - x)).sum ≤ 2^M

private theorem raise (u a : Nat) (Q : Multiset (Nat × Nat)) (hu : ∀ q ∈ Q, u ≤ q.1) :
    ∃ (m : Nat) (Q' : Multiset (Nat × Nat)), Q'.map Prod.fst = Q.map Prod.fst ∧ m ::ₘ Q'.map Prod.snd = a ::ₘ Q.map Prod.snd ∧
      (∀ q ∈ Q', q.2 ≤ m) ∧ (∀ N, (∀ q ∈ Q, q.2 ≤ N) → ∀ q ∈ Q', q.2 ≤ N) ∧
      u * m + (Q'.map fun q => q.1 * q.2).sum ≤ u * a + (Q.map fun q => q.1 * q.2).sum := by
  by_cases ha : ∀ q ∈ Q, q.2 ≤ a
  · exact ⟨a, Q, rfl, rfl, ha, fun _ h => h, le_rfl⟩
  · push Not at ha
    obtain ⟨q₀, hq₀, hlt₀⟩ := ha
    obtain ⟨⟨x, m⟩, hx, hmax⟩ := Multiset.exists_max_image (fun q : Nat × Nat => q.2) (s := Q)
      (fun h => by simp [h] at hq₀)
    have ham : a < m := hlt₀.trans_le (hmax q₀ hq₀)
    have hux : u ≤ x := hu _ hx
    obtain ⟨Q₁, rfl⟩ := Multiset.exists_cons_of_mem hx
    refine ⟨m, (x, a) ::ₘ Q₁, by simp, by simp [Multiset.cons_swap], ?_, ?_, ?_⟩
    · intro q hq
      rcases Multiset.mem_cons.mp hq with rfl | hq
      · exact ham.le
      · exact hmax q (Multiset.mem_cons_of_mem hq)
    · intro N hN q hq
      rcases Multiset.mem_cons.mp hq with rfl | hq
      · exact ham.le.trans (hN (x, m) (Multiset.mem_cons_self _ _))
      · exact hN q (Multiset.mem_cons_of_mem hq)
    · simp only [Multiset.map_cons, Multiset.sum_cons]
      have := mul_add_mul_le_mul_add_mul hux ham.le
      omega

private theorem kraft_join {a b : Nat} {L : Multiset Nat} (hL : ∀ x ∈ L, x ≤ a ∧ x ≤ b) (h : Kraft (a ::ₘ b ::ₘ L)) :
    1 ≤ min a b ∧ Kraft ((min a b - 1) ::ₘ L) := by
  obtain ⟨M, hM, hsum⟩ := h
  have haM : a ≤ M := hM a (Multiset.mem_cons_self _ _)
  have hbM : b ≤ M := hM b (Multiset.mem_cons_of_mem (Multiset.mem_cons_self _ _))
  obtain ⟨p, hp⟩ : ∃ p, min a b = p := ⟨_, rfl⟩
  have hLp : ∀ x ∈ L, x ≤ p := fun x hx => hp ▸ le_min (hL x hx).1 (hL x hx).2
  have hpM : p ≤ M := hp ▸ (min_le_left a b).trans haM
  obtain ⟨k, hk⟩ : 2^(M - p) ∣ (L.map fun x => 2^(M - x)).sum := by
    refine Multiset.dvd_sum fun y hy => ?_
    obtain ⟨x, hx, rfl⟩ := Multiset.mem_map.mp hy
    exact Nat.pow_dvd_pow 2 (Nat.sub_le_sub_left (hLp x hx) M)
  have hpow : 2^M = 2^(M - p) * 2^p := by
    rw [← pow_add, Nat.sub_add_cancel hpM]
  -- The shorter of the two takes one part, the longer leaves less than the whole for the others.
  have htwo : 2^(M - p) < 2^(M - a) + 2^(M - b) := by
    have := Nat.two_pow_pos (M - a)
    have := Nat.two_pow_pos (M - b)
    rcases min_choice a b with h | h
    · rw [← hp, h]
      omega
    · rw [← hp, h]
      omega
  have hroom : 1 + k < 2^p := by
    have hlt : 2^(M - p) * (1 + k) < 2^(M - p) * 2^p := by
      simp only [Multiset.map_cons, Multiset.sum_cons] at hsum
      rw [← hpow, Nat.mul_add, mul_one]
      omega
    exact lt_of_mul_lt_mul_left hlt (Nat.zero_le _)
  have hp1 : 1 ≤ p := by
    by_contra hp0
    rw [Nat.lt_one_iff.mp (not_le.mp hp0), pow_zero] at hroom
    omega
  rw [hp]
  refine ⟨hp1, M, ?_, ?_⟩
  · intro x hx
    rcases Multiset.mem_cons.mp hx with rfl | hx
    · omega
    · exact (hLp x hx).trans hpM
  · have hdouble : 2^(M - (p - 1)) = 2^(M - p) * 2 := by
      rw [← pow_succ]
      congr 1
      omega
    rw [Multiset.map_cons, Multiset.sum_cons, hk, hdouble, hpow, ← Nat.mul_add]
    exact Nat.mul_le_mul_left _ (by omega)

private theorem join_lightest {u v a b : Nat} {Q : Multiset (Nat × Nat)} (hQ : ∀ q ∈ Q, u ≤ q.1 ∧ v ≤ q.1)
    (hk : Kraft (a ::ₘ b ::ₘ Q.map Prod.snd)) :
    ∃ (c : Nat) (Q' : Multiset (Nat × Nat)), Q'.map Prod.fst = Q.map Prod.fst ∧ Kraft (c ::ₘ Q'.map Prod.snd) ∧
      (u + v) * c + (Q'.map fun q => q.1 * q.2).sum + (u + v) ≤ u * a + (v * b + (Q.map fun q => q.1 * q.2).sum) := by
  obtain ⟨m, Q₁, hfst₁, hsnd₁, hmax₁, -, hle₁⟩ := raise u a Q fun q hq => (hQ q hq).1
  have hv : ∀ q ∈ Q₁, v ≤ q.1 := by
    intro q hq
    obtain ⟨q', hq', heq⟩ := Multiset.mem_map.mp (hfst₁ ▸ Multiset.mem_map_of_mem Prod.fst hq)
    exact heq ▸ (hQ q' hq').2
  obtain ⟨n, Q₂, hfst₂, hsnd₂, hmax₂, hkeep, hle₂⟩ := raise v b Q₁ hv
  have hk' : Kraft (m ::ₘ n ::ₘ Q₂.map Prod.snd) := by
    rwa [hsnd₂, Multiset.cons_swap, hsnd₁, Multiset.cons_swap]
  have hlong : ∀ x ∈ Q₂.map Prod.snd, x ≤ m ∧ x ≤ n := by
    intro x hx
    obtain ⟨q, hq, rfl⟩ := Multiset.mem_map.mp hx
    exact ⟨hkeep m hmax₁ q hq, hmax₂ q hq⟩
  obtain ⟨hpos, hjoin⟩ := kraft_join hlong hk'
  refine ⟨min m n - 1, Q₂, hfst₂.trans hfst₁, hjoin, ?_⟩
  have hsum : (u + v) * (min m n - 1) + (u + v) = u * min m n + v * min m n := by
    rw [← Nat.mul_succ, Nat.succ_eq_add_one, Nat.sub_add_cancel hpos, Nat.add_mul]
  have hum : u * min m n ≤ u * m := Nat.mul_le_mul_left u (min_le_left m n)
  have hvn : v * min m n ≤ v * n := Nat.mul_le_mul_left v (min_le_right m n)
  omega

private theorem map_fst_eq_cons {P : Multiset (Nat × Nat)} {u : Nat} {R : Multiset Nat}
    (h : P.map Prod.fst = u ::ₘ R) : ∃ a Q, P = (u, a) ::ₘ Q ∧ Q.map Prod.fst = R := by
  obtain ⟨⟨u', a⟩, hp, rfl⟩ := Multiset.mem_map.mp (h ▸ Multiset.mem_cons_self u R)
  obtain ⟨Q, rfl⟩ := Multiset.exists_cons_of_mem hp
  rw [Multiset.map_cons] at h
  exact ⟨a, Q, rfl, (Multiset.cons_inj_right _).mp h⟩

/-- The tree that is left costs no more than any lengths that leave room for the trees there were. -/
theorem Merge.optimal {S : Multiset (CodeTree α)} {T : CodeTree α} (hrun : ReflTransGen (Merge w) S {T})
    (P : Multiset (Nat × Nat)) (hP : P.map Prod.fst = S.map (CodeTree.weight w)) (hk : Kraft (P.map Prod.snd)) :
    T.cost w ≤ (S.map (CodeTree.cost w)).sum + (P.map fun p => p.1 * p.2).sum := by
  induction hrun using ReflTransGen.head_induction_on generalizing P with
  | refl =>
    rw [Multiset.map_singleton, Multiset.sum_singleton]
    exact Nat.le_add_right _ _
  | head hm _ ih =>
    cases hm with | @intro l r rest lightest => ?_
    rw [Multiset.map_cons, Multiset.map_cons] at hP
    obtain ⟨a, P₁, rfl, hP₁⟩ := map_fst_eq_cons hP
    obtain ⟨b, Q, rfl, hQ⟩ := map_fst_eq_cons hP₁
    have hlight : ∀ q ∈ Q, l.weight w ≤ q.1 ∧ r.weight w ≤ q.1 := by
      intro q hq
      obtain ⟨t, ht, heq⟩ := Multiset.mem_map.mp (hQ ▸ Multiset.mem_map_of_mem Prod.fst hq)
      exact heq ▸ lightest t ht
    simp only [Multiset.map_cons] at hk
    obtain ⟨c, Q', hfst, hk', hle⟩ := join_lightest hlight hk
    have hT := ih ((l.weight w + r.weight w, c) ::ₘ Q') (by simp [hfst, hQ, CodeTree.weight]) (by simpa using hk')
    simp only [Multiset.map_cons, Multiset.sum_cons, CodeTree.cost] at hT ⊢
    omega

end Merging

section Codes
variable {ι β : Type*} {I : Finset ι}

/-- Different members of `I` have codes of which none is the beginning of the other. -/
def PrefixCode (I : Finset ι) (c : ι → List β) : Prop := ∀ i ∈ I, ∀ j ∈ I, i ≠ j → ¬ c i <+: c j

namespace PrefixCode
variable {c : ι → List β}

private theorem ne_nil (hI : I.Nontrivial) (h : PrefixCode I c) {i : ι} (hi : i ∈ I) : c i ≠ [] := by
  intro hnil
  obtain ⟨j, hj, hji⟩ := hI.exists_ne i
  exact h i hi j hj hji.symm (hnil ▸ List.nil_prefix)

theorem injOn (h : PrefixCode I c) : Set.InjOn c I := by
  intro i hi j hj heq
  by_contra hij
  exact h i hi j hj hij (heq ▸ List.prefix_refl _)

theorem uniquelyDecodable (hI : I.Nontrivial) (h : PrefixCode I c) :
    InformationTheory.UniquelyDecodable (c '' I) := by
  intro L₁
  induction L₁ with
  | nil =>
    intro L₂ _ h₂ heq
    cases L₂ with
    | nil => rfl
    | cons v L₂ =>
      obtain ⟨j, hj, rfl⟩ := h₂ v List.mem_cons_self
      rw [List.flatten_cons, List.flatten_nil, eq_comm, List.append_eq_nil_iff] at heq
      exact absurd heq.1 (ne_nil hI h hj)
  | cons u L₁ ih =>
    intro L₂ h₁ h₂ heq
    obtain ⟨i, hi, rfl⟩ := h₁ u List.mem_cons_self
    cases L₂ with
    | nil =>
      rw [List.flatten_cons, List.flatten_nil, List.append_eq_nil_iff] at heq
      exact absurd heq.1 (ne_nil hI h hi)
    | cons v L₂ =>
      obtain ⟨j, hj, rfl⟩ := h₂ v List.mem_cons_self
      rw [List.flatten_cons, List.flatten_cons] at heq
      have hij : i = j := by
        by_contra hne
        rcases List.prefix_or_prefix_of_prefix (List.prefix_append _ _) (heq ▸ List.prefix_append _ _) with hp | hp
        · exact h j hj i hi (Ne.symm hne) hp
        · exact h i hi j hj hne hp
      subst hij
      rw [ih L₂ (fun w hw => h₁ w (List.mem_cons_of_mem _ hw)) (fun w hw => h₂ w (List.mem_cons_of_mem _ hw))
        (List.append_cancel_left heq)]

/-- The lengths of a prefix code leave room for it. -/
theorem kraft {c : ι → List Bool} (hI : I.Nontrivial) (h : PrefixCode I c) :
    Kraft (I.val.map fun i => (c i).length) := by
  classical
  have hud : InformationTheory.UniquelyDecodable ((I.image c : Finset (List Bool)) : Set (List Bool)) := by
    rw [Finset.coe_image]
    exact uniquelyDecodable hI h
  have hle := InformationTheory.kraft_mcmillan_inequality hud
  rw [Finset.sum_image h.injOn, Fintype.card_bool, Nat.cast_two] at hle
  refine ⟨I.sup fun i => (c i).length, ?_, ?_⟩
  · intro x hx
    obtain ⟨i, hi, rfl⟩ := Multiset.mem_map.mp hx
    exact Finset.le_sup (f := fun i => (c i).length) hi
  · rw [Multiset.map_map]
    set M := I.sup fun i => (c i).length with hM
    have hscale : ∑ i ∈ I, (2 : ℝ)^(M - (c i).length) = 2^M * ∑ i ∈ I, (1/2 : ℝ)^(c i).length := by
      rw [Finset.mul_sum]
      refine Finset.sum_congr rfl fun i hi => ?_
      have hiM : (c i).length ≤ M := Finset.le_sup (f := fun i => (c i).length) hi
      rw [one_div, inv_pow, pow_sub₀ 2 two_ne_zero hiM]
    have hreal : ∑ i ∈ I, (2 : ℝ)^(M - (c i).length) ≤ 2^M := by
      rw [hscale]
      exact mul_le_of_le_one_right (by positivity) hle
    change ∑ i ∈ I, 2^(M - (c i).length) ≤ 2^M
    exact_mod_cast hreal

end PrefixCode

variable {w : ι → Nat} {T : CodeTree ι}

/-- The leaves of what is left are those there were. -/
theorem codes_fst (hrun : ReflTransGen (Merge w) (I.val.map .leaf) {T}) : (T.codes.map Prod.fst : Multiset ι) = I.val := by
  have hbind : ∀ {S U : Multiset (CodeTree ι)}, ReflTransGen (Merge w) S U →
      (U.bind fun t => (t.codes.map Prod.fst : Multiset ι)) = S.bind fun t => (t.codes.map Prod.fst : Multiset ι) := by
    intro S U hSU
    induction hSU with
    | refl => rfl
    | tail _ hm ih => exact (hm.leaves_eq w).trans ih
  have h := hbind hrun
  rw [Multiset.singleton_bind, Multiset.bind_map] at h
  simpa [CodeTree.codes, Multiset.bind_singleton (f := fun i : ι => i)] using h

theorem sum_codes (hrun : ReflTransGen (Merge w) (I.val.map .leaf) {T}) (f : ι → Nat) :
    (T.codes.map fun q => f q.1).sum = ∑ i ∈ I, f i := by
  rw [Finset.sum, ← codes_fst hrun, Multiset.map_coe, Multiset.sum_coe, List.map_map]
  rfl

/-- The height of what is left, from the weight of all its leaves. -/
theorem fib_height_le (hrun : ReflTransGen (Merge w) (I.val.map .leaf) {T}) (hpos : ∀ i ∈ I, 0 < w i) :
    Nat.fib (T.height + 2) ≤ ∑ i ∈ I, w i := by
  have hT := ((Settled.leaves I.val).run hrun T (Multiset.mem_singleton_self T)).1
  have hleaf : ∀ q ∈ T.codes, 0 < w q.1 := by
    intro q hq
    refine hpos q.1 ?_
    rw [← Finset.mem_val, ← codes_fst hrun, Multiset.mem_coe]
    exact List.mem_map_of_mem hq
  rw [← sum_codes hrun w, ← CodeTree.weight_eq]
  exact (hT.fib_le hleaf).1

/-- No prefix code for the same leaves has fewer bits in all. -/
theorem cost_le (hI : I.Nontrivial) (hrun : ReflTransGen (Merge w) (I.val.map .leaf) {T}) {c : ι → List Bool}
    (hc : PrefixCode I c) : T.cost w ≤ ∑ i ∈ I, w i * (c i).length := by
  have h := Merge.optimal hrun (I.val.map fun i => (w i, (c i).length)) (by simp [CodeTree.weight, Function.comp_def])
    (by simpa [Function.comp_def] using hc.kraft hI)
  simpa [CodeTree.cost, Function.comp_def] using h

theorem codes_not_prefix (T : CodeTree ι) {p q : ι × List Bool} (hp : p ∈ T.codes) (hq : q ∈ T.codes) (h : p.1 ≠ q.1) :
    ¬ p.2 <+: q.2 := by
  have : Std.Symm fun p q : ι × List Bool => ¬ p.2 <+: q.2 ∧ ¬ q.2 <+: p.2 := ⟨fun _ _ h => h.symm⟩
  exact (T.codes_prefixFree.forall hp hq fun he => h (congrArg Prod.fst he)).1

end Codes

end SuperNet.Lib.Huffman
