import Mathlib.Data.List.Count
import Mathlib.Data.List.Lex
import Mathlib.Data.List.MinMax
import Mathlib.Data.List.Sublists
import Mathlib.Data.Prod.Lex

/-! The standard ranking of hold'em hands. Cards are given as they are read: a suit and the height of the rank, from 0
for a two to 12 for an ace. -/
namespace SuperNet.Games.Holdem

structure Card where
  height : Nat
  suit : Char
  deriving DecidableEq, Repr

inductive HandClass where
  | highCard | onePair | twoPair | threeKind | straight | flush | fullHouse | fourKind | straightFlush
  deriving DecidableEq, Repr

/-- The order of the classes. -/
def HandClass.rank : HandClass → Nat
  | .highCard => 0
  | .onePair => 1
  | .twoPair => 2
  | .threeKind => 3
  | .straight => 4
  | .flush => 5
  | .fullHouse => 6
  | .fourKind => 7
  | .straightFlush => 8

/-- The ranks that occur `n` times, the highest first. -/
def ofCount (rs : List Nat) (n : Nat) : List Nat := (List.range 13).reverse.filter fun r => rs.count r = n

/-- What decides between hands of one class: the ranks that occur more often come first. -/
def deciding (rs : List Nat) : List Nat := ofCount rs 4 ++ (ofCount rs 3 ++ (ofCount rs 2 ++ ofCount rs 1))

/-- The class of ranks that are not a straight. -/
def kindClass (rs : List Nat) : HandClass :=
  if ofCount rs 4 ≠ [] then .fourKind
  else if ofCount rs 3 ≠ [] then if ofCount rs 2 ≠ [] then .fullHouse else .threeKind
  else match (ofCount rs 2).length with
    | 0 => .highCard
    | 1 => .onePair
    | _ => .twoPair

/-- The straights, the highest first, each from its highest rank down. In the five-high one the ace is low. -/
def straightRanks : List (List Nat) :=
  (List.range 9).reverse.map (fun k => [k + 4, k + 3, k + 2, k + 1, k]) ++ [[3, 2, 1, 0, 12]]

def straightHigh (rs : List Nat) : Option Nat := (straightRanks.find? fun s => s ⊆ rs).map fun s => s.headD 0

def Suited (x : List Card) : Prop := ∀ c ∈ x, ∀ d ∈ x, c.suit = d.suit

instance instDecidableSuited (x : List Card) : Decidable (Suited x) := inferInstanceAs (Decidable (∀ c ∈ x, ∀ d ∈ x, _))

/-- Where five cards stand: their class, and within it the ranks that decide. -/
def standing (x : List Card) : Nat ×ₗ List Nat :=
  let rs := x.map Card.height
  match straightHigh rs with
  | some high => toLex ((if Suited x then HandClass.straightFlush else HandClass.straight).rank, [high])
  | none => toLex ((if Suited x then HandClass.flush else kindClass rs).rank, deciding rs)

theorem standing_of_some {x : List Card} {high : Nat} (h : straightHigh (x.map Card.height) = some high) :
    standing x = toLex ((if Suited x then HandClass.straightFlush else HandClass.straight).rank, [high]) := by
  rw [standing, h]

theorem standing_of_none {x : List Card} (h : straightHigh (x.map Card.height) = none) : standing x =
    toLex ((if Suited x then HandClass.flush else kindClass (x.map Card.height)).rank, deciding (x.map Card.height)) := by
  rw [standing, h]

/-- Where seven cards stand: as the best five of them. -/
def ranking (h : List Card) : WithBot (Nat ×ₗ List Nat) := ((h.sublistsLen 5).map standing).maximum

theorem ranking_eq_coe {h : List Card} {k : Nat ×ₗ List Nat} : ranking h = k ↔
    (∃ x : List Card, x.Sublist h ∧ x.length = 5 ∧ standing x = k) ∧
      ∀ x : List Card, x.Sublist h → x.length = 5 → standing x ≤ k := by
  rw [ranking, List.maximum_eq_coe_iff]
  simp only [List.mem_map, List.mem_sublistsLen, and_assoc]
  apply and_congr_right
  intro _
  constructor
  · intro hall x hx hlen
    exact hall _ ⟨x, hx, hlen, rfl⟩
  · rintro hall _ ⟨x, hx, hlen, rfl⟩
    exact hall x hx hlen

theorem exists_ranking {h : List Card} (hlen : 5 ≤ h.length) : ∃ k : Nat ×ₗ List Nat, ranking h = k := by
  have hne : (h.sublistsLen 5).map standing ≠ [] := by
    have hmem : h.take 5 ∈ h.sublistsLen 5 :=
      List.mem_sublistsLen.mpr ⟨List.take_sublist 5 h, List.length_take_of_le hlen⟩
    exact List.ne_nil_of_mem (List.mem_map_of_mem hmem)
  obtain ⟨k, hk⟩ := WithBot.ne_bot_iff_exists.mp (List.maximum_ne_bot_of_ne_nil hne)
  exact ⟨k, hk.symm⟩

theorem cmp_coe (k k' : Nat ×ₗ List Nat) : cmp (k : WithBot (Nat ×ₗ List Nat)) k' = cmp k k' :=
  WithBot.coe_strictMono.cmp_map_eq k k'

section Shift

/-- The card that is one rank higher. -/
def Card.up (c : Card) : Card := ⟨c.height + 1, c.suit⟩

/-- The same standing, every rank one higher. -/
def shiftUp (k : Nat ×ₗ List Nat) : Nat ×ₗ List Nat := toLex ((ofLex k).1, (ofLex k).2.map (· + 1))

theorem map_succ_lt {l l' : List Nat} (h : l < l') : l.map (· + 1) < l'.map (· + 1) := by
  induction h with
  | nil => exact List.Lex.nil
  | rel h => exact List.Lex.rel (Nat.succ_lt_succ h)
  | cons _ ih => exact List.Lex.cons ih

theorem shiftUp_strictMono : StrictMono shiftUp := by
  intro k k' h
  rw [Prod.Lex.lt_iff] at h ⊢
  obtain hlt | ⟨heq, hlt⟩ := h
  · exact .inl hlt
  · exact .inr ⟨heq, map_succ_lt hlt⟩

variable {rs : List Nat}

private theorem add_one_injective : Function.Injective fun r : Nat => r + 1 := fun _ _ h => Nat.succ.inj h

private theorem count_succ (rs : List Nat) (r : Nat) : (rs.map (· + 1)).count (r + 1) = rs.count r :=
  List.count_map_of_injective rs (· + 1) add_one_injective r

theorem ofCount_succ (h12 : ∀ r ∈ rs, r < 12) {n : Nat} (hn : 0 < n) :
    ofCount (rs.map (· + 1)) n = (ofCount rs n).map (· + 1) := by
  have hzero : (rs.map (· + 1)).count 0 = 0 := List.count_eq_zero.mpr (by simp)
  have htwelve : rs.count 12 = 0 := List.count_eq_zero.mpr fun hmem => absurd (h12 12 hmem) (by decide)
  have hlow : (List.range 13).reverse = (List.range 12).reverse.map (· + 1) ++ [0] := by decide
  have hhigh : (List.range 13).reverse = 12 :: (List.range 12).reverse := by decide
  have hleft : ofCount (rs.map (· + 1)) n = ((List.range 12).reverse.map (· + 1)).filter
      fun r => decide ((rs.map (· + 1)).count r = n) := by
    rw [ofCount, hlow, List.filter_append, List.filter_cons_of_neg, List.filter_nil, List.append_nil]
    rw [hzero, decide_eq_true_eq]
    exact Nat.ne_of_lt hn
  have hright : ofCount rs n = (List.range 12).reverse.filter fun r => decide (rs.count r = n) := by
    rw [ofCount, hhigh, List.filter_cons_of_neg]
    rw [htwelve, decide_eq_true_eq]
    exact Nat.ne_of_lt hn
  rw [hleft, hright, List.filter_map]
  congr 1
  apply List.filter_congr
  intro r _
  rw [Function.comp_apply, count_succ]

theorem deciding_succ (h12 : ∀ r ∈ rs, r < 12) : deciding (rs.map (· + 1)) = (deciding rs).map (· + 1) := by
  rw [deciding, deciding, ofCount_succ h12 (by decide), ofCount_succ h12 (by decide), ofCount_succ h12 (by decide),
    ofCount_succ h12 (by decide), List.map_append, List.map_append, List.map_append]

theorem kindClass_succ (h12 : ∀ r ∈ rs, r < 12) : kindClass (rs.map (· + 1)) = kindClass rs := by
  rw [kindClass, kindClass, ofCount_succ h12 (by decide), ofCount_succ h12 (by decide), ofCount_succ h12 (by decide),
    List.length_map]
  simp only [ne_eq, List.map_eq_nil_iff]

/-- The straights that neither begin nor end with an ace, from their lowest rank up. -/
private def innerStraights : List (List Nat) := (List.range 8).reverse.map fun k => [k + 4, k + 3, k + 2, k + 1, k]

private theorem find_straight_succ (rs : List Nat) : straightRanks.find? (fun s => decide (s ⊆ rs.map (· + 1))) =
    (innerStraights.find? fun s => decide (s ⊆ rs)).map (List.map (· + 1)) := by
  have hsplit : straightRanks = innerStraights.map (List.map (· + 1)) ++ [[4, 3, 2, 1, 0], [3, 2, 1, 0, 12]] := by decide
  have hzero : ∀ s ∈ [[4, 3, 2, 1, 0], [3, 2, 1, 0, 12]], ¬ s ⊆ rs.map (· + 1) := by
    intro s hs hsub
    have hmem : ∀ s ∈ [[4, 3, 2, 1, 0], [3, 2, 1, 0, 12]], (0 : Nat) ∈ s := by decide
    obtain ⟨r, -, hr⟩ := List.mem_map.mp (hsub (hmem s hs))
    exact absurd hr (Nat.succ_ne_zero r)
  have hnone : [[4, 3, 2, 1, 0], [3, 2, 1, 0, 12]].find? (fun s => decide (s ⊆ rs.map (· + 1))) = none :=
    List.find?_eq_none.mpr fun s hs hsub => hzero s hs (of_decide_eq_true hsub)
  have hpred : ((fun s => decide (s ⊆ rs.map (· + 1))) ∘ List.map (· + 1)) = fun s : List Nat => decide (s ⊆ rs) := by
    funext s
    rw [Function.comp_apply]
    exact decide_eq_decide.mpr (List.map_subset_iff _ add_one_injective)
  rw [hsplit, List.find?_append, hnone, Option.or_none, List.find?_map, hpred]

private theorem find_straight (h12 : ∀ r ∈ rs, r < 12) : straightRanks.find? (fun s => decide (s ⊆ rs)) =
    innerStraights.find? fun s => decide (s ⊆ rs) := by
  have hsplit : straightRanks = [[12, 11, 10, 9, 8]] ++ innerStraights ++ [[3, 2, 1, 0, 12]] := by decide
  have htwelve : ∀ s : List Nat, 12 ∈ s → [s].find? (fun s => decide (s ⊆ rs)) = none := by
    intro s hs
    rw [List.find?_eq_none]
    intro s' hs' hsub
    rw [List.mem_singleton.mp hs'] at hsub
    exact absurd (h12 12 (of_decide_eq_true hsub hs)) (by decide)
  rw [hsplit, List.find?_append, List.find?_append, htwelve _ (by decide), htwelve _ (by decide), Option.none_or,
    Option.or_none]

theorem straightHigh_succ (h12 : ∀ r ∈ rs, r < 12) : straightHigh (rs.map (· + 1)) = (straightHigh rs).map (· + 1) := by
  rw [straightHigh, straightHigh, find_straight_succ, find_straight h12]
  cases hfind : innerStraights.find? fun s => decide (s ⊆ rs) with
  | none => rfl
  | some s =>
    have hhead : ∀ s ∈ innerStraights, (s.map (· + 1)).headD 0 = s.headD 0 + 1 := by decide
    rw [Option.map_some, Option.map_some, Option.map_some, Option.map_some, hhead s (List.mem_of_find?_eq_some hfind)]

/-- Of ranks below the ace, each one higher makes the same hand, one higher. -/
theorem standing_succ {x : List Card} (h12 : ∀ c ∈ x, c.height < 12) :
    standing (x.map Card.up) = shiftUp (standing x) := by
  have hrs : ∀ r ∈ x.map Card.height, r < 12 := by
    intro r hr
    obtain ⟨c, hc, rfl⟩ := List.mem_map.mp hr
    exact h12 c hc
  have hheight : (x.map Card.up).map Card.height = (x.map Card.height).map (· + 1) := by
    rw [List.map_map, List.map_map]
    rfl
  have hsuit : Suited (x.map Card.up) ↔ Suited x := by
    rw [Suited, Suited]
    simp only [List.forall_mem_map, Card.up]
  rw [standing, standing, hheight, straightHigh_succ hrs, deciding_succ hrs, kindClass_succ hrs]
  simp only [hsuit]
  cases straightHigh (x.map Card.height) with
  | none => rfl
  | some high => rfl

theorem ranking_succ {h : List Card} (h12 : ∀ c ∈ h, c.height < 12) {k : Nat ×ₗ List Nat} (hk : ranking h = k) :
    ranking (h.map Card.up) = shiftUp k := by
  obtain ⟨⟨x, hx, hlen, hstanding⟩, hle⟩ := ranking_eq_coe.mp hk
  rw [ranking_eq_coe]
  constructor
  · refine ⟨x.map Card.up, hx.map Card.up, by rw [List.length_map, hlen], ?_⟩
    rw [standing_succ fun c hc => h12 c (hx.subset hc), hstanding]
  · intro y hy hylen
    obtain ⟨x, hx, rfl⟩ := List.sublist_map_iff.mp hy
    rw [List.length_map] at hylen
    rw [standing_succ fun c hc => h12 c (hx.subset hc)]
    exact shiftUp_strictMono.monotone (hle x hx hylen)

/-- Hands without aces compare the same when every rank is one higher. -/
theorem cmp_ranking_up {h h' : List Card} (h12 : ∀ c ∈ h, c.height < 12) (h12' : ∀ c ∈ h', c.height < 12)
    (hlen : 5 ≤ h.length) (hlen' : 5 ≤ h'.length) :
    cmp (ranking (h.map Card.up)) (ranking (h'.map Card.up)) = cmp (ranking h) (ranking h') := by
  obtain ⟨k, hk⟩ := exists_ranking hlen
  obtain ⟨k', hk'⟩ := exists_ranking hlen'
  rw [ranking_succ h12 hk, ranking_succ h12' hk', hk, hk', cmp_coe, cmp_coe, shiftUp_strictMono.cmp_map_eq]

end Shift

end SuperNet.Games.Holdem
