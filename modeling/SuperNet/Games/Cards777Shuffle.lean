import SuperNet.Lib.Runs
import SuperNet.Lib.SwapRemove

/-! The arrays of `cards777_shuffle`, which have room for a deck of 52 cards. -/
namespace SuperNet.Games

def CARDS777_MAXCARDS : Nat := 52
def CARDS777_MAXPLAYERS : Nat := 9

end SuperNet.Games

namespace SuperNet.Games.Cards777Shuffle
open SuperNet.Lib.Runs SuperNet.Lib.SwapRemove

/-- A store to an entry of an array, none outside of it. -/
def store {α : Type} (a : List α) (i : Nat) (v : α) : Option (List α) := if i < a.length then some (a.set i v) else none

def load {α : Type} (a : List α) (i : Int) : Option α := if i < 0 then none else a[i.toNat]?

/-- The two arrays, and the number of random bytes drawn. -/
structure Draws where
  permi : List Int
  desti : List Int
  used : Nat

/-- The first loop. -/
def fillDesti (numcards : Nat) : Option (List Int) :=
  rounds (fun desti i => desti.bind fun desti => store desti i (i : Int)) (some (List.replicate CARDS777_MAXCARDS 0)) numcards

def draw (x : Nat → UInt8) (numcards i : Nat) (s : Draws) : Option Draws := do
  let pos := (x s.used).toNat % (numcards - 1 - i + 1)
  let card ← load s.desti pos
  let permi ← store s.permi i card
  let last ← load s.desti (numcards - 1 - i : Nat)
  let desti ← store s.desti pos last
  let desti ← store desti (numcards - 1 - i) (-1)
  some ⟨permi, desti, s.used + 1⟩

/-- The first `n` rounds of the second loop. -/
def draws (x : Nat → UInt8) (numcards : Nat) (s : Option Draws) (n : Nat) : Option Draws :=
  rounds (fun s i => s.bind fun s => draw x numcards i s) s n

/-- The third loop. -/
def copyCards {F : Type} (permi : List Int) (cards : List F) (numcards N : Nat) : Option (List F) :=
  rounds (fun shuffled i =>
    rounds (fun shuffled j => shuffled.bind fun out =>
      (load permi (i : Nat)).bind fun card => (load cards (card * N + j)).map fun c => out ++ [c])
    shuffled N) (some []) numcards

/-- What the arrays hold before the second loop; `permi` holds what was there. -/
def start (junk : Fin CARDS777_MAXCARDS → Int) (numcards : Nat) : Option Draws :=
  (fillDesti numcards).map fun desti => ⟨List.ofFn junk, desti, 0⟩

/-- `cards777_shuffle` with the random bytes in turn: the cards shuffled and the number of bytes drawn. -/
def cards777Shuffle {F : Type} (x : Nat → UInt8) (junk : Fin CARDS777_MAXCARDS → Int) (cards : List F) (numcards N : Nat) :
    Option (List F × Nat) := do
  let s ← draws x numcards (start junk numcards) numcards
  let shuffled ← copyCards s.permi cards numcards N
  some (shuffled, s.used)

/-- The cards in another order, of which each has `N` entries. -/
def arrange {F : Type} (cards : List F) (N : Nat) (order : List Nat) : List F :=
  order.flatMap fun card => (cards.drop (card * N)).take N

/-- The card that comes to place `row`. -/
def shuffledRow (x : Nat → UInt8) (junk : Fin CARDS777_MAXCARDS → Int) (numcards row : Nat) : Nat :=
  (((draws x numcards (start junk numcards) numcards).bind fun s => load s.permi row).getD 0).toNat

/-- Every card comes once, a byte is drawn for each, and it picks one of the cards that remain. -/
structure Shuffles {F : Type} (x : Nat → UInt8) (junk : Fin CARDS777_MAXCARDS → Int) (cards : List F) (numcards N : Nat) :
    Prop where
  arranged : ∃ order : List Nat, order.Perm (List.range numcards) ∧
    cards777Shuffle x junk cards numcards N = some (arrange cards N order, numcards)
  remaining : ∀ i < numcards, ∃ s, draws x numcards (start junk numcards) i = some s ∧ s.used = i ∧
    (x i).toNat % (numcards - 1 - i + 1) < numcards - i ∧
    ∃ card < numcards, s.desti[(x i).toNat % (numcards - 1 - i + 1)]? = some (card : Int) ∧ (card : Int) ∉ s.permi.take i

/-- After `k` rounds: the cards in the order in which they were taken, and those that remain. -/
structure Taken (numcards k : Nat) (order rest : List Nat) (s : Draws) : Prop where
  cards : (order ++ rest).Perm (List.range numcards)
  orderLength : order.length = k
  restLength : rest.length = numcards - k
  permi : s.permi.take k = order.map Nat.cast
  desti : s.desti.take (numcards - k) = rest.map Nat.cast
  permiLength : s.permi.length = CARDS777_MAXCARDS
  destiLength : s.desti.length = CARDS777_MAXCARDS
  used : s.used = k

section Arrays
variable {α : Type} {a : List α} {i : Nat} {v : α}

theorem store_some (h : i < a.length) : store a i v = some (a.set i v) := if_pos h

theorem load_some (h : a[i]? = some v) : load a (i : Int) = some v := by
  rw [load, if_neg (by omega), Int.toNat_natCast]
  exact h

end Arrays

section Loops
variable {x : Nat → UInt8} {junk : Fin CARDS777_MAXCARDS → Int} {numcards : Nat}

theorem fillDesti_some (h : numcards ≤ CARDS777_MAXCARDS) : ∃ desti, fillDesti numcards = some desti ∧
    desti.take numcards = (List.range numcards).map Nat.cast ∧ desti.length = CARDS777_MAXCARDS := by
  rw [fillDesti]
  refine rounds_induct (motive := fun k s => ∃ desti : List Int, s = some desti ∧
    desti.take k = (List.range k).map (Nat.cast : Nat → Int) ∧ desti.length = CARDS777_MAXCARDS) numcards ?_ ?_
  · exact ⟨_, rfl, rfl, List.length_replicate⟩
  · rintro k hk ⟨desti, hs, htake, hlen⟩
    have hk' : k < desti.length := by omega
    refine ⟨desti.set k k, ?_, ?_, by rw [List.length_set, hlen]⟩
    · rw [hs, Option.bind_some, store_some hk']
    · have hlast : (desti.set k (k : Int))[k]? = some (k : Int) := List.getElem?_set_self hk'
      rw [List.take_add_one, hlast, List.take_set_of_le (le_refl k), htake, List.range_succ, List.map_append]
      rfl

theorem start_taken (junk : Fin CARDS777_MAXCARDS → Int) (h : numcards ≤ CARDS777_MAXCARDS) :
    ∃ s, start junk numcards = some s ∧ Taken numcards 0 [] (List.range numcards) s := by
  obtain ⟨desti, hfill, htake, hlen⟩ := fillDesti_some h
  refine ⟨_, by rw [start, hfill, Option.map_some], ?_⟩
  exact ⟨List.Perm.refl _, rfl, List.length_range, rfl, htake, List.length_ofFn, hlen, rfl⟩

theorem fillDesti_none (h : CARDS777_MAXCARDS < numcards) : fillDesti numcards = none := by
  obtain ⟨more, rfl⟩ := Nat.exists_eq_add_of_le (Nat.succ_le_of_lt h)
  induction more with
  | zero =>
    obtain ⟨desti, hfill, -, hlen⟩ := fillDesti_some (le_refl CARDS777_MAXCARDS)
    rw [fillDesti] at hfill
    rw [fillDesti, Nat.add_zero, rounds_succ, hfill, Option.bind_some, store, hlen,
      if_neg (Nat.lt_irrefl _)]
  | succ more ih =>
    have hfill := ih (Nat.lt_of_lt_of_le (Nat.lt_succ_self _) (Nat.le_add_right _ _))
    rw [fillDesti] at hfill
    rw [fillDesti, ← Nat.add_assoc, rounds_succ, hfill, Option.bind_none]

theorem draws_none (k : Nat) : draws x numcards none k = none := by
  induction k with
  | zero => rfl
  | succ k ih =>
    rw [draws] at ih
    rw [draws, rounds_succ, ih, Option.bind_none]

theorem Taken.draw {k : Nat} {order rest : List Nat} {s : Draws} (h : Taken numcards k order rest s) (hk : k < numcards)
    (hn : numcards ≤ CARDS777_MAXCARDS) : ∃ card s', rest[(x k).toNat % (numcards - 1 - k + 1)]? = some card ∧
      Cards777Shuffle.draw x numcards k s = some s' ∧
      Taken numcards (k + 1) (order ++ [card]) (swapRemove rest ((x k).toNat % (numcards - 1 - k + 1))) s' := by
  have hpos : (x k).toNat % (numcards - 1 - k + 1) < numcards - 1 - k + 1 := Nat.mod_lt _ (Nat.succ_pos _)
  have hx : (x s.used).toNat % (numcards - 1 - k + 1) = (x k).toNat % (numcards - 1 - k + 1) := by rw [h.used]
  generalize (x k).toNat % (numcards - 1 - k + 1) = pos at hpos hx ⊢
  have hrest := h.restLength
  have hlen := h.destiLength
  have hdesti : ∀ j < numcards - k, s.desti[j]? = rest[j]?.map Nat.cast := by
    intro j hj
    rw [← List.getElem?_map, ← h.desti, List.getElem?_take, if_pos hj]
  obtain ⟨card, hcard⟩ : ∃ card, rest[pos]? = some card := ⟨_, List.getElem?_eq_getElem (by omega)⟩
  obtain ⟨last, hlast⟩ : ∃ last, rest[numcards - 1 - k]? = some last := ⟨_, List.getElem?_eq_getElem (by omega)⟩
  have hgetLast : rest.getLast? = some last := by
    rw [List.getLast?_eq_getElem?, hrest, Nat.sub_right_comm, hlast]
  have hswap : swapRemove rest pos = (rest.set pos last).take (numcards - (k + 1)) := by
    rw [swapRemove, hgetLast]
    dsimp only
    rw [List.dropLast_eq_take, List.length_set, hrest, Nat.sub_sub]
  refine ⟨card, ⟨s.permi.set k card, (s.desti.set pos last).set (numcards - 1 - k) (-1), s.used + 1⟩, hcard, ?_, ?_⟩
  · have hloadCard : load s.desti (pos : Int) = some (card : Int) := by
      apply load_some
      rw [hdesti pos (by omega), hcard, Option.map_some]
    have hloadLast : load s.desti (numcards - 1 - k : Nat) = some (last : Int) := by
      apply load_some
      rw [hdesti _ (by omega), hlast, Option.map_some]
    have hpermi : store s.permi k (card : Int) = some (s.permi.set k card) := by
      apply store_some
      rw [h.permiLength]
      omega
    have hset : store s.desti pos (last : Int) = some (s.desti.set pos last) := store_some (by omega)
    have hclear : store (s.desti.set pos (last : Int)) (numcards - 1 - k) (-1) =
        some ((s.desti.set pos last).set (numcards - 1 - k) (-1)) := by
      apply store_some
      rw [List.length_set]
      omega
    simp only [Cards777Shuffle.draw, hx, hloadCard, hpermi, hloadLast, hset, hclear, Option.bind_eq_bind, Option.bind_some]
  · refine ⟨?_, ?_, ?_, ?_, ?_, ?_, ?_, congrArg Nat.succ h.used⟩
    · rw [List.append_assoc, List.singleton_append]
      exact ((swapRemove_perm hcard).append_left order).trans h.cards
    · rw [List.length_append, h.orderLength, List.length_singleton]
    · rw [hswap, List.length_take, List.length_set]
      omega
    · have hentry : (s.permi.set k (card : Int))[k]? = some (card : Int) := by
        rw [List.getElem?_set_self]
        rw [h.permiLength]
        omega
      rw [List.take_add_one, hentry, List.take_set_of_le (le_refl k), h.permi, List.map_append]
      rfl
    · have hbefore : numcards - (k + 1) ≤ numcards - 1 - k := by omega
      have htake : s.desti.take (numcards - (k + 1)) = (rest.map Nat.cast).take (numcards - (k + 1)) := by
        rw [← h.desti, List.take_take, Nat.min_eq_left (by omega)]
      rw [hswap, List.take_set_of_le hbefore, List.map_take, List.map_set, List.take_set, List.take_set, htake]
    · rw [List.length_set, h.permiLength]
    · rw [List.length_set, List.length_set, hlen]

theorem draws_taken (x : Nat → UInt8) (junk : Fin CARDS777_MAXCARDS → Int) (h : numcards ≤ CARDS777_MAXCARDS) {k : Nat}
    (hk : k ≤ numcards) : ∃ order rest s, draws x numcards (start junk numcards) k = some s ∧ Taken numcards k order rest s := by
  induction k with
  | zero =>
    obtain ⟨s, hs, htaken⟩ := start_taken junk h
    exact ⟨[], List.range numcards, s, hs, htaken⟩
  | succ k ih =>
    obtain ⟨order, rest, s, hs, htaken⟩ := ih (Nat.le_of_succ_le hk)
    obtain ⟨card, s', -, hdraw, htaken'⟩ := htaken.draw (x := x) hk h
    refine ⟨_, _, s', ?_, htaken'⟩
    rw [draws] at hs
    rw [draws, rounds_succ, hs, Option.bind_some, hdraw]

end Loops

section Copy
variable {F : Type} {cards : List F} {permi : List Int} {N numcards : Nat}

theorem copyCard {card i : Nat} {out : List F} (hpermi : permi[i]? = some (card : Int)) (hcards : card * N + N ≤ cards.length)
    {n : Nat} (hn : n ≤ N) : rounds (fun shuffled j => shuffled.bind fun out =>
      (load permi (i : Nat)).bind fun card => (load cards (card * N + j)).map fun c => out ++ [c]) (some out) n =
      some (out ++ (cards.drop (card * N)).take n) := by
  induction n with
  | zero => rw [rounds_zero, List.take_zero, List.append_nil]
  | succ n ih =>
    obtain ⟨c, hc⟩ : ∃ c, cards[card * N + n]? = some c := ⟨_, List.getElem?_eq_getElem (by omega)⟩
    have hload : load cards ((card : Int) * N + n) = some c := by
      have hcast : ((card : Int) * N + n) = ((card * N + n : Nat) : Int) := by push_cast; rfl
      rw [hcast]
      exact load_some hc
    rw [rounds_succ, ih (Nat.le_of_succ_le hn), Option.bind_some, load_some hpermi, Option.bind_some, hload, Option.map_some,
      List.take_add_one, List.getElem?_drop, hc, List.append_assoc]
    rfl

theorem copyCards_eq {order : List Nat} (hpermi : permi.take numcards = order.map Nat.cast) (hlen : order.length = numcards)
    (horder : ∀ card ∈ order, card * N + N ≤ cards.length) :
    copyCards permi cards numcards N = some (arrange cards N order) := by
  have hrounds : ∀ k ≤ numcards, copyCards permi cards k N = some (arrange cards N (order.take k)) := by
    intro k hk
    induction k with
    | zero => rfl
    | succ k ih =>
      have hk' : k < order.length := by omega
      have hentry : permi[k]? = some ((order[k] : Nat) : Int) := by
        have htake : (permi.take numcards)[k]? = (order.map (Nat.cast : Nat → Int))[k]? := by rw [hpermi]
        rw [List.getElem?_take, if_pos (by omega), List.getElem?_map, List.getElem?_eq_getElem hk', Option.map_some] at htake
        exact htake
      have hcopied := ih (Nat.le_of_succ_le hk)
      rw [copyCards] at hcopied
      rw [copyCards, rounds_succ, hcopied, copyCard hentry (horder _ (List.getElem_mem hk')) (le_refl N), List.take_add_one,
        List.getElem?_eq_getElem hk', arrange, arrange, List.flatMap_append, Option.toList_some, List.flatMap_singleton]
  rw [hrounds numcards (le_refl _), List.take_of_length_le hlen.le]

end Copy

section Rows
variable {F : Type} {cards : List F} {N : Nat}

theorem arrange_getElem? {order : List Nat} (horder : ∀ card ∈ order, card * N + N ≤ cards.length) {row col card : Nat}
    (hrow : order[row]? = some card) (hcol : col < N) : (arrange cards N order)[row * N + col]? = cards[card * N + col]? := by
  induction order generalizing row with
  | nil => cases hrow
  | cons first order ih =>
    have hfirst := horder first List.mem_cons_self
    have hlen : ((cards.drop (first * N)).take N).length = N := by
      rw [List.length_take, List.length_drop]
      omega
    rw [arrange, List.flatMap_cons]
    cases row with
    | zero =>
      cases hrow
      rw [Nat.zero_mul, Nat.zero_add, List.getElem?_append_left (by omega), List.getElem?_take, if_pos hcol, List.getElem?_drop]
    | succ row =>
      have hindex : (row + 1) * N + col - N = row * N + col := by
        rw [Nat.succ_mul]
        omega
      have hpast : N ≤ (row + 1) * N + col := by
        rw [Nat.succ_mul]
        omega
      rw [List.getElem?_append_right (by omega), hlen, hindex]
      exact ih (fun card hcard => horder card (List.mem_cons_of_mem _ hcard)) hrow

/-- A deck that fits the arrays comes out in the order of its rows. -/
theorem cards777Shuffle_rows (x : Nat → UInt8) (junk : Fin CARDS777_MAXCARDS → Int) {numcards : Nat}
    (h : numcards ≤ CARDS777_MAXCARDS) (hcards : cards.length = numcards * N) :
    ∃ order : List Nat, order.Perm (List.range numcards) ∧ (∀ row < numcards, order[row]? = some (shuffledRow x junk numcards row)) ∧
      cards777Shuffle x junk cards numcards N = some (arrange cards N order, numcards) := by
  obtain ⟨order, rest, s, hs, htaken⟩ := draws_taken x junk h (le_refl numcards)
  have hnil : rest = [] := List.eq_nil_of_length_eq_zero (htaken.restLength.trans (Nat.sub_self _))
  have hperm := htaken.cards
  rw [hnil, List.append_nil] at hperm
  have horder : ∀ card ∈ order, card * N + N ≤ cards.length := by
    intro card hcard
    have hlt := List.mem_range.mp (hperm.mem_iff.mp hcard)
    rw [hcards, ← Nat.succ_mul]
    exact Nat.mul_le_mul_right N hlt
  refine ⟨order, hperm, fun row hrow => ?_, ?_⟩
  · have hlt : row < order.length := by rwa [htaken.orderLength]
    have hentry : s.permi[row]? = some ((order[row] : Nat) : Int) := by
      have htake : (s.permi.take numcards)[row]? = (order.map (Nat.cast : Nat → Int))[row]? := by rw [htaken.permi]
      rw [List.getElem?_take, if_pos hrow, List.getElem?_map, List.getElem?_eq_getElem hlt, Option.map_some] at htake
      exact htake
    rw [shuffledRow, hs, Option.bind_some, load_some hentry, Option.getD_some, Int.toNat_natCast, List.getElem?_eq_getElem hlt]
  · simp only [cards777Shuffle, hs, copyCards_eq htaken.permi htaken.orderLength horder, htaken.used, Option.bind_eq_bind,
      Option.bind_some]

end Rows

section Shuffle
variable {F : Type} {x : Nat → UInt8} {junk : Fin CARDS777_MAXCARDS → Int} {cards : List F} {numcards N : Nat}

/-- A deck that fits the arrays is shuffled. -/
theorem shuffles (h : numcards ≤ CARDS777_MAXCARDS) (hcards : cards.length = numcards * N) :
    Shuffles x junk cards numcards N where
  arranged := by
    obtain ⟨order, hperm, -, hshuffle⟩ := cards777Shuffle_rows x junk h hcards
    exact ⟨order, hperm, hshuffle⟩
  remaining := by
    intro i hi
    obtain ⟨order, rest, s, hs, htaken⟩ := draws_taken x junk h hi.le
    obtain ⟨card, s', hcard, -⟩ := htaken.draw (x := x) hi h
    have hpos : (x i).toNat % (numcards - 1 - i + 1) < numcards - 1 - i + 1 := Nat.mod_lt _ (Nat.succ_pos _)
    have hmem : card ∈ rest := List.mem_of_getElem? hcard
    have hnodup := htaken.cards.nodup_iff.mpr List.nodup_range
    refine ⟨s, hs, htaken.used, by omega, card, ?_, ?_, ?_⟩
    · exact List.mem_range.mp (htaken.cards.mem_iff.mp (List.mem_append_right order hmem))
    · rw [← Option.map_some (f := (Nat.cast : Nat → Int)), ← hcard, ← List.getElem?_map, ← htaken.desti, List.getElem?_take,
        if_pos (by omega)]
    · rw [htaken.permi]
      intro hin
      obtain ⟨card', hcard', heq⟩ := List.mem_map.mp hin
      rw [Nat.cast_inj.mp heq] at hcard'
      exact (List.nodup_append.mp hnodup).2.2 card hcard' card hmem rfl

/-- The decks that fit the arrays are those that are shuffled. -/
theorem shuffles_iff (hcards : cards.length = numcards * N) :
    Shuffles x junk cards numcards N ↔ numcards ≤ CARDS777_MAXCARDS := by
  constructor
  · intro hshuffles
    by_contra hlt
    obtain ⟨order, -, hshuffle⟩ := hshuffles.arranged
    rw [cards777Shuffle, start, fillDesti_none (Nat.lt_of_not_le hlt), Option.map_none, draws_none] at hshuffle
    cases hshuffle
  · exact fun h => shuffles h hcards

theorem shuffles_iff_three : Shuffles (fun i => UInt8.ofNat (7 * i)) (fun _ => 0) ['a', 'b', 'c', 'd', 'e', 'f'] 3 2 ↔
    3 ≤ CARDS777_MAXCARDS :=
  shuffles_iff (by decide)

end Shuffle

theorem no_room : ¬ ∀ numcards : Nat, Shuffles (fun _ => 0) (fun _ => 0) (List.replicate numcards ()) numcards 1 := by
  intro h
  obtain ⟨order, -, hshuffle⟩ := (h 53).arranged
  have hnone : fillDesti 53 = none := fillDesti_none (by decide)
  rw [cards777Shuffle, start, hnone, Option.map_none, draws_none] at hshuffle
  cases hshuffle

end SuperNet.Games.Cards777Shuffle
