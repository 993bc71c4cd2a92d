import Mathlib.Tactic
import SuperNet.Games.Cards777Shuffle

/-! Seats for the players of a tournament who wait for a table, as tourney777.c gives them. -/
namespace SuperNet.Games.Tourney777
open SuperNet.Lib.Runs

def TOURNEY777_TABLESIZE : Nat := 9

/-- The client of a player: the table, 0 without one, and the balance. -/
structure Client where
  tableid : Nat
  balance : Int

/-- `struct tourney777_table`, with the count of its players that it keeps. -/
structure Table where
  tableid : Nat
  numactive : Int

/-- `struct tourney777`: the tables that `numtables` counts, and the players registered. -/
structure Tourney where
  tables : List Table
  players : List Client

/-- A funded player without a table. -/
def Client.waits (player : Client) : Bool := player.tableid = 0 ∧ player.balance ≠ 0

def jointable (table : Table) (player : Client) : Client := { player with tableid := table.tableid }

def findLoop (tableid : Nat) (avoid : Option Nat) : List Table → Nat → Option Table → Int → Option Table
  | [], _, mintable, _ => mintable
  | t :: tables, i, mintable, minplayers =>
    if tableid = 0 then
      if avoid ≠ some i ∧ t.numactive ≠ TOURNEY777_TABLESIZE ∧ t.numactive < minplayers then
        findLoop tableid avoid tables (i + 1) (some t) t.numactive
      else findLoop tableid avoid tables (i + 1) mintable minplayers
    else if t.tableid = tableid then some t
    else findLoop tableid avoid tables (i + 1) mintable minplayers

def findtable (tables : List Table) (tableid : Nat) (avoid : Option Nat) : Option Table :=
  findLoop tableid avoid tables 0 none (CARDS777_MAXPLAYERS + 1)

/-- The first loop of `tourney777_rebalance`: the players, and `needs_table`. -/
def joinLoop (tables : List Table) : List Client → List Client × Nat
  | [] => ([], 0)
  | player :: players =>
    let (rest, needs) := joinLoop tables players
    if player.waits then
      match findtable tables 0 none with
      | some table => (jointable table player :: rest, needs)
      | none => (player :: rest, needs + 1)
    else (player :: rest, needs)

/-- The loop that fills `newtable`, of `n` players so far. `tourney777_createtable` then gives each of them
the table. -/
def createLoop (tableid pertable : Nat) : List Client → Nat → List Client
  | [], _ => []
  | player :: players, n =>
    if player.waits then
      if n + 1 ≥ pertable then { player with tableid := tableid } :: players
      else { player with tableid := tableid } :: createLoop tableid pertable players (n + 1)
    else player :: createLoop tableid pertable players n

def numNew (needs : Nat) : Nat :=
  needs / TOURNEY777_TABLESIZE + if needs % TOURNEY777_TABLESIZE ≠ 0 then 1 else 0

def perTable (needs : Nat) : Nat := needs / numNew needs

/-- `tourney777_rebalance` for a `delta` above 0, with the values of `rand` in turn. -/
def rebalance (rand : Nat → Nat) (tp : Tourney) : Tourney :=
  let (players, needs) := joinLoop tp.tables tp.players
  if needs ≥ TOURNEY777_TABLESIZE then
    { tp with players := rounds (fun players j => createLoop (rand j) (perTable needs) players 0) players (numNew needs) }
  else { tp with players := players }

/-- The funded players who could not join a table. -/
def needsTable (tp : Tourney) : Nat := (joinLoop tp.tables tp.players).2

def seated (x : Nat) (players : List Client) : Nat := players.countP fun player => player.tableid = x

def waiting (players : List Client) : Nat := players.countP Client.waits

/-- Every funded player has a table, and no table has got players beyond the number that it takes, neither by
its players nor by its own count. -/
structure Seats (tp tp' : Tourney) : Prop where
  placed : ∀ player ∈ tp'.players, player.balance ≠ 0 → player.tableid ≠ 0
  size : ∀ x ≠ 0, seated x tp.players < seated x tp'.players → seated x tp'.players ≤ TOURNEY777_TABLESIZE
  full : ∀ t ∈ tp.tables, t.tableid ≠ 0 → seated t.tableid tp.players < seated t.tableid tp'.players →
    t.numactive + (seated t.tableid tp'.players - seated t.tableid tp.players) ≤ TOURNEY777_TABLESIZE

/-- The waiting players fill the new tables evenly, and the numbers drawn are those of new tables, each drawn once,
at which there is room. -/
structure Fits (rand : Nat → Nat) (tp : Tourney) : Prop where
  even : numNew (needsTable tp) ∣ needsTable tp
  nonzero : ∀ j < numNew (needsTable tp), rand j ≠ 0
  once : ∀ j < numNew (needsTable tp), ∀ k < j, rand k ≠ rand j
  new : ∀ j < numNew (needsTable tp), ∀ t ∈ tp.tables, t.tableid ≠ rand j
  room : ∀ j < numNew (needsTable tp), seated (rand j) tp.players + perTable (needsTable tp) ≤ TOURNEY777_TABLESIZE

section Create
variable {tableid pertable : Nat} {players : List Client}

theorem waiting_cons (player : Client) (players : List Client) :
    waiting (player :: players) = waiting players + if player.waits then 1 else 0 := List.countP_cons

theorem seated_cons (x : Nat) (player : Client) (players : List Client) :
    seated x (player :: players) = seated x players + if player.tableid = x then 1 else 0 := by
  rw [seated, List.countP_cons, ← seated]
  simp only [decide_eq_true_eq]

theorem waits_iff {player : Client} : player.waits = true ↔ player.tableid = 0 ∧ player.balance ≠ 0 := by
  rw [Client.waits, decide_eq_true_eq]

theorem waits_seated {player : Client} (h : tableid ≠ 0) : ({ player with tableid := tableid } : Client).waits = false := by
  rw [Client.waits]
  simp [h]

/-- A new table takes as many of the waiting players as fit. -/
theorem createLoop_waiting (h : tableid ≠ 0) (players : List Client) {n : Nat} (hn : n < pertable) :
    waiting (createLoop tableid pertable players n) = waiting players - (pertable - n) := by
  induction players generalizing n with
  | nil => simp [createLoop, waiting]
  | cons player players ih =>
    rw [createLoop]
    cases hwaits : player.waits with
    | false => rw [if_neg Bool.false_ne_true, waiting_cons, waiting_cons, hwaits, ih hn, if_neg Bool.false_ne_true]; rfl
    | true =>
      rw [if_pos rfl]
      split
      · rw [waiting_cons, waiting_cons, waits_seated h, hwaits, if_neg Bool.false_ne_true, if_pos rfl]
        omega
      · rw [waiting_cons, waiting_cons, waits_seated h, hwaits, if_neg Bool.false_ne_true, if_pos rfl, ih (by omega)]
        omega

theorem createLoop_seated (players : List Client) {x : Nat} (hx : x ≠ 0) {n : Nat} (hn : n < pertable) :
    seated x (createLoop tableid pertable players n) =
      seated x players + if tableid = x then min (pertable - n) (waiting players) else 0 := by
  induction players generalizing n with
  | nil => simp [createLoop, waiting, seated]
  | cons player players ih =>
    rw [createLoop]
    cases hwaits : player.waits with
    | false =>
      rw [if_neg Bool.false_ne_true, seated_cons, seated_cons, waiting_cons, hwaits, ih hn, if_neg Bool.false_ne_true,
        Nat.add_zero, Nat.add_right_comm]
    | true =>
      have hold : player.tableid ≠ x := fun heq => hx (heq.symm.trans (waits_iff.mp hwaits).1)
      rw [if_pos rfl]
      split
      · rw [seated_cons, seated_cons, waiting_cons, hwaits, if_neg hold, if_pos rfl, Nat.add_zero]
        by_cases heq : tableid = x
        · rw [if_pos heq, if_pos heq]
          omega
        · rw [if_neg heq, if_neg heq]
      · rw [seated_cons, seated_cons, waiting_cons, hwaits, if_neg hold, if_pos rfl, Nat.add_zero, ih (by omega)]
        by_cases heq : tableid = x
        · rw [if_pos heq, if_pos heq, if_pos heq]
          omega
        · rw [if_neg heq, if_neg heq, if_neg heq]

theorem createLoop_zero (players : List Client) (n : Nat) : createLoop 0 pertable players n = players := by
  induction players generalizing n with
  | nil => rfl
  | cons player players ih =>
    have hsame : player.waits = true → ({ player with tableid := 0 } : Client) = player := by
      intro hwaits
      rw [← (waits_iff.mp hwaits).1]
    rw [createLoop, ih, ih]
    split
    case isTrue hwaits => rw [hsame hwaits, ite_self]
    case isFalse => rfl

end Create

section Draws
variable {rand : Nat → Nat} {x n : Nat}

/-- How often a number is drawn for the first `n` tables. -/
def drawn (rand : Nat → Nat) (x n : Nat) : Nat := (List.range n).countP fun k => rand k = x

theorem drawn_succ (rand : Nat → Nat) (x n : Nat) : drawn rand x (n + 1) = drawn rand x n + if rand n = x then 1 else 0 := by
  rw [drawn, List.range_succ, List.countP_append, ← drawn, List.countP_singleton]
  simp only [decide_eq_true_eq]

theorem drawn_pos : 0 < drawn rand x n ↔ ∃ k < n, rand k = x := by
  rw [drawn, List.countP_pos_iff]
  simp only [List.mem_range, decide_eq_true_eq]

theorem drawn_mono {m : Nat} (h : m ≤ n) : drawn rand x m ≤ drawn rand x n :=
  (List.range_sublist.mpr h).countP_le

theorem drawn_le (rand : Nat → Nat) (x n : Nat) : drawn rand x n ≤ n := by
  have hle := List.countP_le_length (p := fun k => decide (rand k = x)) (l := List.range n)
  rw [List.length_range] at hle
  exact hle

/-- Numbers drawn once each. -/
theorem drawn_le_one (h : ∀ j < n, ∀ k < j, rand k ≠ rand j) (x : Nat) : drawn rand x n ≤ 1 := by
  induction n with
  | zero => exact Nat.zero_le 1
  | succ n ih =>
    rw [drawn_succ]
    split
    case isTrue heq =>
      have hnone : ¬ 0 < drawn rand x n := by
        rw [drawn_pos]
        rintro ⟨k, hk, hx⟩
        exact h n (Nat.lt_succ_self n) k hk (hx.trans heq.symm)
      omega
    case isFalse => exact ih fun j hj => h j (Nat.lt_succ_of_lt hj)

/-- The new tables take their players from those who wait. -/
theorem rounds_createLoop {pertable : Nat} (hper : 0 < pertable) (players : List Client)
    (hn : pertable * n ≤ waiting players) :
    let players' := rounds (fun players j => createLoop (rand j) pertable players 0) players n
    waiting players' + pertable * (n - drawn rand 0 n) = waiting players ∧
      ∀ x ≠ 0, seated x players' = seated x players + pertable * drawn rand x n := by
  induction n with
  | zero => exact ⟨rfl, fun _ _ => rfl⟩
  | succ n ih =>
    rw [Nat.mul_succ] at hn
    obtain ⟨hwaiting, hseated⟩ := ih (by omega)
    dsimp only at hwaiting hseated ⊢
    rw [rounds_succ]
    generalize rounds (fun players j => createLoop (rand j) pertable players 0) players n = players' at hwaiting hseated ⊢
    have hle := drawn_le rand 0 n
    have hfew : pertable * (n - drawn rand 0 n) ≤ pertable * n := Nat.mul_le_mul_left _ (Nat.sub_le _ _)
    constructor
    · rw [drawn_succ]
      by_cases hzero : rand n = 0
      · rw [if_pos hzero, hzero, createLoop_zero, Nat.add_sub_add_right]
        exact hwaiting
      · have hsucc : n + 1 - (drawn rand 0 n + 0) = n - drawn rand 0 n + 1 := by omega
        rw [if_neg hzero, createLoop_waiting hzero players' hper, Nat.sub_zero, hsucc, Nat.mul_succ]
        omega
    · intro x hx
      rw [createLoop_seated players' hx hper, hseated x hx, drawn_succ, Nat.mul_add, Nat.sub_zero]
      split
      · omega
      · rfl

end Draws

section Tables
variable {tables : List Table}

theorem findLoop_none {i : Nat} {best : Option Table} {minplayers : Int} (h : findLoop 0 none tables i best minplayers = none) :
    best = none ∧ ∀ t ∈ tables, t.numactive = TOURNEY777_TABLESIZE ∨ minplayers ≤ t.numactive := by
  induction tables generalizing i best minplayers with
  | nil => exact ⟨h, fun _ ht => absurd ht List.not_mem_nil⟩
  | cons t tables ih =>
    rw [findLoop, if_pos rfl] at h
    split at h
    case isTrue => exact absurd (ih h).1 (Option.some_ne_none t)
    case isFalse hcond =>
      refine ⟨(ih h).1, List.forall_mem_cons.mpr ⟨?_, (ih h).2⟩⟩
      by_contra hnot
      rw [not_or, Int.not_le] at hnot
      exact hcond ⟨Option.some_ne_none i |>.symm, hnot.1, hnot.2⟩

theorem joinLoop_none (h : findtable tables 0 none = none) (players : List Client) :
    joinLoop tables players = (players, waiting players) := by
  induction players with
  | nil => rfl
  | cons player players ih =>
    rw [joinLoop, ih, h, waiting_cons]
    dsimp only
    split <;> rfl

theorem joinLoop_some {table : Table} (h : findtable tables 0 none = some table) (players : List Client) :
    (joinLoop tables players).2 = 0 := by
  induction players with
  | nil => rfl
  | cons player players ih =>
    rw [joinLoop, h]
    dsimp only
    split <;> exact ih

/-- Where somebody has to wait, no table takes players, and all wait who have no table. -/
theorem joinLoop_of_needs {tp : Tourney} (h : 0 < needsTable tp) :
    joinLoop tp.tables tp.players = (tp.players, waiting tp.players) ∧
      ∀ t ∈ tp.tables, (TOURNEY777_TABLESIZE : Int) ≤ t.numactive := by
  cases hfind : findtable tp.tables 0 none with
  | some table =>
    have hzero := joinLoop_some hfind tp.players
    rw [needsTable, hzero] at h
    exact absurd h (Nat.lt_irrefl 0)
  | none =>
    refine ⟨joinLoop_none hfind tp.players, fun t ht => ?_⟩
    have hbest : (TOURNEY777_TABLESIZE : Int) ≤ CARDS777_MAXPLAYERS + 1 := by decide
    rcases (findLoop_none hfind).2 t ht with heq | hle
    · exact heq.ge
    · exact hbest.trans hle

end Tables

/-- Between 5 and 9 players come to a new table. -/
theorem perTable_bounds {needs : Nat} (h : TOURNEY777_TABLESIZE ≤ needs) :
    5 ≤ perTable needs ∧ perTable needs ≤ TOURNEY777_TABLESIZE := by
  have hnum : 0 < numNew needs ∧ 5 * numNew needs ≤ needs ∧ needs ≤ TOURNEY777_TABLESIZE * numNew needs := by
    rw [numNew]
    rw [TOURNEY777_TABLESIZE] at h ⊢
    split <;> omega
  rw [perTable, Nat.le_div_iff_mul_le hnum.1]
  exact ⟨hnum.2.1, Nat.div_le_of_le_mul (by rw [Nat.mul_comm]; exact hnum.2.2)⟩

theorem perTable_mul_le (needs : Nat) : perTable needs * numNew needs ≤ needs := Nat.div_mul_le_self _ _

theorem placed_iff (players : List Client) :
    (∀ player ∈ players, player.balance ≠ 0 → player.tableid ≠ 0) ↔ waiting players = 0 := by
  rw [waiting, List.countP_eq_zero]
  apply forall_congr'
  intro player
  rw [waits_iff]
  tauto

section Rebalance
variable {rand : Nat → Nat} {tp : Tourney}

theorem rebalance_players (rand : Nat → Nat) (h : TOURNEY777_TABLESIZE ≤ needsTable tp) :
    waiting (rebalance rand tp).players +
        perTable (needsTable tp) * (numNew (needsTable tp) - drawn rand 0 (numNew (needsTable tp))) = needsTable tp ∧
      ∀ x ≠ 0, seated x (rebalance rand tp).players =
        seated x tp.players + perTable (needsTable tp) * drawn rand x (numNew (needsTable tp)) := by
  have hneeds : 0 < needsTable tp := Nat.lt_of_lt_of_le (by decide) h
  have hjoin := (joinLoop_of_needs hneeds).1
  have hwait : needsTable tp = waiting tp.players := congrArg Prod.snd hjoin
  have hfive := (perTable_bounds h).1
  have hmul := perTable_mul_le (needsTable tp)
  have hplayers : (rebalance rand tp).players =
      rounds (fun players j => createLoop (rand j) (perTable (needsTable tp)) players 0) tp.players (numNew (needsTable tp)) := by
    rw [rebalance, hjoin]
    dsimp only
    rw [← hwait, if_pos h]
  rw [hplayers]
  generalize perTable (needsTable tp) = per at *
  generalize numNew (needsTable tp) = num at *
  rw [hwait] at hmul ⊢
  exact rounds_createLoop (by omega) tp.players hmul

theorem Seats.fits (h : TOURNEY777_TABLESIZE ≤ needsTable tp) (hseats : Seats tp (rebalance rand tp)) : Fits rand tp := by
  obtain ⟨hwaiting, hseated⟩ := rebalance_players rand h
  obtain ⟨hfive, hnine⟩ := perTable_bounds h
  have hmul := perTable_mul_le (needsTable tp)
  have hdrawn := drawn_le rand 0 (numNew (needsTable tp))
  rw [(placed_iff _).mp hseats.placed, Nat.zero_add] at hwaiting
  -- As nobody waits, every table has taken players.
  have hall : numNew (needsTable tp) - drawn rand 0 (numNew (needsTable tp)) = numNew (needsTable tp) := by
    apply Nat.le_antisymm (Nat.sub_le _ _)
    apply Nat.le_of_mul_le_mul_left (c := perTable (needsTable tp)) _ (by omega)
    rw [hwaiting]
    exact hmul
  have hpos : ∀ j < numNew (needsTable tp), 0 < drawn rand (rand j) (numNew (needsTable tp)) :=
    fun j hj => drawn_pos.mpr ⟨j, hj, rfl⟩
  have hnonzero : ∀ j < numNew (needsTable tp), rand j ≠ 0 := by
    intro j hj hzero
    have hzeros := hpos j hj
    rw [hzero] at hzeros
    omega
  have hmore : ∀ j < numNew (needsTable tp), seated (rand j) tp.players + perTable (needsTable tp) ≤
      seated (rand j) (rebalance rand tp).players := by
    intro j hj
    have hle := Nat.mul_le_mul_left (perTable (needsTable tp)) (hpos j hj)
    rw [Nat.mul_one] at hle
    rw [hseated _ (hnonzero j hj)]
    omega
  refine ⟨?_, hnonzero, ?_, ?_, ?_⟩
  · rw [hall] at hwaiting
    exact Dvd.intro_left _ hwaiting
  · intro j hj k hk heq
    have htwo : 2 ≤ drawn rand (rand j) (numNew (needsTable tp)) := by
      have hfirst : 0 < drawn rand (rand j) j := drawn_pos.mpr ⟨k, hk, heq⟩
      have hmono : drawn rand (rand j) (j + 1) ≤ drawn rand (rand j) (numNew (needsTable tp)) :=
        drawn_mono (Nat.succ_le_of_lt hj)
      rw [drawn_succ, if_pos rfl] at hmono
      omega
    have hsize := hseats.size _ (hnonzero j hj) (by have := hmore j hj; omega)
    have hle := Nat.mul_le_mul_left (perTable (needsTable tp)) htwo
    rw [hseated _ (hnonzero j hj), TOURNEY777_TABLESIZE] at hsize
    omega
  · intro j hj t ht heq
    have hfull := (joinLoop_of_needs (Nat.lt_of_lt_of_le (by decide) h)).2 t ht
    have hgot := hmore j hj
    rw [← heq] at hgot
    have hcount := hseats.full t ht (heq ▸ hnonzero j hj) (by omega)
    omega
  · intro j hj
    have hgot := hmore j hj
    exact hgot.trans (hseats.size _ (hnonzero j hj) (by omega))

theorem Fits.seats (h : TOURNEY777_TABLESIZE ≤ needsTable tp) (hfits : Fits rand tp) : Seats tp (rebalance rand tp) := by
  obtain ⟨hwaiting, hseated⟩ := rebalance_players rand h
  have hgot : ∀ x ≠ 0, seated x tp.players < seated x (rebalance rand tp).players →
      ∃ j < numNew (needsTable tp), rand j = x := by
    intro x hx hlt
    rw [hseated x hx] at hlt
    apply drawn_pos.mp
    exact Nat.pos_of_ne_zero fun hzero => by simp [hzero] at hlt
  refine ⟨?_, ?_, ?_⟩
  · have hnone : drawn rand 0 (numNew (needsTable tp)) = 0 := by
      apply Nat.eq_zero_of_not_pos
      rw [drawn_pos]
      rintro ⟨j, hj, hzero⟩
      exact hfits.nonzero j hj hzero
    have hmul : perTable (needsTable tp) * numNew (needsTable tp) = needsTable tp := Nat.div_mul_cancel hfits.even
    rw [hnone, Nat.sub_zero, hmul] at hwaiting
    rw [placed_iff]
    omega
  · intro x hx hlt
    obtain ⟨j, hj, rfl⟩ := hgot x hx hlt
    have hle := Nat.mul_le_mul_left (perTable (needsTable tp)) (drawn_le_one hfits.once (rand j))
    have hroom := hfits.room j hj
    rw [hseated _ hx]
    omega
  · intro t ht hx hlt
    obtain ⟨j, hj, heq⟩ := hgot _ hx hlt
    exact absurd heq.symm (hfits.new j hj t ht)

/-- The players are seated exactly where those who wait fill the new tables evenly and the numbers of these are
drawn well. -/
theorem seats_iff (h : TOURNEY777_TABLESIZE ≤ needsTable tp) : Seats tp (rebalance rand tp) ↔ Fits rand tp :=
  ⟨Seats.fits h, Fits.seats h⟩

end Rebalance

/-- A number of funded players without a table, and no tables. -/
def newcomers (n : Nat) : Tourney := ⟨[], List.replicate n ⟨0, 1⟩⟩

theorem seats_iff_ten : Seats (newcomers 10) (rebalance Nat.succ (newcomers 10)) ↔ Fits Nat.succ (newcomers 10) :=
  seats_iff (by decide)

/-- Of eleven players two tables of five are made, and one player stays without a table. -/
theorem eleventh_waits : ¬ ∀ (rand : Nat → Nat) (tp : Tourney), TOURNEY777_TABLESIZE ≤ needsTable tp →
    Seats tp (rebalance rand tp) := by
  intro h
  have heven := (Seats.fits (by decide) (h Nat.succ (newcomers 11) (by decide))).even
  exact absurd heven (by decide)

end SuperNet.Games.Tourney777
