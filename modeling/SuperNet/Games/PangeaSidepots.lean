import SuperNet.Games.PangeaPayout

/-! pangea_sidepots on its matrix: the rows it uses, and the pots that it peels off the bets. -/
namespace SuperNet.Games.Pangea.Table
open SuperNet.Lib.Words SuperNet.Lib.Runs

/-- The matrix `sidepots` with the row `n`, and the rows that have been read or written. -/
structure Sidepots where
  n : Nat
  rows : Nat → Nat → Nat
  touched : List Nat

/-- `sidepots[row][j] = value`. -/
def setPot (rows : Nat → Nat → Nat) (row j value : Nat) : Nat → Nat → Nat :=
  Function.update rows row (Function.update (rows row) j value)

/-- The loop that moves what exceeds `minbet` from row `n` into the next. -/
def sidepotsMove (t : Table) (n minbet : Nat) (rows : Nat → Nat → Nat) : Nat → Nat → Nat :=
  rounds (fun rows j =>
    if minbet < rows n j then setPot (setPot rows (n + 1) j (rows n j - minbet)) n j minbet else rows) rows t.N

/-- One pass of the outer loop, with `nonz`. -/
def sidepotsPass (t : Table) (s : Sidepots) : Nat × Sidepots :=
  let minbet := t.sidepotMinbet (s.rows s.n)
  let nonz := t.sidepotNonz (s.rows s.n) minbet
  if 0 < nonz then (nonz, ⟨s.n + 1, t.sidepotsMove s.n minbet s.rows, s.touched ++ [s.n, s.n + 1]⟩)
  else (nonz, ⟨s.n + 1, s.rows, s.touched ++ [s.n]⟩)

/-- The outer loop; `none` is still running. -/
def sidepotsLoop (t : Table) : Nat → Nat → Sidepots → Option Sidepots
  | 0, _, _ => none
  | fuel + 1, nonz, s =>
    if 0 < nonz then
      let (nonz, s) := t.sidepotsPass s
      if t.N ≤ s.n then some s else t.sidepotsLoop fuel nonz s
    else some s

def firstRow (t : Table) (bets : Nat → Int) (j : Nat) : Nat := if j < t.N then u64 (bets j) else 0

def sidepotsMatrix (t : Table) (fuel : Nat) (bets : Nat → Int) : Option Sidepots :=
  t.sidepotsLoop fuel 1 ⟨0, Function.update (fun _ _ => 0) 0 (t.firstRow bets), [0]⟩

/-- The level of a pot: what its live contributors pay, 0 if there are none. -/
def level (t : Table) (s : Sidepots) (k : Nat) : Nat := t.sidepotMinbet (s.rows k)

/-- What is left of the bets after `k` pots. -/
def leftover (t : Table) (bets : Nat → Nat) : Nat → Nat → Nat
  | 0 => bets
  | k + 1 => excess (t.sidepotMinbet (t.leftover bets k)) (t.leftover bets k)

/-- The matrix when `n` pots have been peeled off. -/
private def peeled (t : Table) (bets : Nat → Nat) (n row : Nat) : Nat → Nat :=
  if row < n then capped (t.sidepotMinbet (t.leftover bets row)) (t.leftover bets row)
  else if row = n then t.leftover bets n else fun _ => 0

section loop
variable {t : Table} {bets : Nat → Nat}

private theorem setPot_apply (rows : Nat → Nat → Nat) (row j value r i : Nat) :
    setPot rows row j value r i = if r = row ∧ i = j then value else rows r i := by
  rw [setPot]
  by_cases hr : r = row
  · subst hr
    rw [Function.update_self]
    by_cases hi : i = j
    · rw [hi, Function.update_self, if_pos ⟨rfl, rfl⟩]
    · rw [Function.update_of_ne hi, if_neg fun h => hi h.2]
  · rw [Function.update_of_ne hr, if_neg fun h => hr h.1]

private theorem sidepotsMove_apply (t : Table) (n minbet : Nat) (rows : Nat → Nat → Nat) (r i : Nat) :
    t.sidepotsMove n minbet rows r i =
      if i < t.N ∧ minbet < rows n i then
        if r = n then minbet else if r = n + 1 then rows n i - minbet else rows r i
      else rows r i := by
  refine rounds_induct (motive := fun k (rows' : Nat → Nat → Nat) => ∀ r i, rows' r i =
    if i < k ∧ minbet < rows n i then if r = n then minbet else if r = n + 1 then rows n i - minbet else rows r i
    else rows r i) t.N (fun r i => by simp) ?_ r i
  intro k _ ih r i
  have hown : rounds (fun rows j =>
      if minbet < rows n j then setPot (setPot rows (n + 1) j (rows n j - minbet)) n j minbet else rows)
      rows k n k = rows n k := by
    rw [ih, if_neg (by omega)]
  rw [hown]
  by_cases hmin : minbet < rows n k
  case pos =>
    rw [if_pos hmin, setPot_apply, setPot_apply]
    by_cases hik : i = k
    case pos =>
      subst hik
      rw [if_pos (show i < i + 1 ∧ minbet < rows n i from ⟨Nat.lt_succ_self i, hmin⟩)]
      by_cases hrn : r = n
      · rw [if_pos ⟨hrn, rfl⟩, if_pos hrn]
      · rw [if_neg fun h => hrn h.1, if_neg hrn]
        by_cases hrs : r = n + 1
        · rw [if_pos ⟨hrs, rfl⟩, if_pos hrs]
        · rw [if_neg fun h => hrs h.1, if_neg hrs, ih, if_neg (by omega)]
    case neg =>
      rw [if_neg fun h => hik h.2, if_neg fun h => hik h.2, ih]
      exact if_congr (by omega) rfl rfl
  case neg =>
    rw [if_neg hmin, ih]
    by_cases hik : i = k
    case pos =>
      subst hik
      rw [if_neg (by omega), if_neg fun h => hmin h.2]
    case neg => exact if_congr (by omega) rfl rfl

private theorem sidepotsMove_peeled (hzero : ∀ j, t.N ≤ j → bets j = 0) (n : Nat) :
    t.sidepotsMove n (t.sidepotMinbet (t.leftover bets n)) (peeled t bets n) = peeled t bets (n + 1) := by
  have hbehind : ∀ k j, t.N ≤ j → t.leftover bets k j = 0 := by
    intro k
    induction k with
    | zero => exact hzero
    | succ k ih =>
      intro j hj
      rw [leftover, excess, ih j hj, if_neg (Nat.not_lt_zero _)]
  have hown : peeled t bets n n = t.leftover bets n := by
    rw [peeled, if_neg (Nat.lt_irrefl n), if_pos rfl]
  funext r i
  rw [sidepotsMove_apply, hown]
  rcases Nat.lt_trichotomy r n with hr | rfl | hr
  · -- a pot of an earlier pass
    rw [if_neg (Nat.ne_of_lt hr), if_neg (Nat.ne_of_lt (Nat.lt_succ_of_lt hr)), ite_self, peeled, if_pos hr, peeled,
      if_pos (Nat.lt_succ_of_lt hr)]
  · rw [if_pos rfl, hown, peeled, if_pos (Nat.lt_succ_self r), capped]
    by_cases hmin : t.sidepotMinbet (t.leftover bets r) < t.leftover bets r i
    · rw [if_pos hmin, if_pos ⟨Nat.lt_of_not_le fun hi => by rw [hbehind r i hi] at hmin; omega, hmin⟩]
    · rw [if_neg hmin, if_neg fun h => hmin h.2]
  · rw [if_neg (Nat.ne_of_gt hr), peeled, if_neg (Nat.not_lt_of_lt hr), if_neg (Nat.ne_of_gt hr), peeled,
      if_neg (Nat.not_lt_of_le hr)]
    by_cases hnext : r = n + 1
    · rw [if_pos hnext, if_pos hnext, leftover, excess]
      by_cases hmin : t.sidepotMinbet (t.leftover bets n) < t.leftover bets n i
      · rw [if_pos hmin, if_pos ⟨Nat.lt_of_not_le fun hi => by rw [hbehind n i hi] at hmin; omega, hmin⟩]
      · rw [if_neg hmin, if_neg fun h => hmin h.2]
    · rw [if_neg hnext, if_neg hnext, ite_self]

private theorem peeled_self (n : Nat) : peeled t bets n n = t.leftover bets n := by
  rw [peeled, if_neg (Nat.lt_irrefl n), if_pos rfl]

private theorem sidepotsPass_stop {s : Sidepots} {pot : Nat → Nat} (hpot : s.rows s.n = pot)
    (hnone : t.sidepotNonz pot (t.sidepotMinbet pot) = 0) :
    t.sidepotsPass s = (0, ⟨s.n + 1, s.rows, s.touched ++ [s.n]⟩) := by
  subst hpot
  rw [sidepotsPass, if_neg (Nat.not_lt_of_le hnone.le), hnone]

private theorem sidepotsPass_more {s : Sidepots} {pot : Nat → Nat} (hpot : s.rows s.n = pot)
    (hmore : 0 < t.sidepotNonz pot (t.sidepotMinbet pot)) :
    t.sidepotsPass s = (t.sidepotNonz pot (t.sidepotMinbet pot),
      ⟨s.n + 1, t.sidepotsMove s.n (t.sidepotMinbet pot) s.rows, s.touched ++ [s.n, s.n + 1]⟩) := by
  subst hpot
  rw [sidepotsPass, if_pos hmore]

private theorem sidepotsLoop_stop {k fuel nonz : Nat} (touched : List Nat) (hnonz : 0 < nonz)
    (hnone : t.sidepotNonz (t.leftover bets k) (t.sidepotMinbet (t.leftover bets k)) = 0) :
    t.sidepotsLoop (fuel + 2) nonz ⟨k, peeled t bets k, touched⟩ =
      some ⟨k + 1, peeled t bets k, touched ++ [k]⟩ := by
  rw [sidepotsLoop, if_pos hnonz, sidepotsPass_stop (peeled_self k) hnone]
  dsimp only
  split
  · rfl
  · rw [sidepotsLoop, if_neg (Nat.lt_irrefl 0)]

private theorem sidepotsLoop_next (hzero : ∀ j, t.N ≤ j → bets j = 0) {k fuel nonz : Nat} (touched : List Nat)
    (hnonz : 0 < nonz) (hroom : k + 1 < t.N)
    (hmore : 0 < t.sidepotNonz (t.leftover bets k) (t.sidepotMinbet (t.leftover bets k))) :
    t.sidepotsLoop (fuel + 1) nonz ⟨k, peeled t bets k, touched⟩ =
      t.sidepotsLoop fuel (t.sidepotNonz (t.leftover bets k) (t.sidepotMinbet (t.leftover bets k)))
        ⟨k + 1, peeled t bets (k + 1), touched ++ [k, k + 1]⟩ := by
  rw [sidepotsLoop, if_pos hnonz, sidepotsPass_more (peeled_self k) hmore, ← sidepotsMove_peeled hzero]
  exact if_neg (Nat.not_le_of_lt hroom)

private theorem touched_append {touched rows : List Nat} (h : ∀ r ∈ touched, r < t.N) (h' : ∀ r ∈ rows, r < t.N) :
    ∀ r ∈ touched ++ rows, r < t.N := by
  intro r hr
  rcases List.mem_append.mp hr with hr | hr
  · exact h r hr
  · exact h' r hr

/-- The loop ends after the first row without a higher live bet. Each pot has a live contributor less than the one
before, so that `m` of them leave room for `m` rows. -/
private theorem sidepotsLoop_ends (hzero : ∀ j, t.N ≤ j → bets j = 0) (m : Nat) :
    ∀ k fuel touched, (t.contributors (t.leftover bets k)).card ≤ m → k + max m 1 ≤ t.N → m + 2 ≤ fuel →
      (∀ r ∈ touched, r < t.N) → ∀ nonz, 0 < nonz →
      ∃ last touched', k ≤ last ∧ last < t.N ∧ (∀ r ∈ touched', r < t.N) ∧
        t.sidepotNonz (t.leftover bets last) (t.sidepotMinbet (t.leftover bets last)) = 0 ∧
        (∀ i, k ≤ i → i < last → 0 < t.sidepotNonz (t.leftover bets i) (t.sidepotMinbet (t.leftover bets i))) ∧
        t.sidepotsLoop fuel nonz ⟨k, peeled t bets k, touched⟩ = some ⟨last + 1, peeled t bets last, touched'⟩ := by
  induction m with
  | zero =>
    intro k fuel touched hcard hroom hfuel htouched nonz hnonz
    obtain ⟨fuel, rfl⟩ := Nat.exists_eq_add_of_le' hfuel
    have hnone : t.sidepotNonz (t.leftover bets k) (t.sidepotMinbet (t.leftover bets k)) = 0 := by
      refine Nat.eq_zero_of_not_pos fun hpos => ?_
      obtain ⟨j, hj⟩ := sidepotNonz_pos.mp hpos
      exact absurd (Finset.card_pos.mpr ⟨j, (mem_contributors_excess.mp hj).1⟩) (by omega)
    exact ⟨k, touched ++ [k], le_refl k, by omega, touched_append htouched (by simpa using by omega), hnone,
      fun i h1 h2 => absurd h2 (Nat.not_lt_of_le h1), sidepotsLoop_stop touched hnonz hnone⟩
  | succ m ih =>
    intro k fuel touched hcard hroom hfuel htouched nonz hnonz
    obtain ⟨fuel, rfl⟩ := Nat.exists_eq_add_of_le' (show 2 ≤ fuel by omega)
    by_cases hmore : 0 < t.sidepotNonz (t.leftover bets k) (t.sidepotMinbet (t.leftover bets k))
    case pos =>
      have hnext := sidepotNonz_pos.mp hmore
      have hfewer := excess_card_lt (t := t) (hnext.mono fun j hj => (mem_contributors_excess.mp hj).1)
      have hsome := hnext.card_pos
      obtain ⟨last, touched', hk, hlast, hrows, hnone, hbefore, hrun⟩ := ih (k + 1) (fuel + 1) (touched ++ [k, k + 1])
        (by rw [leftover]; omega) (by omega) (by omega)
        (touched_append htouched (by simp only [List.mem_cons, List.not_mem_nil, or_false]; omega)) _ hmore
      refine ⟨last, touched', by omega, hlast, hrows, hnone, fun i h1 h2 => ?_, ?_⟩
      · rcases Nat.eq_or_lt_of_le h1 with rfl | h1
        · exact hmore
        · exact hbefore i h1 h2
      · rw [sidepotsLoop_next hzero touched hnonz (by omega) hmore]
        exact hrun
    case neg =>
      have hnone := Nat.eq_zero_of_not_pos hmore
      exact ⟨k, touched ++ [k], le_refl k, by omega, touched_append htouched (by simpa using by omega), hnone,
        fun i h1 h2 => absurd h2 (Nat.not_lt_of_le h1), sidepotsLoop_stop touched hnonz hnone⟩

end loop

section pots
variable {t : Table} {bets : Nat → Nat}

private theorem leftover_split (k j : Nat) :
    capped (t.sidepotMinbet (t.leftover bets k)) (t.leftover bets k) j + t.leftover bets (k + 1) j =
      t.leftover bets k j := by
  rw [leftover, capped, excess]
  split
  · omega
  · rfl

private theorem capped_sum (t : Table) (bets : Nat → Nat) (n j : Nat) :
    ∑ k ∈ Finset.range n, capped (t.sidepotMinbet (t.leftover bets k)) (t.leftover bets k) j + t.leftover bets n j =
      bets j := by
  induction n with
  | zero => simp [leftover]
  | succ n ih => rw [Finset.sum_range_succ, Nat.add_assoc, leftover_split, ih]

private theorem leftover_eq (k j : Nat) :
    t.leftover bets k j = bets j - ∑ i ∈ Finset.range k, t.sidepotMinbet (t.leftover bets i) := by
  induction k with
  | zero => simp [leftover]
  | succ k ih =>
    rw [leftover, excess, Finset.sum_range_succ, ← Nat.sub_sub, ← ih]
    split
    · rfl
    · omega

private theorem minbet_le {pot : Nat → Nat} {j : Nat} (hj : j < t.N) (hlive : ¬ t.folded j) (hpot : pot j ≠ 0) :
    t.sidepotMinbet pot ≠ 0 ∧ t.sidepotMinbet pot ≤ pot j :=
  (sidepotMinbet_spec t pot).1 j (mem_contributors.mpr ⟨hj, hpot, hlive⟩)

private theorem minbet_capped {pot : Nat → Nat} (h : 0 < t.sidepotNonz pot (t.sidepotMinbet pot)) :
    t.sidepotMinbet pot ≠ 0 ∧ t.sidepotMinbet (capped (t.sidepotMinbet pot) pot) = t.sidepotMinbet pot := by
  obtain ⟨i, hi⟩ := sidepotNonz_pos.mp h
  have hi' := (mem_contributors_excess.mp hi).1
  have hmin := ((sidepotMinbet_spec t pot).1 i hi').1
  obtain ⟨hall, hex⟩ := sidepotMinbet_spec t (capped (t.sidepotMinbet pot) pot)
  rw [contributors_capped hmin] at hall hex
  obtain ⟨j, hj, heq⟩ := hex (hall i hi').1
  have hle := ((sidepotMinbet_spec t pot).1 j hj).2
  refine ⟨hmin, heq.symm.trans ?_⟩
  rw [capped]
  split
  · rfl
  · omega

private theorem capped_of_le {minbet : Nat} {pot : Nat → Nat} {j : Nat} (h : minbet ≤ pot j) :
    capped minbet pot j = minbet := by
  rw [capped]
  split
  · rfl
  · omega

private theorem capped_le (minbet : Nat) (pot : Nat → Nat) (j : Nat) :
    capped minbet pot j ≤ minbet ∧ (capped minbet pot j ≠ 0 → pot j ≠ 0) := by
  rw [capped]
  split
  · omega
  · omega

end pots

/-- What the matrix of side pots should be for some bets: its rows lie in the table, each player's entries add up to
his bet, the live contributors of a pot pay its level and the folded ones no more, but for the last pot, and a live
player is in a pot iff his bet exceeds the levels before it. -/
structure PotsOf (t : Table) (bets : Nat → Int) (s : Sidepots) : Prop where
  some_pot : 1 ≤ s.n
  few_pots : s.n ≤ t.N
  inside : ∀ r ∈ s.touched, r < t.N
  sums : ∀ j < t.N, ((∑ k ∈ Finset.range s.n, s.rows k j : Nat) : Int) = bets j
  equal : ∀ k < s.n, ∀ j < t.N, ¬ t.folded j → s.rows k j ≠ 0 → s.rows k j = t.level s k
  folded : ∀ k, k + 1 < s.n → ∀ j < t.N, t.folded j → s.rows k j ≤ t.level s k
  joins : ∀ k < s.n, ∀ j < t.N, ¬ t.folded j →
    (s.rows k j ≠ 0 ↔ ((∑ i ∈ Finset.range k, t.level s i : Nat) : Int) < bets j)

section pots
variable {t : Table} {last : Nat} {touched : List Nat}

private theorem peeled_pots {bets : Nat → Int} (hbets : ∀ j < t.N, 0 ≤ bets j ∧ bets j < 2^63) (hlast : last < t.N)
    (hrows : ∀ r ∈ touched, r < t.N)
    (hnone : t.sidepotNonz (t.leftover (t.firstRow bets) last)
      (t.sidepotMinbet (t.leftover (t.firstRow bets) last)) = 0)
    (hmore : ∀ i < last, 0 < t.sidepotNonz (t.leftover (t.firstRow bets) i)
      (t.sidepotMinbet (t.leftover (t.firstRow bets) i))) :
    PotsOf t bets ⟨last + 1, peeled t (t.firstRow bets) last, touched⟩ := by
  have hword : ∀ j < t.N, (t.firstRow bets j : Int) = bets j := by
    intro j hj
    obtain ⟨h0, hlt⟩ := hbets j hj
    rw [firstRow, if_pos hj]
    exact unsigned_of_bounds h0 (by omega)
  generalize t.firstRow bets = first at *
  have hpot : ∀ k < last, peeled t first last k = capped (t.sidepotMinbet (t.leftover first k)) (t.leftover first k) :=
    fun k hk => by rw [peeled, if_pos hk]
  have hend : peeled t first last last = t.leftover first last := peeled_self last
  have hlevel : ∀ k ≤ last, t.level ⟨last + 1, peeled t first last, touched⟩ k =
      t.sidepotMinbet (t.leftover first k) := by
    intro k hk
    rw [level]
    dsimp only
    rcases Nat.lt_or_eq_of_le hk with hk | rfl
    · rw [hpot k hk]
      exact (minbet_capped (hmore k hk)).2
    · rw [hend]
  have hcontributes : ∀ k ≤ last, ∀ j < t.N, ¬ t.folded j →
      (peeled t first last k j ≠ 0 ↔ t.leftover first k j ≠ 0) := by
    intro k hk j hj hlive
    rcases Nat.lt_or_eq_of_le hk with hk | rfl
    · rw [hpot k hk]
      refine ⟨(capped_le _ _ j).2, fun hne => ?_⟩
      obtain ⟨hmin, hle⟩ := minbet_le hj hlive hne
      rw [capped_of_le hle]
      exact hmin
    · rw [hend]
  refine ⟨Nat.le_add_left 1 last, hlast, hrows, fun j hj => ?_, fun k hk j hj hlive hne => ?_,
    fun k hk j hj _ => ?_, fun k hk j hj hlive => ?_⟩
  · rw [← hword j hj, ← capped_sum t first last j, Finset.sum_range_succ]
    dsimp only
    rw [hend]
    refine congrArg (fun n : Nat => (n : Int)) (congrArg (· + _) (Finset.sum_congr rfl fun k hk => ?_))
    exact congrFun (hpot k (Finset.mem_range.mp hk)) j
  · have hk' := Nat.le_of_lt_succ hk
    obtain ⟨-, hle⟩ := minbet_le hj hlive ((hcontributes k hk' j hj hlive).mp hne)
    rw [hlevel k hk']
    dsimp only
    rcases Nat.lt_or_eq_of_le hk' with hlt | rfl
    · rw [hpot k hlt, capped_of_le hle]
    · -- nobody who is live exceeds the minimum of the last pot
      rw [hend]
      refine Nat.le_antisymm (Nat.le_of_not_lt fun hover => ?_) hle
      rw [sidepotNonz, List.countP_eq_zero] at hnone
      exact hnone j (List.mem_range.mpr hj) (by simp [hover, hlive])
  · have hlt : k < last := Nat.lt_of_succ_lt_succ hk
    rw [hlevel k hlt.le]
    dsimp only
    rw [hpot k hlt]
    exact (capped_le _ _ j).1
  · have hk' := Nat.le_of_lt_succ hk
    have hsum : ∑ i ∈ Finset.range k, t.level ⟨last + 1, peeled t first last, touched⟩ i =
        ∑ i ∈ Finset.range k, t.sidepotMinbet (t.leftover first i) :=
      Finset.sum_congr rfl fun i hi => hlevel i (by have := Finset.mem_range.mp hi; omega)
    rw [hcontributes k hk' j hj hlive, hsum, ← hword j hj, leftover_eq]
    omega

end pots

section run
variable (t : Table)

private theorem sidepotsMatrix_ends {fuel : Nat} (bets : Nat → Int) (hfuel : t.N + 2 ≤ fuel) :
    ∃ last touched, last < t.N ∧ (∀ r ∈ touched, r < t.N) ∧
      t.sidepotNonz (t.leftover (t.firstRow bets) last) (t.sidepotMinbet (t.leftover (t.firstRow bets) last)) = 0 ∧
      (∀ i < last, 0 < t.sidepotNonz (t.leftover (t.firstRow bets) i)
        (t.sidepotMinbet (t.leftover (t.firstRow bets) i))) ∧
      t.sidepotsMatrix fuel bets = some ⟨last + 1, peeled t (t.firstRow bets) last, touched⟩ := by
  have hcard : (t.contributors (t.leftover (t.firstRow bets) 0)).card ≤ t.N :=
    (Finset.card_filter_le _ _).trans_eq (Finset.card_range _)
  have hzero : ∀ j, t.N ≤ j → t.firstRow bets j = 0 := fun j hj => if_neg (Nat.not_lt_of_le hj)
  have hpos : 0 < t.N := t.seats.N_pos
  have hstart : Function.update (fun _ _ => 0) 0 (t.firstRow bets) = peeled t (t.firstRow bets) 0 := by
    funext row
    rw [peeled, if_neg (Nat.not_lt_zero row)]
    by_cases hrow : row = 0
    · rw [hrow, Function.update_self, if_pos rfl, leftover]
    · rw [Function.update_of_ne hrow, if_neg hrow]
  obtain ⟨last, touched, -, hlast, hrows, hnone, hmore, hrun⟩ := sidepotsLoop_ends hzero t.N 0 fuel [0] hcard
    (by omega) hfuel (by simpa using hpos) 1 Nat.one_pos
  rw [← hstart] at hrun
  exact ⟨last, touched, hlast, hrows, hnone, fun i => hmore i (Nat.zero_le i), hrun⟩

/-- `pangea_sidepots` ends, within the rows of the table, with the side pots of any bets. -/
theorem sidepotsMatrix_pots {fuel : Nat} {bets : Nat → Int} (hbets : ∀ j < t.N, 0 ≤ bets j ∧ bets j < 2^63)
    (hfuel : t.N + 2 ≤ fuel) : ∃ s, t.sidepotsMatrix fuel bets = some s ∧ PotsOf t bets s := by
  obtain ⟨last, touched, hlast, hrows, hnone, hmore, hrun⟩ := sidepotsMatrix_ends t bets hfuel
  exact ⟨_, hrun, peeled_pots hbets hlast hrows hnone hmore⟩

/-- Three players with different bets, the highest of them folded. -/
theorem sidepotsMatrix_pots_folded :
    let t := (openTable threeSeats (fun _ => 100) 10 0).pangeaFold 2
    (∀ j < 3, 0 ≤ [30, 20, 45].getD j (0 : Int) ∧ [30, 20, 45].getD j (0 : Int) < 2^63) ∧
      ∃ s, t.sidepotsMatrix 5 (fun j => [30, 20, 45].getD j 0) = some s ∧
        PotsOf t (fun j => [30, 20, 45].getD j 0) s := by
  intro t
  have hbets : ∀ j < 3, 0 ≤ [30, 20, 45].getD j (0 : Int) ∧ [30, 20, 45].getD j (0 : Int) < 2^63 := by decide
  exact ⟨hbets, sidepotsMatrix_pots t hbets (by decide)⟩

/-! ## The list of pots -/

variable {t} {pot pot' : Nat → Nat}

private theorem minbet_congr (h : ∀ j < t.N, pot j = pot' j) : t.sidepotMinbet pot = t.sidepotMinbet pot' := by
  have hrounds : ∀ k ≤ t.N,
      rounds (fun minbet j => if t.Contributes pot j ∧ (minbet = 0 ∨ pot j < minbet) then pot j else minbet) 0 k =
        rounds (fun minbet j => if t.Contributes pot' j ∧ (minbet = 0 ∨ pot' j < minbet) then pot' j else minbet) 0
          k := by
    intro k hk
    induction k with
    | zero => rfl
    | succ k ih =>
      have hj := h k hk
      rw [rounds_succ, rounds_succ, ih (Nat.le_of_succ_le hk), hj]
      exact if_congr (by rw [Contributes, Contributes, hj]) rfl rfl
  exact hrounds t.N (le_refl _)

private theorem nonz_congr (h : ∀ j < t.N, pot j = pot' j) (minbet : Nat) :
    t.sidepotNonz pot minbet = t.sidepotNonz pot' minbet := by
  refine List.countP_congr fun j hj => ?_
  rw [h j (List.mem_range.mp hj)]

private theorem sidepotsFrom_congr (rows : Nat) (h : ∀ j < t.N, pot j = pot' j) :
    List.Forall₂ (fun p q => ∀ j < t.N, p j = q j) (t.sidepotsFrom rows pot) (t.sidepotsFrom rows pot') := by
  induction rows generalizing pot pot' with
  | zero => exact .nil
  | succ rows ih =>
    rw [sidepotsFrom, sidepotsFrom, minbet_congr h, nonz_congr h]
    split
    case isTrue =>
      refine .cons (fun j hj => ?_) (ih fun j hj => ?_)
      · rw [h j hj]
      · rw [h j hj]
    case isFalse => exact .cons h .nil

private theorem sidepotsFrom_peeled {bets : Nat → Nat} {last : Nat}
    (hnone : t.sidepotNonz (t.leftover bets last) (t.sidepotMinbet (t.leftover bets last)) = 0)
    (hmore : ∀ i < last, 0 < t.sidepotNonz (t.leftover bets i) (t.sidepotMinbet (t.leftover bets i))) (rows : Nat) :
    ∀ k ≤ last, last < k + rows →
      t.sidepotsFrom rows (t.leftover bets k) = (List.range' k (last + 1 - k)).map (peeled t bets last) := by
  induction rows with
  | zero => exact fun k hk hroom => absurd hroom (by omega)
  | succ rows ih =>
    intro k hk hroom
    rw [sidepotsFrom]
    rcases Nat.lt_or_eq_of_le hk with hlt | rfl
    · have hnext := ih (k + 1) hlt (by omega)
      rw [if_pos (hmore k hlt), show last + 1 - k = (last + 1 - (k + 1)) + 1 by omega, List.range'_succ, List.map_cons,
        ← hnext, peeled, if_pos hlt]
      rfl
    · rw [hnone, if_neg (Nat.lt_irrefl 0), Nat.add_sub_cancel_left, List.range'_one, List.map_singleton, peeled_self]

theorem sidepotsMatrix_rows {fuel : Nat} (hfuel : t.N + 2 ≤ fuel) :
    ∃ s, t.sidepotsMatrix fuel t.hand.bets = some s ∧
      List.Forall₂ (fun p q => ∀ j < t.N, p j = q j) t.pangeaSidepots ((List.range s.n).map s.rows) := by
  obtain ⟨last, touched, hlast, -, hnone, hmore, hrun⟩ := sidepotsMatrix_ends t t.hand.bets hfuel
  have hpots := sidepotsFrom_peeled hnone hmore t.N 0 (Nat.zero_le last) (by omega)
  refine ⟨_, hrun, ?_⟩
  rw [List.range_eq_range']
  dsimp only
  rw [← Nat.sub_zero (last + 1), ← hpots]
  refine sidepotsFrom_congr t.N fun j hj => ?_
  rw [leftover, firstRow, if_pos hj]

end run

end SuperNet.Games.Pangea.Table
