import SuperNet.Lib.Averages
import SuperNet.Peggy.PeggyReserves

/-! The value of a unit in fixed point: which products stay in their words, and how far the result lies
below the exact value. -/
namespace SuperNet.Peggy.Peggy777
open Lib.Words Lib.Averages

def priceResolutionMaxpval : Int := 3037000500

/-- The word that holds the product is the product, and lies below the sign bit. -/
def InWord (p : Int) : Prop := 0 ≤ p ∧ p < 2^63

instance (p : Int) : Decidable (InWord p) := inferInstanceAs (Decidable (_ ∧ _))

section
variable (polarity denomination price oppoprice : Int)

/-- `(oppoprice * price) / PRICE_RESOLUTION_ROOT`. -/
def pairprice : Int := oppoprice * price / priceResolutionRoot

/-- The products that `peggy_satoshis` forms. -/
def satoshisProducts : List Int :=
  if polarity < 0 then
    [oppoprice * price, pairprice price oppoprice * denomination,
      satoshiden / priceResolutionRoot * (pairprice price oppoprice * denomination)]
  else [satoshiden * denomination, satoshiden * denomination * price]

/-- What `peggy_satoshis` returns where its products stay in their words. -/
def unitSatoshis : Int :=
  if polarity < 0 then
    satoshiden / priceResolutionRoot * (pairprice price oppoprice * denomination) / priceResolution
  else satoshiden * denomination * price / priceResolution

/-- The exact value of a unit. -/
def satoshisValue : ℚ :=
  if polarity < 0 then denomination * price * oppoprice * satoshiden / priceResolution ^ 2
  else denomination * price * satoshiden / priceResolution

/-- One step of the last division and, with a negative polarity, what one step of each of the others is worth. -/
def satoshisStep : ℚ :=
  if polarity < 0 then
    1 + (satoshiden / priceResolutionRoot + pairprice price oppoprice) * |(denomination : ℚ)| / priceResolution
  else 1

/-- The exact value rounded down, by less than the steps of the divisions. -/
def Rounded (satoshis : Int) : Prop :=
  satoshis ≤ satoshisValue polarity denomination price oppoprice ∧
    satoshisValue polarity denomination price oppoprice < satoshis + satoshisStep polarity denomination price oppoprice

/-- The denominations that can be valued at a price. -/
def Valuable : Prop :=
  if polarity < 0 then
    (0 ≤ denomination ∨ oppoprice = 0) ∧ pairprice price oppoprice * denomination ≤ 291740377569342
  else 0 ≤ denomination ∧ denomination * price ≤ 92233720368

end

variable {polarity denomination price oppoprice : Int}

theorem priceResolution_eq : (priceResolution : ℚ) = priceResolutionRoot * priceResolutionRoot := by
  norm_num [priceResolution, priceResolutionRoot]

theorem pairprice_nonneg (hprice : 0 ≤ price) (hoppo : 0 ≤ oppoprice) : 0 ≤ pairprice price oppoprice :=
  Int.ediv_nonneg (mul_nonneg hoppo hprice) (Int.natCast_nonneg _)

theorem peggySatoshis_long (h : ¬ polarity < 0) (hunits : InWord (satoshiden * denomination))
    (hvalue : InWord (satoshiden * denomination * price)) :
    (peggySatoshis polarity denomination price oppoprice : Int) = unitSatoshis polarity denomination price oppoprice := by
  have hfirst : ((u64 (satoshiden * denomination) : Nat) : Int) = satoshiden * denomination :=
    unsigned_of_bounds hunits.1 (hunits.2.trans (by norm_num))
  have hsecond : ((u64 (satoshiden * denomination * price) : Nat) : Int) = satoshiden * denomination * price :=
    unsigned_of_bounds hvalue.1 (hvalue.2.trans (by norm_num))
  rw [peggySatoshis, unitSatoshis, if_neg h, if_neg h, hfirst, Int.natCast_ediv, hsecond]

theorem peggySatoshis_short (h : polarity < 0) (hpair : InWord (oppoprice * price))
    (hunits : InWord (pairprice price oppoprice * denomination))
    (hvalue : InWord (satoshiden / priceResolutionRoot * (pairprice price oppoprice * denomination))) :
    (peggySatoshis polarity denomination price oppoprice : Int) = unitSatoshis polarity denomination price oppoprice := by
  have hquot : (oppoprice * price).tdiv priceResolutionRoot = pairprice price oppoprice := Int.tdiv_eq_ediv_of_nonneg hpair.1
  have hroot : pairprice price oppoprice ≤ oppoprice * price := Int.ediv_le_self _ hpair.1
  have hfirst : ((u64 (pairprice price oppoprice) : Nat) : Int) = pairprice price oppoprice :=
    unsigned_of_bounds (Int.ediv_nonneg hpair.1 (Int.natCast_nonneg _)) (by have := hpair.2; omega)
  have hsecond : ((u64 (pairprice price oppoprice * denomination) : Nat) : Int) = pairprice price oppoprice * denomination :=
    unsigned_of_bounds hunits.1 (hunits.2.trans (by norm_num))
  have hthird : ((u64 (satoshiden / priceResolutionRoot * (pairprice price oppoprice * denomination)) : Nat) : Int) =
      satoshiden / priceResolutionRoot * (pairprice price oppoprice * denomination) :=
    unsigned_of_bounds hvalue.1 (hvalue.2.trans (by norm_num))
  rw [peggySatoshis, unitSatoshis, if_pos h, if_pos h]
  simp only [hquot, hfirst, hsecond, Int.natCast_ediv, hthird]

theorem satoshis_value
    (h : ∀ p ∈ satoshisProducts polarity denomination price oppoprice, InWord p) :
    (peggySatoshis polarity denomination price oppoprice : Int) = unitSatoshis polarity denomination price oppoprice := by
  rw [satoshisProducts] at h
  split at h
  case isTrue hpol =>
    simp only [List.forall_mem_cons] at h
    exact peggySatoshis_short hpol h.1 h.2.1 h.2.2.1
  case isFalse hpol =>
    simp only [List.forall_mem_cons] at h
    exact peggySatoshis_long hpol h.1 h.2.1

theorem floor_div (n : Int) : ⌊(n : ℚ) / priceResolution⌋ = n / priceResolution := Rat.floor_intCast_div_natCast n _

theorem rounded_long (h : ¬ polarity < 0) :
    Rounded polarity denomination price oppoprice (unitSatoshis polarity denomination price oppoprice) := by
  have hvalue : satoshisValue polarity denomination price oppoprice =
      ((satoshiden * denomination * price : Int) : ℚ) / priceResolution := by
    rw [satoshisValue, if_neg h]
    push_cast
    ring
  rw [Rounded, hvalue, satoshisStep, if_neg h, unitSatoshis, if_neg h, ← floor_div]
  exact ⟨Int.floor_le _, Int.lt_floor_add_one _⟩

theorem rounded_short (h : polarity < 0) (hdenom : 0 ≤ denomination) (hpair : 0 ≤ oppoprice * price) :
    Rounded polarity denomination price oppoprice (unitSatoshis polarity denomination price oppoprice) := by
  obtain ⟨hle, hlt⟩ := floor_mul_floor (x := (satoshiden : ℚ) / priceResolutionRoot)
    (y := ((oppoprice * price : Int) : ℚ) / priceResolutionRoot) (by positivity) (by positivity)
  have hscale : ⌊(satoshiden : ℚ) / priceResolutionRoot⌋ = satoshiden / priceResolutionRoot :=
    Rat.floor_intCast_div_natCast satoshiden _
  have hquot : ⌊((oppoprice * price : Int) : ℚ) / priceResolutionRoot⌋ = pairprice price oppoprice :=
    Rat.floor_intCast_div_natCast _ _
  rw [hscale, hquot] at hle hlt
  have hD : (0 : ℚ) ≤ denomination / priceResolution := by positivity
  have hvalue : satoshisValue polarity denomination price oppoprice =
      satoshiden / priceResolutionRoot * (((oppoprice * price : Int) : ℚ) / priceResolutionRoot) *
        (denomination / priceResolution) := by
    rw [satoshisValue, if_pos h, priceResolution_eq]
    push_cast
    ring
  have hstep : satoshisStep polarity denomination price oppoprice =
      1 + (satoshiden / priceResolutionRoot + pairprice price oppoprice) * (denomination / priceResolution) := by
    rw [satoshisStep, if_pos h, abs_of_nonneg (by exact_mod_cast hdenom)]
    ring
  have hunit : unitSatoshis polarity denomination price oppoprice =
      ⌊((satoshiden / priceResolutionRoot : Int) : ℚ) * pairprice price oppoprice * (denomination / priceResolution)⌋ := by
    rw [unitSatoshis, if_pos h, ← floor_div]
    congr 1
    push_cast
    ring
  rw [Rounded, hvalue, hstep, hunit]
  have hfloor := Int.floor_le
    (((satoshiden / priceResolutionRoot : Int) : ℚ) * pairprice price oppoprice * (denomination / priceResolution))
  have hceil := Int.lt_floor_add_one
    (((satoshiden / priceResolutionRoot : Int) : ℚ) * pairprice price oppoprice * (denomination / priceResolution))
  have hle' := mul_le_mul_of_nonneg_right hle hD
  have hlt' := mul_le_mul_of_nonneg_right hlt hD
  rw [sub_mul] at hlt'
  exact ⟨hfloor.trans hle', by linarith⟩

theorem rounded_zero (h : polarity < 0) :
    Rounded polarity denomination price 0 (unitSatoshis polarity denomination price 0) := by
  have hpair : pairprice price 0 = 0 := by simp [pairprice]
  have hstep : 0 < satoshisStep polarity denomination price 0 := by
    rw [satoshisStep, if_pos h, hpair]
    positivity
  simp only [Rounded, satoshisValue, unitSatoshis, if_pos h, hpair]
  simp [hstep]

/-- A negative denomination has no value that can be rounded down to a natural number. -/
theorem not_rounded_neg (h : polarity < 0) (hdenom : denomination < 0) (hprice : 0 < price) (hoppo : 0 < oppoprice)
    {satoshis : Int} (hsat : 0 ≤ satoshis) : ¬ Rounded polarity denomination price oppoprice satoshis := by
  intro hrounded
  have hle := hrounded.1
  rw [satoshisValue, if_pos h] at hle
  have hneg : (denomination : ℚ) * price * oppoprice * satoshiden / priceResolution ^ 2 < 0 := by
    have hd : (denomination : ℚ) < 0 := by exact_mod_cast hdenom
    have hscale : (0 : ℚ) < price * oppoprice * satoshiden / priceResolution ^ 2 := by
      norm_num [satoshiden, priceResolution]
      positivity
    calc (denomination : ℚ) * price * oppoprice * satoshiden / priceResolution ^ 2
        = denomination * (price * oppoprice * satoshiden / priceResolution ^ 2) := by ring
      _ < 0 := mul_neg_of_neg_of_pos hd hscale
  have hsat' : (0 : ℚ) ≤ satoshis := by exact_mod_cast hsat
  linarith

theorem satoshis_long_iff (h : ¬ polarity < 0) (hdenom : denomination < priceResolutionMaxunits) (hprice : 0 < price) :
    (∀ p ∈ satoshisProducts polarity denomination price oppoprice, InWord p) ↔
      Valuable polarity denomination price oppoprice := by
  simp only [satoshisProducts, Valuable, if_neg h, List.forall_mem_cons, List.not_mem_nil, false_implies, implies_true,
    and_true, InWord, mul_assoc, satoshiden]
  rw [priceResolutionMaxunits] at hdenom
  constructor
  · rintro ⟨⟨hnonneg, -⟩, -, hlt⟩
    omega
  · rintro ⟨hnonneg, hle⟩
    have hprod : 0 ≤ denomination * price := mul_nonneg hnonneg hprice.le
    omega

theorem satoshis_short_iff (h : polarity < 0) (hprice : 0 < price) (hoppo : 0 ≤ oppoprice)
    (hpair : oppoprice * price < 2^63) :
    (∀ p ∈ satoshisProducts polarity denomination price oppoprice, InWord p) ↔
      0 ≤ pairprice price oppoprice * denomination ∧ pairprice price oppoprice * denomination ≤ 291740377569342 := by
  have hnonneg : 0 ≤ oppoprice * price := mul_nonneg hoppo hprice.le
  simp only [satoshisProducts, if_pos h, List.forall_mem_cons, List.not_mem_nil, false_implies, implies_true, and_true,
    InWord, satoshiden, priceResolutionRoot]
  generalize pairprice price oppoprice * denomination = units
  omega

theorem satoshis_iff (hdenom : denomination < priceResolutionMaxunits) (hprice : 0 < price) (hoppo : 0 ≤ oppoprice)
    (hpair : oppoprice * price < 2^63) :
    ((∀ p ∈ satoshisProducts polarity denomination price oppoprice, InWord p) ∧
        Rounded polarity denomination price oppoprice (peggySatoshis polarity denomination price oppoprice)) ↔
      Valuable polarity denomination price oppoprice := by
  have hquot := pairprice_nonneg hprice.le hoppo
  by_cases hpol : polarity < 0
  · constructor
    · rintro ⟨hproducts, hrounded⟩
      obtain ⟨hunits, hle⟩ := (satoshis_short_iff hpol hprice hoppo hpair).mp hproducts
      rw [Valuable, if_pos hpol]
      refine ⟨?_, hle⟩
      by_contra hneg
      push Not at hneg
      exact not_rounded_neg hpol hneg.1 hprice (lt_of_le_of_ne hoppo (Ne.symm hneg.2)) (Int.natCast_nonneg _) hrounded
    · intro hvaluable
      rw [Valuable, if_pos hpol] at hvaluable
      obtain ⟨hsign, hle⟩ := hvaluable
      have hunits : 0 ≤ pairprice price oppoprice * denomination := by
        rcases hsign with hdenom' | rfl
        · exact mul_nonneg hquot hdenom'
        · simp [pairprice]
      have hproducts := (satoshis_short_iff hpol hprice hoppo hpair).mpr ⟨hunits, hle⟩
      refine ⟨hproducts, ?_⟩
      rw [satoshis_value hproducts]
      rcases hsign with hdenom' | rfl
      · exact rounded_short hpol hdenom' (mul_nonneg hoppo hprice.le)
      · exact rounded_zero hpol
  · rw [satoshis_long_iff hpol hdenom hprice]
    refine and_iff_left_of_imp fun hvaluable => ?_
    rw [satoshis_value ((satoshis_long_iff hpol hdenom hprice).mpr hvaluable)]
    exact rounded_long hpol

/-- What can be valued at a price can be valued at a lower one. -/
theorem Valuable.mono {lower : Int} (h : Valuable polarity denomination price oppoprice) (hoppo : 0 ≤ oppoprice)
    (hle : lower ≤ price) : Valuable polarity denomination lower oppoprice := by
  rw [Valuable] at h ⊢
  split at h
  case isTrue hpol =>
    rw [if_pos hpol]
    refine ⟨h.1, ?_⟩
    rcases h.1 with hdenom | rfl
    · have hpair : pairprice lower oppoprice ≤ pairprice price oppoprice :=
        Int.ediv_le_ediv (by decide) (mul_le_mul_of_nonneg_left hle hoppo)
      exact (mul_le_mul_of_nonneg_right hpair hdenom).trans h.2
    · simp [pairprice]
  case isFalse hpol =>
    rw [if_neg hpol]
    exact ⟨h.1, (mul_le_mul_of_nonneg_left hle h.1).trans h.2⟩

theorem valuable_max {other : Int} (hoppo : 0 ≤ oppoprice) :
    Valuable polarity denomination (max price other) oppoprice ↔
      Valuable polarity denomination price oppoprice ∧ Valuable polarity denomination other oppoprice := by
  constructor
  · intro h
    exact ⟨h.mono hoppo (le_max_left _ _), h.mono hoppo (le_max_right _ _)⟩
  · rintro ⟨hprice, hother⟩
    rcases max_choice price other with heq | heq <;> rw [heq] <;> assumption

section
variable (entry : PeggyEntry) (PEG : PeggyContract) (dir polarity denomination price spread : Int) (poolincr : Nat)

/-- The price that `peggy_poolmainunits` adds or takes off for the spread. -/
def spreadFee : Int := if (entry.baseid.val ≠ 0 ∨ entry.relid.val ≠ 0) ∧ spread ≠ 0 then scaledPrice price spread else 0

def chargedPrice : Int := price + dir * spreadFee entry price spread

/-- The products formed while a unit is valued with `peggy_shortprice` for the opposite price. -/
def valuationProducts : List Int :=
  let oppoprice := peggyShortprice PEG price
  let charged := chargedPrice entry dir price spread
  let satoshis := peggySatoshis polarity denomination charged oppoprice
  [priceResolution * PEG.genesisprice, spread * price, |dir * spreadFee entry price spread|,
      poolincr * ((if satoshis % poolincr = 0 then 0 else dir) + (satoshis / poolincr : Nat))] ++
    satoshisProducts polarity denomination price oppoprice ++ satoshisProducts polarity denomination charged oppoprice

/-- The products stay in their words and the values, without the spread and with it, are rounded down. -/
structure Valued : Prop where
  products : ∀ p ∈ valuationProducts entry PEG dir polarity denomination price spread poolincr, InWord p
  costbasis : Rounded polarity denomination price (peggyShortprice PEG price)
    (peggyPoolmainunits entry dir polarity price (peggyShortprice PEG price) spread poolincr denomination).costbasis
  charged : Rounded polarity denomination (chargedPrice entry dir price spread) (peggyShortprice PEG price)
    (peggySatoshis polarity denomination (chargedPrice entry dir price spread) (peggyShortprice PEG price))

/-- The value in whole increments of the pool: one more on the way in, one less on the way out. -/
def WholeUnits : Prop :=
  let satoshis := unitSatoshis polarity denomination (chargedPrice entry dir price spread) (peggyShortprice PEG price)
  (dir = 1 → poolincr * ((satoshis + poolincr - 1) / poolincr) < 2^63) ∧
    (dir = -1 → satoshis = 0 ∨ poolincr ≤ satoshis)

end

section
variable {entry : PeggyEntry} {PEG : PeggyContract} {dir spread : Int} {poolincr : Nat}

theorem spreadFee_bounds (entry : PeggyEntry) (hprice : 0 < price) (hspread : 0 ≤ spread) (hperc : spread < priceResolution) :
    0 ≤ spreadFee entry price spread ∧ spreadFee entry price spread < price := by
  have hnonneg : 0 ≤ spread * price := mul_nonneg hspread hprice.le
  rw [spreadFee]
  split
  · rw [scaledPrice, Int.tdiv_eq_ediv_of_nonneg hnonneg]
    refine ⟨Int.ediv_nonneg hnonneg (Int.natCast_nonneg _), ?_⟩
    apply Int.ediv_lt_of_lt_mul (by decide)
    rw [mul_comm price]
    exact mul_lt_mul_of_pos_right hperc hprice
  · exact ⟨le_rfl, hprice⟩

theorem shortprice_bounds (hprice : 0 < price) (hgenesis : 0 < PEG.genesisprice) :
    0 ≤ peggyShortprice PEG price ∧ peggyShortprice PEG price * price ≤ priceResolution * PEG.genesisprice := by
  have hnonneg : 0 ≤ priceResolution * PEG.genesisprice := mul_nonneg (Int.natCast_nonneg _) hgenesis.le
  rw [peggyShortprice, if_neg hprice.ne', Int.tdiv_eq_ediv_of_nonneg hnonneg]
  exact ⟨Int.ediv_nonneg hnonneg hprice.le, Int.ediv_mul_le _ hprice.ne'⟩

private theorem ceil_increments {n q r : Int} (hr : 0 ≤ r) (hlt : r < n) :
    (n * q + r + n - 1) / n = if r = 0 then q else q + 1 := by
  have hn : n ≠ 0 := by omega
  split
  case isTrue hzero =>
    have hsplit : n * q + r + n - 1 = n - 1 + n * q := by omega
    rw [hsplit, Int.add_mul_ediv_left _ _ hn, Int.ediv_eq_zero_of_lt (by omega) (by omega), zero_add]
  case isFalse hpos =>
    have hsplit : n * q + r + n - 1 = r - 1 + n * (q + 1) := by ring
    rw [hsplit, Int.add_mul_ediv_left _ _ hn, Int.ediv_eq_zero_of_lt (by omega) (by omega), zero_add]

/-- A value that is not whole is counted one increment up on the way in, and one down from below on the way out. -/
theorem inWord_increments_iff {satoshis : Nat} (hdir : dir = 1 ∨ dir = -1) (hincr : 0 < poolincr)
    (hsat : satoshis < 2^63) :
    InWord (poolincr * ((if satoshis % poolincr = 0 then 0 else dir) + (satoshis / poolincr : Nat))) ↔
      (dir = 1 → (poolincr : Int) * ((satoshis + poolincr - 1) / poolincr) < 2^63) ∧
        (dir = -1 → (satoshis : Int) = 0 ∨ (poolincr : Int) ≤ satoshis) := by
  have hlt := Nat.mod_lt satoshis hincr
  have hsplit : (satoshis : Int) = poolincr * (satoshis / poolincr : Nat) + (satoshis % poolincr : Nat) := by
    exact_mod_cast (Nat.div_add_mod satoshis poolincr).symm
  have hceil := ceil_increments (n := poolincr) (q := (satoshis / poolincr : Nat)) (Int.natCast_nonneg (satoshis % poolincr))
    (by exact_mod_cast hlt)
  rw [← hsplit] at hceil
  rw [hceil, InWord]
  generalize satoshis % poolincr = rest at hlt hsplit ⊢
  generalize satoshis / poolincr = whole at hsplit ⊢
  have hmul : (poolincr : Int) * (1 + whole) = poolincr * whole + poolincr := by ring
  have hpred : (poolincr : Int) * (-1 + whole) = poolincr * whole - poolincr := by ring
  have hsucc : (poolincr : Int) * (whole + 1) = poolincr * whole + poolincr := by ring
  have hnonneg : 0 ≤ (poolincr : Int) * whole := by positivity
  have hge : 0 < whole → (poolincr : Int) ≤ poolincr * whole := fun hwhole =>
    le_mul_of_one_le_right (by omega) (by omega)
  have hzero : whole = 0 → (poolincr : Int) * whole = 0 := fun hwhole => by simp [hwhole]
  rcases hdir with rfl | rfl
  · have hne : (1 : Int) ≠ -1 := by decide
    simp only [hne, false_implies, and_true, true_implies, Nat.cast_eq_zero]
    split_ifs <;> simp only [hmul, hsucc, zero_add] <;> omega
  · have hne : (-1 : Int) ≠ 1 := by decide
    simp only [hne, false_implies, true_and, true_implies]
    split_ifs <;> simp only [hpred, zero_add] <;> omega

theorem satoshis_lt (h : ∀ p ∈ satoshisProducts polarity denomination price oppoprice, InWord p) :
    peggySatoshis polarity denomination price oppoprice < 2^63 := by
  have hlt : unitSatoshis polarity denomination price oppoprice < 2^63 := by
    rw [satoshisProducts] at h
    rw [unitSatoshis]
    split at h
    case isTrue hpol =>
      simp only [List.forall_mem_cons] at h
      rw [if_pos hpol]
      exact (Int.ediv_le_self _ h.2.2.1.1).trans_lt h.2.2.1.2
    case isFalse hpol =>
      simp only [List.forall_mem_cons] at h
      rw [if_neg hpol]
      exact (Int.ediv_le_self _ h.2.1.1).trans_lt h.2.1.2
  rw [← satoshis_value h] at hlt
  exact_mod_cast hlt

theorem costbasis_eq (dir : Int) (h : ∀ p ∈ satoshisProducts polarity denomination price oppoprice, InWord p) :
    (peggyPoolmainunits entry dir polarity price oppoprice spread poolincr denomination).costbasis =
      peggySatoshis polarity denomination price oppoprice := by
  have hlt := satoshis_lt h
  simp only [peggyPoolmainunits]
  apply signed_of_bounds <;> omega

theorem wholeUnits_iff (hdir : dir = 1 ∨ dir = -1) (hincr : 0 < poolincr)
    (h : ∀ p ∈ satoshisProducts polarity denomination (chargedPrice entry dir price spread) (peggyShortprice PEG price),
      InWord p) :
    let satoshis := peggySatoshis polarity denomination (chargedPrice entry dir price spread) (peggyShortprice PEG price)
    InWord (poolincr * ((if satoshis % poolincr = 0 then 0 else dir) + (satoshis / poolincr : Nat))) ↔
      WholeUnits entry PEG dir polarity denomination price spread poolincr := by
  rw [WholeUnits, ← satoshis_value h]
  exact inWord_increments_iff hdir hincr (satoshis_lt h)

/-- A unit is valued without overflow and rounded down as long as its price with the spread leaves room for it. -/
theorem valued_iff (hprice : 0 < price) (hpval : price ≤ priceResolutionMaxpval) (hgenesis : 0 < PEG.genesisprice)
    (hgenesispval : PEG.genesisprice ≤ priceResolutionMaxpval) (hspread : 0 ≤ spread) (hperc : spread < priceResolution)
    (hdenom : denomination < priceResolutionMaxunits) (hdir : dir = 1 ∨ dir = -1) (hincr : 0 < poolincr) :
    Valued entry PEG dir polarity denomination price spread poolincr ↔
      Valuable polarity denomination (max price (chargedPrice entry dir price spread)) (peggyShortprice PEG price) ∧
        WholeUnits entry PEG dir polarity denomination price spread poolincr := by
  obtain ⟨hoppo, hshort⟩ := shortprice_bounds hprice hgenesis
  obtain ⟨hfee, hfeelt⟩ := spreadFee_bounds entry hprice hspread hperc
  have hgap : |dir * spreadFee entry price spread| < price := by
    rcases hdir with rfl | rfl
    · rwa [one_mul, abs_of_nonneg hfee]
    · rwa [neg_one_mul, abs_neg, abs_of_nonneg hfee]
  obtain ⟨hlow, hhigh⟩ := abs_lt.mp hgap
  have hcharged : 0 < chargedPrice entry dir price spread := by
    rw [chargedPrice]
    omega
  have htwice : peggyShortprice PEG price * chargedPrice entry dir price spread ≤
      2 * (peggyShortprice PEG price * price) := by
    have hle : chargedPrice entry dir price spread ≤ 2 * price := by
      rw [chargedPrice]
      omega
    calc peggyShortprice PEG price * chargedPrice entry dir price spread
        ≤ peggyShortprice PEG price * (2 * price) := mul_le_mul_of_nonneg_left hle hoppo
      _ = 2 * (peggyShortprice PEG price * price) := by ring
  have hscaled : 0 ≤ spread * price ∧ spread * price ≤ priceResolution * price :=
    ⟨mul_nonneg hspread hprice.le, mul_le_mul_of_nonneg_right hperc.le hprice.le⟩
  simp only [priceResolution, priceResolutionMaxpval] at hpval hgenesispval hscaled hshort
  rw [valuable_max hoppo, ← satoshis_iff hdenom hprice hoppo (by omega), ← satoshis_iff hdenom hcharged hoppo (by omega)]
  have hsmall : InWord (priceResolution * PEG.genesisprice) ∧ InWord (spread * price) ∧
      InWord |dir * spreadFee entry price spread| := by
    have habs := abs_nonneg (dir * spreadFee entry price spread)
    simp only [InWord, priceResolution]
    omega
  constructor
  · rintro ⟨hproducts, hbasis, hrounded⟩
    simp only [valuationProducts, List.forall_mem_append, List.forall_mem_cons] at hproducts
    obtain ⟨⟨⟨-, -, -, hincrements, -⟩, hfirst⟩, hsecond⟩ := hproducts
    rw [costbasis_eq dir hfirst] at hbasis
    exact ⟨⟨⟨hfirst, hbasis⟩, hsecond, hrounded⟩, (wholeUnits_iff hdir hincr hsecond).mp hincrements⟩
  · rintro ⟨⟨⟨hfirst, hbasis⟩, hsecond, hrounded⟩, hwhole⟩
    refine ⟨?_, by rwa [costbasis_eq dir hfirst], hrounded⟩
    simp only [valuationProducts, List.forall_mem_append, List.forall_mem_cons]
    exact ⟨⟨⟨hsmall.1, hsmall.2.1, hsmall.2.2, (wholeUnits_iff hdir hincr hsecond).mpr hwhole, by simp⟩, hfirst⟩, hsecond⟩

end

/-- Five units bought at one coin each and one percent. -/
theorem valued_fiveUnits :
    Valued (peggyFound (parContract 0x445355 usdId) 1) (parContract 0x445355 usdId) 1 1 5 10004569 100045 1000000 := by
  refine (valued_iff (by decide) (by decide) (by decide) (by decide) (by decide) (by decide) (by decide) (.inl rfl)
    (by decide)).mpr ⟨?_, fun _ => ?_, fun h => absurd h (by decide)⟩
  · rw [Valuable, if_neg (by decide)]
    decide +kernel
  · decide +kernel

/-- At the highest price, 61 units are valued at 78 coins instead of 18517. -/
theorem valuation_overflows :
    peggySatoshis 1 61 3037000500 0 = 7892291640 ∧ ¬ InWord (satoshiden * 61 * 3037000500) ∧
      ¬ ∀ (entry : PeggyEntry) (PEG : PeggyContract) (dir polarity denomination price spread : Int) (poolincr : Nat),
        0 < price → price ≤ priceResolutionMaxpval → 0 < PEG.genesisprice → PEG.genesisprice ≤ priceResolutionMaxpval →
          0 ≤ spread → spread < priceResolution → denomination < priceResolutionMaxunits → dir = 1 ∨ dir = -1 →
            0 < poolincr → Valued entry PEG dir polarity denomination price spread poolincr := by
  refine ⟨by decide +kernel, by decide, fun h => ?_⟩
  have hvalued := h default (parContract 0x445355 usdId) 1 1 61 3037000500 0 1 (by decide) (by decide) (by decide)
    (by decide) (by decide) (by decide) (by decide) (.inl rfl) (by decide)
  have hproduct := hvalued.products (satoshiden * 61 * 3037000500) (by simp [valuationProducts, satoshisProducts])
  exact absurd hproduct (by decide)

end SuperNet.Peggy.Peggy777
