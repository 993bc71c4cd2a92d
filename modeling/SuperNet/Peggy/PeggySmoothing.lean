import SuperNet.Lib.Averages
import SuperNet.Lib.Shares
import SuperNet.Peggy.PeggyGamblers
import SuperNet.Peggy.Quotes777

/-! `peggy_newprice`: a new price is averaged with the last 538 minutes and stored. -/
namespace SuperNet.Peggy.Peggy777
open Lib.Words Lib.Averages Lib.Shares

def peggySmoothCoeffs : List Nat :=
  [962714545, 962506087, 962158759, 961672710, 961048151, 960285354, 959384649, 958346426, 957171134, 955859283,
    954411438, 952828225, 951110328, 949258485, 947273493, 945156207, 942907532, 940528434, 938019929, 935383089,
    932619036, 929728945, 926714044, 923575608, 920314964, 916933485, 913432593, 909813756, 906078486, 902228342,
    898264923, 894189872, 890004874, 885711650, 881311964, 876807614, 872200436, 867492300, 862685110, 857780804,
    852781347, 847688737, 842505000, 837232189, 831872382, 826427681, 820900212, 815292123, 809605581, 803842772,
    798005901, 792097186, 786118864, 780073180, 773962395, 767788778, 761554609, 755262175, 748913768, 742511686,
    736058231, 729555707, 723006417, 716412665, 709776755, 703100984, 696387648, 689639036, 682857428, 676045100,
    669204315, 662337327, 655446378, 648533696, 641601496, 634651978, 627687325, 620709702, 613721256, 606724115,
    599720386, 592712154, 585701482, 578690411, 571680955, 564675105, 557674825, 550682053, 543698699, 536726645,
    529767743, 522823816, 515896658, 508988029, 502099660, 495233249, 488390461, 481572928, 474782249, 468019988,
    461287675, 454586804, 447918836, 441285195, 434687268, 428126409, 421603932, 415121117, 408679208, 402279408,
    395922888, 389610779, 383344175, 377124134, 370951677, 364827785, 358753406, 352729449, 346756785, 340836251,
    334968645, 329154729, 323395230, 317690838, 312042206, 306449955, 300914667, 295436891, 290017141, 284655897,
    279353604, 274110676, 268927490, 263804394, 258741701, 253739694, 248798623, 243918709, 239100140, 234343077,
    229647649, 225013957, 220442073, 215932043, 211483883, 207097585, 202773112, 198510404, 194309373, 190169909,
    186091877, 182075118, 178119452, 174224676, 170390565, 166616873, 162903335, 159249664, 155655556, 152120688,
    148644718, 145227287, 141868021, 138566528, 135322401, 132135218, 129004542, 125929924, 122910901, 119946997,
    117037723, 114182582, 111381062, 108632643, 105936795, 103292978, 100700645, 98159238, 95668194, 93226942,
    90834903, 88491495, 86196126, 83948203, 81747126, 79592292, 77483092, 75418916, 73399150, 71423178, 69490383,
    67600142, 65751837, 63944844, 62178541, 60452305, 58765515, 57117547, 55507781, 53935597, 52400377, 50901505,
    49438366, 48010349, 46616844, 45257246, 43930951, 42637360, 41375878, 40145912, 38946876, 37778185, 36639262,
    35529533, 34448428, 33395384, 32369842, 31371249, 30399057, 29452725, 28531717, 27635503, 26763558, 25915365,
    25090413, 24288196, 23508216, 22749980, 22013003, 21296806, 20600917, 19924870, 19268206, 18630475, 18011231,
    17410035, 16826458, 16260073, 15710466, 15177224, 14659944, 14158231, 13671694, 13199950, 12742625, 12299348,
    11869759, 11453500, 11050225, 10659590, 10281262, 9914910, 9560213, 9216856, 8884529, 8562931, 8251764, 7950739,
    7659571, 7377984, 7105706, 6842471, 6588020, 6342099, 6104460, 5874861, 5653066, 5438844, 5231969, 5032221,
    4839386, 4653254, 4473620, 4300287, 4133059, 3971747, 3816167, 3666139, 3521488, 3382043, 3247640, 3118115,
    2993313, 2873079, 2757266, 2645728, 2538325, 2434919, 2335380, 2239575, 2147382, 2058677, 1973342, 1891262,
    1812325, 1736424, 1663453, 1593311, 1525898, 1461118, 1398879, 1339091, 1281666, 1226519, 1173569, 1122736,
    1073944, 1027117, 982185, 939076, 897725, 858065, 820033, 783568, 748612, 715108, 682999, 652233, 622759, 594527,
    567488, 541597, 516808, 493079, 470368, 448635, 427841, 407948, 388921, 370725, 353326, 336692, 320792, 305596,
    291075, 277202, 263950, 251292, 239204, 227663, 216646, 206130, 196094, 186517, 177381, 168667, 160356, 152430,
    144874, 137671, 130806, 124264, 118031, 112093, 106437, 101050, 95921, 91039, 86391, 81968, 77759, 73755, 69945,
    66322, 62877, 59602, 56488, 53528, 50716, 48043, 45505, 43093, 40803, 38629, 36564, 34604, 32745, 30980, 29305,
    27717, 26211, 24782, 23428, 22144, 20927, 19774, 18681, 17646, 16665, 15737, 14857, 14025, 13237, 12491, 11786,
    11118, 10487, 9890, 9325, 8791, 8287, 7810, 7359, 6933, 6531, 6151, 5792, 5453, 5133, 4831, 4547, 4278, 4024,
    3785, 3560, 3347, 3147, 2958, 2779, 2612, 2454, 2305, 2164, 2032, 1908, 1791, 1681, 1577, 1480, 1388, 1302, 1221,
    1145, 1073, 1006, 942, 883, 827, 775, 725, 679, 636, 595, 557, 521, 487, 456, 426, 399, 373, 348, 325, 304, 284,
    265, 248, 231, 216, 202, 188, 175, 164, 153, 142, 133, 124, 115, 107, 100, 93, 87, 81, 75, 70, 65, 61, 56, 53, 49,
    45, 42, 39, 36, 34, 31, 29, 27, 25, 23, 22, 20, 19, 17, 16, 15, 14, 13, 12, 11, 10, 9, 9, 8, 7, 7, 6, 6, 5, 5, 5,
    4, 4, 4, 3, 3, 3, 3, 2, 2, 2, 2, 2, 2, 2, 1, 1, 1, 1, 1, 1, 1, 1, 1, 1, 1, 1, 1, 0, 0]

def smoothCoeff (i : Nat) : Nat := peggySmoothCoeffs.getD i 0

/-- What one round of the loop adds to `sum` and `den`: a weight and a price that is known. -/
structure Term where
  coeff : Nat
  pval : Nat

/-- The rounds end in front of minute 1. -/
def historyRounds (feed : PriceFeed) (minute : Nat) : List Nat :=
  (List.range peggyNumcoeffs).filter fun i => 1 ≤ i ∧ i < minute ∧ peggyPrice feed (minute - i) ≠ 0

/-- The new price, and before it the known prices of the last minutes. -/
def terms (feed : PriceFeed) (minute newpval : Nat) : List Term :=
  ⟨smoothCoeff 0, newpval⟩ :: (historyRounds feed minute).map fun i => ⟨smoothCoeff i, peggyPrice feed (minute - i)⟩

def Term.product (t : Term) : Nat := t.coeff * t.pval

/-- The average, drawn an eighth of the way to the new price where it lies farther from it than the spread. -/
def blendPrice (spread : Int) (newpval sum den : Nat) : Nat :=
  let gap := u64 ((spread * newpval).tdiv priceResolution)
  let price := sum / den
  if den = 0 then newpval
  else if ((price : Int) - newpval).natAbs < gap then price
  else (price * 7 + newpval) / 8

def currentMinute (genesistime now : Nat) : Nat := u32 (now - genesistime) / peggyMinute

/-- The feed and the new price; a price of 0 changes nothing. -/
def peggyNewprice (feed : PriceFeed) (spread : Int) (genesistime now newpval : Nat) : PriceFeed × Nat :=
  if newpval = 0 then (feed, 0)
  else
    let minute := currentMinute genesistime now
    let sum := tally 64 (fun t => u64 t.product) (terms feed minute newpval)
    let den := tally 64 Term.coeff (terms feed minute newpval)
    let newprice := blendPrice spread newpval sum den
    ((peggySetprice feed newprice minute).1, newprice)

section
variable (feed : PriceFeed) (spread : Int) (minute newpval : Nat)

def exactSum : Nat := ((terms feed minute newpval).map Term.product).sum

def exactDen : Nat := ((terms feed minute newpval).map Term.coeff).sum

/-- What is handed to the table when no sum overflows. -/
def exactPrice : Int := clipPrice (blendPrice spread newpval (exactSum feed minute newpval) (exactDen feed minute newpval))

/-- The new price, the prices averaged with it, and the entry that is there. -/
def averagedPrices : Set Nat :=
  {p | (∃ t ∈ terms feed minute newpval, t.pval = p) ∨ (p = feed.baseprices minute ∧ p ≠ 0)}

/-- The 32-bit sum with the entry that is there does not wrap, or wraps to no less than twice one of the prices. -/
def Mergeable : Prop :=
  feed.baseprices minute = 0 ∨ exactPrice feed spread minute newpval + feed.baseprices minute < 2^32 ∨
    ∃ a ∈ averagedPrices feed minute newpval,
      2^32 + 2 * (a : Int) ≤ exactPrice feed spread minute newpval + feed.baseprices minute

/-- The sums fit 64 bits and the stored entry is an average of what went into it. -/
structure Smoothed (genesistime now : Nat) : Prop where
  sum : exactSum feed (currentMinute genesistime now) newpval < 2^64
  den : exactDen feed (currentMinute genesistime now) newpval < 2^64
  average : Within (averagedPrices feed (currentMinute genesistime now) newpval)
    ((peggyNewprice feed spread genesistime now newpval).1.baseprices (currentMinute genesistime now))

end

theorem range_coeffs : List.range peggyNumcoeffs = 0 :: (List.range 538).map Nat.succ := List.range_succ_eq_map

theorem smoothCoeffs_range : (List.range peggyNumcoeffs).map smoothCoeff = peggySmoothCoeffs := by
  have hlen : peggySmoothCoeffs.length = peggyNumcoeffs := by decide +kernel
  apply List.ext_getElem
  · rw [List.length_map, List.length_range, hlen]
  · intro i _ hi
    rw [List.getElem_map, List.getElem_range, smoothCoeff, List.getD_eq_getElem?_getD, List.getElem?_eq_getElem hi,
      Option.getD_some]

theorem smoothCoeffs_sum : ((List.range peggyNumcoeffs).map smoothCoeff).sum = 100000000000 := by
  rw [smoothCoeffs_range]
  decide +kernel

section
variable {feed : PriceFeed} {spread : Int} {minute newpval : Nat}

theorem exactDen_eq : exactDen feed minute newpval = ((0 :: historyRounds feed minute).map smoothCoeff).sum := by
  simp [exactDen, terms, Function.comp_def]

/-- The weights of the known prices are some of the 539. -/
theorem exactDen_le : exactDen feed minute newpval ≤ 100000000000 := by
  have hrounds : (0 :: historyRounds feed minute).Sublist (List.range peggyNumcoeffs) := by
    rw [historyRounds, range_coeffs, List.filter_cons_of_neg (by simp)]
    exact List.Sublist.cons_cons 0 List.filter_sublist
  rw [exactDen_eq, ← smoothCoeffs_sum]
  exact (hrounds.map smoothCoeff).sum_le_sum fun _ _ => Nat.zero_le _

theorem exactDen_bounds : exactDen feed minute newpval ≠ 0 ∧ exactDen feed minute newpval < 2^64 := by
  have hle : exactDen feed minute newpval ≤ 100000000000 := exactDen_le
  have hfirst : smoothCoeff 0 ≤ exactDen feed minute newpval := Nat.le_add_right _ _
  have hpos : smoothCoeff 0 = 962714545 := rfl
  omega

/-- Prices of up to 18.4 never fill the 64 bits of the sum. -/
theorem exactSum_le {hi : Nat} (h : ∀ t ∈ terms feed minute newpval, t.pval ≤ hi) :
    exactSum feed minute newpval ≤ 100000000000 * hi := by
  have hsum : exactSum feed minute newpval ≤ exactDen feed minute newpval * hi := sum_mul_le h
  exact hsum.trans (Nat.mul_le_mul_right hi exactDen_le)

theorem known_of_mem_terms {t : Term} (ht : t ∈ terms feed minute newpval) :
    t.pval = newpval ∨ ∃ m, 0 < m ∧ m < minute ∧ peggyPrice feed m = t.pval ∧ t.pval ≠ 0 := by
  rcases List.mem_cons.mp ht with rfl | ht
  · exact .inl rfl
  · obtain ⟨i, hi, rfl⟩ := List.mem_map.mp ht
    have hround := (List.mem_filter.mp hi).2
    simp only [decide_eq_true_eq] at hround
    exact .inr ⟨minute - i, by omega, by omega, rfl, hround.2.2⟩

/-- Where the new price is known for all the minutes before, it takes all the weights. -/
theorem exactDen_held (hminute : peggyNumcoeffs ≤ minute) (h0 : newpval ≠ 0)
    (hheld : ∀ m, 0 < m → m < minute → peggyPrice feed m = newpval) : exactDen feed minute newpval = 100000000000 := by
  have hrounds : historyRounds feed minute = (List.range 538).map Nat.succ := by
    rw [historyRounds, range_coeffs, List.filter_cons_of_neg (by simp), List.filter_eq_self]
    intro i hi
    obtain ⟨k, hk, rfl⟩ := List.mem_map.mp hi
    have hlt := List.mem_range.mp hk
    rw [peggyNumcoeffs] at hminute
    have hprice := hheld (minute - k.succ) (by omega) (by omega)
    exact decide_eq_true ⟨k.succ_pos, by omega, hprice.trans_ne h0⟩
  rw [exactDen_eq, hrounds, ← range_coeffs, smoothCoeffs_sum]

theorem exactSum_held (hminute : peggyNumcoeffs ≤ minute) (h0 : newpval ≠ 0)
    (hheld : ∀ m, 0 < m → m < minute → peggyPrice feed m = newpval) :
    exactSum feed minute newpval = 100000000000 * newpval := by
  have hall : ∀ t ∈ terms feed minute newpval, t.pval = newpval := by
    intro t ht
    rcases known_of_mem_terms ht with hnew | ⟨m, hpos, hlt, hprice, -⟩
    · exact hnew
    · exact hprice.symm.trans (hheld m hpos hlt)
  apply Nat.le_antisymm
  · exact exactSum_le fun t ht => (hall t ht).le
  · have hge : exactDen feed minute newpval * newpval ≤ exactSum feed minute newpval :=
      le_sum_mul fun t ht => (hall t ht).ge
    rwa [exactDen_held hminute h0 hheld] at hge

theorem den_tally : tally 64 Term.coeff (terms feed minute newpval) = exactDen feed minute newpval :=
  tally_of_lt exactDen_bounds.2

theorem sum_tally : tally 64 (fun t => u64 t.product) (terms feed minute newpval) = exactSum feed minute newpval % 2^64 := by
  rw [tally_words, tally_eq, exactSum]

theorem newpval_averaged (feed : PriceFeed) (minute newpval : Nat) : newpval ∈ averagedPrices feed minute newpval :=
  .inl ⟨_, List.mem_cons_self, rfl⟩

/-- The average of the known prices, drawn to the new one or not, is an average of them. -/
theorem blend_within (feed : PriceFeed) (spread : Int) (minute newpval : Nat) :
    Within (averagedPrices feed minute newpval)
      (blendPrice spread newpval (exactSum feed minute newpval) (exactDen feed minute newpval)) := by
  have haverage : Within (averagedPrices feed minute newpval)
      (exactSum feed minute newpval / exactDen feed minute newpval) :=
    (within_average (w := Term.coeff) (v := Term.pval) exactDen_bounds.1).mono fun p hp => .inl hp
  have hnew := within_of_mem (newpval_averaged feed minute newpval)
  rw [blendPrice, if_neg exactDen_bounds.1]
  generalize exactSum feed minute newpval / exactDen feed minute newpval = average at haverage ⊢
  split
  · exact haverage
  · apply haverage.between hnew <;> omega

/-- Every averaged price is known, so that the price handed to the table is not zero. -/
theorem averaged_pos (h0 : 0 < newpval) {p : Nat} (hp : p ∈ averagedPrices feed minute newpval) : 0 < p := by
  rcases hp with ⟨t, ht, rfl⟩ | ⟨-, hpos⟩
  · rcases known_of_mem_terms ht with hnew | ⟨m, -, -, -, hknown⟩
    · exact hnew ▸ h0
    · exact Nat.pos_of_ne_zero hknown
  · exact Nat.pos_of_ne_zero hpos

/-- A price cut to the largest is still not below the new price. -/
theorem exactPrice_within (feed : PriceFeed) (spread : Int) (minute : Nat) (h0 : 0 < newpval)
    (hmax : (newpval : Int) ≤ priceResolutionMaxpval) :
    ∃ p : Nat, exactPrice feed spread minute newpval = p ∧ 0 < p ∧ (p : Int) ≤ priceResolutionMaxpval ∧
      Within (averagedPrices feed minute newpval) p := by
  have hblend := blend_within feed spread minute newpval
  obtain ⟨a, ha, hle⟩ := hblend.1
  have hpos := (averaged_pos h0 ha).trans_le hle
  rw [exactPrice]
  generalize blendPrice spread newpval (exactSum feed minute newpval) (exactDen feed minute newpval) = price at hblend hpos
  rw [clipPrice]
  split
  case isTrue hclip =>
    have hnew := within_of_mem (newpval_averaged feed minute newpval)
    rw [priceResolutionMaxpval] at hclip hmax ⊢
    exact ⟨3037000500, rfl, by decide, le_rfl, hblend.between hnew (by omega) (by omega)⟩
  case isFalse hclip =>
    rw [if_neg (by omega)]
    exact ⟨price, rfl, hpos, not_lt.mp hclip, hblend⟩

theorem merged_within_iff (h0 : 0 < newpval) (hmax : (newpval : Int) ≤ priceResolutionMaxpval)
    (hentry : (feed.baseprices minute : Int) ≤ priceResolutionMaxpval) :
    Within (averagedPrices feed minute newpval)
        (mergedPrice (exactPrice feed spread minute newpval) (feed.baseprices minute)) ↔
      Mergeable feed spread minute newpval := by
  obtain ⟨p, hp, hpos, hle, hwithin⟩ := exactPrice_within feed spread minute h0 hmax
  rw [Mergeable, hp]
  have hmember : feed.baseprices minute ≠ 0 → feed.baseprices minute ∈ averagedPrices feed minute newpval :=
    fun hset => .inr ⟨rfl, hset⟩
  generalize feed.baseprices minute = entry at hentry hmember ⊢
  have hmerged := fun hfits => mergedPrice_bounds (Int.natCast_pos.mpr hpos) hle (hfits : entry = 0 ∨ _)
  by_cases hset : entry = 0
  · refine iff_of_true ?_ (.inl hset)
    have heq := (hmerged (.inl hset)).1 hset
    rwa [Int.natCast_inj.mp heq]
  · by_cases hsum : (p : Int) + entry < 2^32
    · refine iff_of_true ?_ (.inr (.inl hsum))
      obtain ⟨hlow, hhigh⟩ := (hmerged (.inr hsum)).2 hset
      exact hwithin.between (within_of_mem (hmember hset)) (by exact_mod_cast hlow) (by exact_mod_cast hhigh)
    · have hwrap := mergedPrice_wrap hle hentry (not_lt.mp hsum)
      rw [priceResolutionMaxpval] at hle hentry
      constructor
      · rintro ⟨⟨a, ha, hlow⟩, -⟩
        exact .inr (.inr ⟨a, ha, by omega⟩)
      · rintro (hzero | hless | ⟨a, ha, hlow⟩)
        · exact absurd hzero hset
        · exact absurd hless hsum
        · refine ⟨⟨a, ha, by omega⟩, ?_⟩
          rcases le_total p entry with hcmp | hcmp
          · exact ⟨entry, hmember hset, by omega⟩
          · obtain ⟨b, hb, hhigh⟩ := hwithin.2
            exact ⟨b, hb, by omega⟩

/-- The stored price is an average, with the entry that is there, as long as the products add up within 64 bits and
the sum with the entry does not wrap below twice the smallest price. -/
theorem newprice_smoothed_iff {genesistime now : Nat} (hpriced : feed.hasprice = true) (h0 : 0 < newpval)
    (hmax : (newpval : Int) ≤ priceResolutionMaxpval)
    (hhistory : ∀ m, (feed.baseprices m : Int) ≤ priceResolutionMaxpval) :
    Smoothed feed spread newpval genesistime now ↔
      exactSum feed (currentMinute genesistime now) newpval < 2^64 ∧
        Mergeable feed spread (currentMinute genesistime now) newpval := by
  have hstored : exactSum feed (currentMinute genesistime now) newpval < 2^64 →
      (peggyNewprice feed spread genesistime now newpval).1.baseprices (currentMinute genesistime now) =
        mergedPrice (exactPrice feed spread (currentMinute genesistime now) newpval)
          (feed.baseprices (currentMinute genesistime now)) := by
    intro hsum
    simp only [peggyNewprice, if_neg h0.ne', sum_tally, Nat.mod_eq_of_lt hsum, den_tally]
    exact setprice_entry hpriced _ _
  constructor
  · rintro ⟨hsum, -, haverage⟩
    rw [hstored hsum, merged_within_iff h0 hmax (hhistory _)] at haverage
    exact ⟨hsum, haverage⟩
  · rintro ⟨hsum, hmerge⟩
    refine ⟨hsum, exactDen_bounds.2, ?_⟩
    rwa [hstored hsum, merged_within_iff h0 hmax (hhistory _)]

end

/-- A table that has held one price for ten hours. -/
def flatFeed (price : Nat) : PriceFeed := ⟨true, fun m => if m < 600 then price else 0, fun _ => 0, 0, 0, 599⟩

theorem flat_price {price minute : Nat} (hprice : price ≠ 0) (h0 : 0 < minute) (h : minute < 600) :
    peggyPrice (flatFeed price) minute = price := by
  have hstart : ∃ n < 600, (flatFeed price).lookback minute = n + 1 := by
    rw [PriceFeed.lookback]
    split
    case isTrue hnow => exact ⟨minute - 1, by omega, by omega⟩
    case isFalse => exact ⟨minute, h, rfl⟩
  obtain ⟨n, hn, hlookback⟩ := hstart
  have hentry : (flatFeed price).baseprices n = price := if_pos hn
  rw [price_of_entry rfl hlookback (hentry.trans_ne hprice), hentry]

theorem newprice_smoothed_flat : Smoothed (flatFeed 10004569) 100045 20009138 0 36000 := by
  refine (newprice_smoothed_iff rfl (by decide) (by decide) fun m => ?_).mpr ⟨?_, .inl (by decide)⟩
  · simp only [flatFeed]
    split <;> decide
  · have hle : exactSum (flatFeed 10004569) 600 20009138 ≤ 100000000000 * 20009138 := by
      apply exactSum_le
      intro t ht
      rcases known_of_mem_terms ht with hnew | ⟨m, hpos, hlt, hprice, -⟩
      · exact hnew.le
      · rw [← hprice, flat_price (by decide) hpos hlt]
        decide
    exact hle.trans_lt (by decide)

/-- At the highest price the products add up to far more than 64 bits hold. -/
theorem newprice_overflows :
    exactSum (flatFeed 3037000500) 600 3037000500 = 303700050000000000000 ∧
      (peggyNewprice (flatFeed 3037000500) 0 0 36000 3037000500).2 ≠ 3037000500 ∧
      ¬ ∀ (feed : PriceFeed) (spread : Int) (newpval genesistime now : Nat), feed.hasprice = true → 0 < newpval →
        (newpval : Int) ≤ priceResolutionMaxpval → (∀ m, (feed.baseprices m : Int) ≤ priceResolutionMaxpval) →
          Smoothed feed spread newpval genesistime now := by
  have hheld : ∀ m, 0 < m → m < 600 → peggyPrice (flatFeed 3037000500) m = 3037000500 := fun m => flat_price (by decide)
  have hsum : exactSum (flatFeed 3037000500) 600 3037000500 = 303700050000000000000 :=
    exactSum_held (by decide) (by decide) hheld
  have hminute : currentMinute 0 36000 = 600 := by decide
  have hstored : (peggyNewprice (flatFeed 3037000500) 0 0 36000 3037000500).2 ≠ 3037000500 := by
    have hden := exactDen_held (by decide) (by decide) hheld
    simp only [peggyNewprice, sum_tally, den_tally, hminute, hsum, hden]
    decide
  refine ⟨hsum, hstored, fun h => ?_⟩
  have hsmoothed := h (flatFeed 3037000500) 0 3037000500 0 36000 rfl (by decide) (by decide) fun m => by
    simp only [flatFeed]
    split <;> decide
  have hlt := hsmoothed.sum
  rw [hminute, hsum] at hlt
  exact absurd hlt (by decide)

end SuperNet.Peggy.Peggy777
