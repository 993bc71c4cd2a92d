import SuperNet.Peggy.PeggyValuation

/-! The price table of a peg: `peggy_setprice` stores and fills back, `peggy_price` reads and walks back. -/
namespace SuperNet.Peggy.Peggy777
open Lib.Words Lib.Averages

/-- `front` and `relfront` are the words in front of the tables, at minute -1. -/
structure PriceFeed where
  hasprice : Bool
  baseprices : Nat → Nat
  relprices : Nat → Nat
  front : Nat
  relfront : Nat
  rtminute : Nat

def clipPrice (price : Int) : Int :=
  if priceResolutionMaxpval < price then priceResolutionMaxpval else if price ≤ 0 then 0 else price

/-- The price to store, averaged in 32 bits with an entry that is there. -/
def mergedPrice (price : Int) (entry : Nat) : Nat := if entry ≠ 0 then u32 (price + entry) / 2 else u32 price

/-- The loop downwards over empty entries, which leaves minute 0 out, and the minute at which it ends. -/
def backfill (pval : Nat) (prices : Nat → Nat) : Nat → (Nat → Nat) × Int
  | 0 => (prices, -1)
  | minute+1 =>
    if 0 < minute ∧ prices minute = 0 then backfill pval (Function.update prices minute pval) minute
    else (prices, minute)

def peggySetprice (feed : PriceFeed) (price : Int) (minute : Nat) : PriceFeed × Int :=
  if feed.hasprice then
    let entry := feed.baseprices minute
    let pval := mergedPrice (clipPrice price) entry
    let filled := backfill pval (Function.update feed.baseprices minute pval) minute
    ({ feed with
        baseprices := filled.1
        rtminute := if entry = 0 ∧ feed.rtminute < minute then minute else feed.rtminute }, filled.2)
  else (feed, minute)

/-- The minute at which the walk over zeros ends, from the last of the first `n` minutes. -/
def walkBack (prices : Nat → Nat) : Nat → Int
  | 0 => -1
  | n+1 => if prices n = 0 then walkBack prices n else n

/-- The minutes that this walk reads. -/
def walkReads (prices : Nat → Nat) : Nat → List Int
  | 0 => [-1]
  | n+1 => n :: if prices n = 0 then walkReads prices n else []

def entryAt (prices : Nat → Nat) (front : Nat) (minute : Int) : Nat := if minute < 0 then front else prices minute.toNat

/-- The minutes from which `peggy_price` starts its walk; the current minute is left out. -/
def PriceFeed.lookback (feed : PriceFeed) (minute : Nat) : Nat := if minute = feed.rtminute then minute else minute + 1

def peggyPrice (feed : PriceFeed) (minute : Nat) : Nat :=
  let minute := walkBack feed.baseprices (feed.lookback minute)
  let price := entryAt feed.baseprices feed.front minute
  if feed.hasprice then price
  else
    let relprice := entryAt feed.relprices feed.relfront minute
    if relprice = 0 then 0
    else if (price : Int) < priceResolutionMaxpval then priceResolution * price / relprice
    else priceResolutionRoot * (priceResolutionRoot * price / relprice)

/-- The minutes whose entries `peggy_price` reads. -/
def priceReads (feed : PriceFeed) (minute : Nat) : List Int := walkReads feed.baseprices (feed.lookback minute)

/-- Where an entry is set at the first minute read, it is the price. -/
theorem price_of_entry {feed : PriceFeed} {minute n : Nat} (h : feed.hasprice = true) (hn : feed.lookback minute = n + 1)
    (hentry : feed.baseprices n ≠ 0) : peggyPrice feed minute = feed.baseprices n := by
  have hwalk : walkBack feed.baseprices (n + 1) = n := if_neg hentry
  simp only [peggyPrice, hn, hwalk, if_pos h]
  rfl

section
variable {pval : Nat} {prices : Nat → Nat} {n m : Nat}

theorem backfill_kept (h : n ≤ m ∨ m = 0 ∨ prices m ≠ 0) : (backfill pval prices n).1 m = prices m := by
  induction n generalizing prices with
  | zero => rfl
  | succ n ih =>
    rw [backfill]
    split
    case isTrue hempty =>
      have hne : m ≠ n := by
        rintro rfl
        omega
      have hsame : Function.update prices n pval m = prices m := Function.update_of_ne hne _ _
      rw [ih (by rw [hsame]; omega), hsame]
    case isFalse => rfl

theorem backfill_filled (h0 : 0 < m) (h : m < n) (hempty : ∀ k, m ≤ k → k < n → prices k = 0) :
    (backfill pval prices n).1 m = pval := by
  induction n generalizing prices with
  | zero => omega
  | succ n ih =>
    rw [backfill, if_pos ⟨by omega, hempty n (by omega) (by omega)⟩]
    rcases Nat.lt_succ_iff_lt_or_eq.mp h with hlt | rfl
    · apply ih hlt
      intro k hk hkn
      rw [Function.update_of_ne (by omega)]
      exact hempty k hk (by omega)
    · rw [backfill_kept (.inl (Nat.le_refl m)), Function.update_self]

theorem backfill_or : (backfill pval prices n).1 m = prices m ∨ (backfill pval prices n).1 m = pval := by
  induction n generalizing prices with
  | zero => exact .inl rfl
  | succ n ih =>
    rw [backfill]
    split
    case isTrue hempty =>
      rcases @ih (Function.update prices n pval) with heq | heq
      · by_cases hm : m = n
        · subst hm
          exact .inr (heq.trans (Function.update_self _ _ _))
        · exact .inl (heq.trans (Function.update_of_ne hm _ _))
      · exact .inr heq
    case isFalse => exact .inl rfl

end

section
variable {feed : PriceFeed} {price : Int} {minute m : Nat}

/-- What `peggy_setprice` stores at the minute itself. -/
def PriceFeed.stored (feed : PriceFeed) (price : Int) (minute : Nat) : Nat :=
  mergedPrice (clipPrice price) (feed.baseprices minute)

theorem setprice_baseprices (h : feed.hasprice = true) :
    (peggySetprice feed price minute).1.baseprices =
      (backfill (feed.stored price minute) (Function.update feed.baseprices minute (feed.stored price minute)) minute).1 := by
  rw [peggySetprice, if_pos h]
  rfl

theorem setprice_rtminute (h : feed.hasprice = true) :
    (peggySetprice feed price minute).1.rtminute =
      if feed.baseprices minute = 0 ∧ feed.rtminute < minute then minute else feed.rtminute := by
  rw [peggySetprice, if_pos h]

theorem setprice_hasprice : (peggySetprice feed price minute).1.hasprice = feed.hasprice := by
  rw [peggySetprice]
  split <;> rfl

theorem setprice_entry (h : feed.hasprice = true) (price : Int) (minute : Nat) :
    (peggySetprice feed price minute).1.baseprices minute = feed.stored price minute := by
  rw [setprice_baseprices h, backfill_kept (.inl (Nat.le_refl minute)), Function.update_self]

theorem setprice_kept (h : feed.hasprice = true) (hm : m ≠ minute) (hkept : minute ≤ m ∨ m = 0 ∨ feed.baseprices m ≠ 0) :
    (peggySetprice feed price minute).1.baseprices m = feed.baseprices m := by
  have hother : Function.update feed.baseprices minute (feed.stored price minute) m = feed.baseprices m :=
    Function.update_of_ne hm _ _
  rw [setprice_baseprices h, backfill_kept (by rwa [hother]), hother]

theorem setprice_filled (h : feed.hasprice = true) (h0 : 0 < m) (hm : m < minute)
    (hempty : ∀ k, m ≤ k → k < minute → feed.baseprices k = 0) :
    (peggySetprice feed price minute).1.baseprices m = feed.stored price minute := by
  rw [setprice_baseprices h]
  apply backfill_filled h0 hm
  intro k hk hlt
  rw [Function.update_of_ne (by omega)]
  exact hempty k hk hlt

theorem setprice_or (h : feed.hasprice = true) (price : Int) (minute m : Nat) :
    (peggySetprice feed price minute).1.baseprices m = feed.stored price minute ∨
      (peggySetprice feed price minute).1.baseprices m = feed.baseprices m := by
  by_cases hm : m = minute
  · rw [hm]
    exact .inl (setprice_entry h price minute)
  · rw [setprice_baseprices h]
    rcases @backfill_or (feed.stored price minute) (Function.update feed.baseprices minute (feed.stored price minute))
      minute m with heq | heq
    · exact .inr (heq.trans (Function.update_of_ne hm _ _))
    · exact .inl heq

end

/-- A call of `peggy_setprice`. -/
structure Setting where
  price : Int
  minute : Nat

/-- A price that `peggy_setprice` takes as it is. -/
def Setting.Priced (s : Setting) : Prop := 0 < s.price ∧ s.price ≤ priceResolutionMaxpval

/-- No entry is there, or its sum with the price fits 32 bits. -/
def Setting.Unwrapped (s : Setting) (feed : PriceFeed) : Prop :=
  feed.baseprices s.minute = 0 ∨ s.price + feed.baseprices s.minute < 2^32

def setAll (feed : PriceFeed) (settings : List Setting) : PriceFeed :=
  settings.foldl (fun feed s => (peggySetprice feed s.price s.minute).1) feed

/-- Every setting along the run finds its minute empty or its sum within 32 bits. -/
def UnwrappedRun (feed : PriceFeed) : List Setting → Prop
  | [] => True
  | s :: settings => s.Unwrapped feed ∧ UnwrappedRun (peggySetprice feed s.price s.minute).1 settings

def pricesSet (settings : List Setting) : Set Int := {price | ∃ s ∈ settings, s.price = price}

/-- The value lies between two of the prices set. -/
def Between (settings : List Setting) (x : Nat) : Prop := Within (pricesSet settings) (x : Int)

/-- The table of a priced peg after `settings`: full from minute 1 to `RTminute`, and empty beyond. -/
structure Filled (settings : List Setting) (feed : PriceFeed) : Prop where
  priced : feed.hasprice = true
  full : ∀ m, 1 ≤ m → m ≤ feed.rtminute → feed.baseprices m ≠ 0
  empty : ∀ m, feed.rtminute < m → feed.baseprices m = 0
  genesis : feed.baseprices 0 ≠ 0 ↔ ∃ s ∈ settings, s.minute = 0
  between : ∀ m, feed.baseprices m ≠ 0 → Between settings (feed.baseprices m)

theorem Between.mono {settings : List Setting} {x : Nat} (h : Between settings x) (more : List Setting) :
    Between (settings ++ more) x := by
  apply Within.mono h
  rintro price ⟨s, hs, rfl⟩
  exact ⟨s, List.mem_append_left _ hs, rfl⟩

theorem clipPrice_of_priced {s : Setting} (h : s.Priced) : clipPrice s.price = s.price := by
  rw [clipPrice, if_neg (not_lt.mpr h.2), if_neg (not_le.mpr h.1)]

/-- Without a wrap the stored price lies between the price and the entry. -/
theorem mergedPrice_bounds {price : Int} {entry : Nat} (h0 : 0 < price) (hmax : price ≤ priceResolutionMaxpval)
    (h : entry = 0 ∨ price + entry < 2^32) :
    (entry = 0 → (mergedPrice price entry : Int) = price) ∧
      (entry ≠ 0 → min price entry ≤ mergedPrice price entry ∧ (mergedPrice price entry : Int) ≤ max price entry) := by
  rw [priceResolutionMaxpval] at hmax
  constructor
  · intro hentry
    rw [mergedPrice, if_neg (not_not.mpr hentry)]
    exact unsigned_of_bounds h0.le (by omega)
  · intro hentry
    have hword : ((u32 (price + entry) : Nat) : Int) = price + entry := unsigned_of_bounds (by omega) (by omega)
    rw [mergedPrice, if_pos hentry]
    omega

/-- With a wrap it is half of what the sum exceeds 32 bits by. -/
theorem mergedPrice_wrap {price : Int} {entry : Nat} (hmax : price ≤ priceResolutionMaxpval)
    (hentry : (entry : Int) ≤ priceResolutionMaxpval) (h : 2^32 ≤ price + entry) :
    (mergedPrice price entry : Int) = (price + entry - 2^32) / 2 := by
  rw [priceResolutionMaxpval] at hmax hentry
  have hset : entry ≠ 0 := by omega
  have hword : ((u32 (price + entry) : Nat) : Int) = price + entry - 2^32 := by
    simp only [u32, unsigned]
    omega
  rw [mergedPrice, if_pos hset, Int.natCast_ediv, hword]
  rfl

theorem Filled.stored {settings : List Setting} {feed : PriceFeed} {s : Setting} (h : Filled settings feed)
    (hs : s.Priced) (hfits : s.Unwrapped feed) :
    Between (settings ++ [s]) (feed.stored s.price s.minute) ∧ feed.stored s.price s.minute ≠ 0 := by
  have hprice : Within (pricesSet (settings ++ [s])) s.price :=
    within_of_mem ⟨s, List.mem_append_right _ (List.mem_singleton_self s), rfl⟩
  obtain ⟨hnew, hmerged⟩ := mergedPrice_bounds hs.1 hs.2 hfits
  have hpos := hs.1
  rw [PriceFeed.stored, clipPrice_of_priced hs]
  by_cases hentry : feed.baseprices s.minute = 0
  · have heq := hnew hentry
    refine ⟨?_, by omega⟩
    rwa [Between, heq]
  · obtain ⟨hlow, hhigh⟩ := hmerged hentry
    exact ⟨hprice.between ((h.between s.minute hentry).mono [s]) hlow hhigh, by omega⟩

/-- One setting keeps the table full, wherever its minute lies. -/
theorem Filled.setprice {settings : List Setting} {feed : PriceFeed} {s : Setting} (h : Filled settings feed)
    (hs : s.Priced) (hfits : s.Unwrapped feed) :
    Filled (settings ++ [s]) (peggySetprice feed s.price s.minute).1 := by
  obtain ⟨hvalue, hpos⟩ := h.stored hs hfits
  have hmem : s ∈ settings ++ [s] := List.mem_append_right _ (List.mem_singleton_self s)
  have hrt : (peggySetprice feed s.price s.minute).1.rtminute = max feed.rtminute s.minute := by
    have hempty := h.empty s.minute
    rw [setprice_rtminute h.priced]
    split <;> omega
  refine ⟨setprice_hasprice.trans h.priced, fun m hm hle => ?full, fun m hm => ?empty, ?genesis, fun m hm => ?between⟩
  case full =>
    rw [hrt] at hle
    by_cases hminute : m = s.minute
    · rw [hminute, setprice_entry h.priced]
      exact hpos
    · by_cases hentry : feed.baseprices m = 0
      · have hbeyond : feed.rtminute < m := by
          by_contra hwithin
          exact h.full m hm (not_lt.mp hwithin) hentry
        rw [setprice_filled h.priced hm (by omega) fun k hk _ => h.empty k (by omega)]
        exact hpos
      · rw [setprice_kept h.priced hminute (.inr (.inr hentry))]
        exact hentry
  case empty =>
    rw [hrt] at hm
    rw [setprice_kept h.priced (by omega) (.inl (by omega))]
    exact h.empty m (by omega)
  case genesis =>
    by_cases hminute : s.minute = 0
    · have hset := setprice_entry h.priced s.price s.minute
      rw [hminute] at hset hpos ⊢
      rw [hset]
      exact iff_of_true hpos ⟨s, hmem, hminute⟩
    · rw [setprice_kept h.priced (Ne.symm hminute) (.inr (.inl rfl)), h.genesis]
      constructor
      · rintro ⟨a, ha, hzero⟩
        exact ⟨a, List.mem_append_left _ ha, hzero⟩
      · rintro ⟨a, ha, hzero⟩
        rcases List.mem_append.mp ha with hold | hnew
        · exact ⟨a, hold, hzero⟩
        · rw [List.mem_singleton.mp hnew] at hzero
          exact absurd hzero hminute
  case between =>
    rcases setprice_or h.priced s.price s.minute m with heq | heq
    · rw [heq]
      exact hvalue
    · rw [heq] at hm ⊢
      exact (h.between m hm).mono [s]

theorem Filled.setAll {settings more : List Setting} {feed : PriceFeed} (h : Filled settings feed)
    (hpriced : ∀ s ∈ more, s.Priced) (hrun : UnwrappedRun feed more) : Filled (settings ++ more) (setAll feed more) := by
  induction more generalizing settings feed with
  | nil => rwa [List.append_nil]
  | cons s more ih =>
    have hstep := h.setprice (hpriced s List.mem_cons_self) hrun.1
    have hrest := ih hstep (fun a ha => hpriced a (List.mem_cons_of_mem s ha)) hrun.2
    rwa [List.append_assoc] at hrest

/-- The table of a priced peg before the first price; the word in front of it is not part of it. -/
def emptyFeed (front : Nat) : PriceFeed := ⟨true, fun _ => 0, fun _ => 0, front, 0, 0⟩

theorem emptyFeed_filled (front : Nat) : Filled [] (emptyFeed front) where
  priced := rfl
  full m hm hle := by
    simp only [emptyFeed] at hle
    omega
  empty m _ := rfl
  genesis := by simp [emptyFeed]
  between m hm := absurd rfl hm

/-- The first minute read; the current minute is left out. -/
def PriceFeed.start (feed : PriceFeed) (minute : Nat) : Int := (feed.lookback minute : Int) - 1

/-- The price is an entry between those set, and no minute outside the table is read. -/
structure ReadsEntry (settings : List Setting) (feed : PriceFeed) (minute : Nat) : Prop where
  inside : ∀ i ∈ priceReads feed minute, 0 ≤ i ∧ i ≤ feed.rtminute
  entry : ∃ m ≤ feed.rtminute, peggyPrice feed minute = feed.baseprices m ∧ Between settings (feed.baseprices m)

/-- Reads stay in the table except for the minutes from which the walk reaches an empty minute 0. -/
theorem Filled.readsEntry_iff {settings : List Setting} {feed : PriceFeed} (h : Filled settings feed) {minute : Nat}
    (hminute : minute ≤ feed.rtminute) :
    ReadsEntry settings feed minute ↔
      1 ≤ feed.start minute ∨ feed.start minute = 0 ∧ ∃ s ∈ settings, s.minute = 0 := by
  have hlookback : feed.lookback minute ≤ feed.rtminute + 1 := by
    rw [PriceFeed.lookback]
    split <;> omega
  rw [PriceFeed.start, ← h.genesis]
  cases hn : feed.lookback minute with
  | zero =>
    refine iff_of_false (fun hreads => ?_) (by omega)
    have hfront := hreads.inside (-1) (by simp [priceReads, hn, walkReads])
    omega
  | succ n =>
    by_cases hentry : feed.baseprices n = 0
    · have hzero : n = 0 := by
        by_contra hpos
        exact h.full n (Nat.one_le_iff_ne_zero.mpr hpos) (by omega) hentry
      subst hzero
      refine iff_of_false (fun hreads => ?_) (by simp [hentry])
      have hfront := hreads.inside (-1) (by simp [priceReads, hn, walkReads, hentry])
      omega
    · refine iff_of_true ⟨fun i hi => ?_, n, by omega, price_of_entry h.priced hn hentry, h.between n hentry⟩ ?_
      · rw [priceReads, hn, walkReads, if_neg hentry, List.mem_singleton] at hi
        omega
      · rcases Nat.eq_zero_or_pos n with rfl | hpos
        · exact .inr ⟨by omega, hentry⟩
        · exact .inl (by omega)

/-- While no sum wraps, the table has no holes and no foreign values, and it is read inside except where the walk
starts in front of it, or at a minute 0 that was never set. -/
theorem run_table (front : Nat) {settings : List Setting} (hpriced : ∀ s ∈ settings, s.Priced)
    (hrun : UnwrappedRun (emptyFeed front) settings) :
    let feed := setAll (emptyFeed front) settings
    (∀ m, 1 ≤ m → m ≤ feed.rtminute → feed.baseprices m ≠ 0) ∧
      (∀ m, feed.baseprices m ≠ 0 → Between settings (feed.baseprices m)) ∧
      ∀ minute ≤ feed.rtminute, ReadsEntry settings feed minute ↔
        1 ≤ feed.start minute ∨ feed.start minute = 0 ∧ ∃ s ∈ settings, s.minute = 0 := by
  have hfilled : Filled settings (setAll (emptyFeed front) settings) := (emptyFeed_filled front).setAll hpriced hrun
  exact ⟨hfilled.full, hfilled.between, fun minute hminute => hfilled.readsEntry_iff hminute⟩

/-- Three settings; the third goes back to a minute that was filled. -/
def sampleSettings : List Setting := [⟨10004569, 0⟩, ⟨20009138, 5⟩, ⟨10004569, 3⟩]

theorem run_table_sample : ReadsEntry sampleSettings (setAll (emptyFeed 0) sampleSettings) 5 := by
  have hpriced : ∀ s ∈ sampleSettings, s.Priced := by
    unfold Setting.Priced
    decide
  have hrun : UnwrappedRun (emptyFeed 0) sampleSettings := ⟨.inl rfl, .inl rfl, .inr (by decide), trivial⟩
  obtain ⟨-, -, hreads⟩ := run_table 0 hpriced hrun
  exact (hreads 5 (by decide)).mpr (.inl (by decide))

/-- The highest price set twice leaves less than a third of it, and reading minute 0 of a fresh table leaves it. -/
theorem table_foreign :
    (setAll (emptyFeed 0) [⟨3037000500, 1⟩, ⟨3037000500, 1⟩]).baseprices 1 = 889516852 ∧
      priceReads (emptyFeed 0) 0 = [-1] ∧
      ¬ ∀ (front : Nat) (settings : List Setting), (∀ s ∈ settings, s.Priced) →
        let feed := setAll (emptyFeed front) settings
        (∀ m, 1 ≤ m → m ≤ feed.rtminute → feed.baseprices m ≠ 0) ∧
          (∀ m, feed.baseprices m ≠ 0 → Between settings (feed.baseprices m)) ∧
          ∀ minute ≤ feed.rtminute, ReadsEntry settings feed minute := by
  have hvalue : (setAll (emptyFeed 0) [⟨3037000500, 1⟩, ⟨3037000500, 1⟩]).baseprices 1 = 889516852 := by decide +kernel
  refine ⟨hvalue, by decide, fun h => ?_⟩
  obtain ⟨-, hbetween, -⟩ := h 0 [⟨3037000500, 1⟩, ⟨3037000500, 1⟩] (by unfold Setting.Priced; decide)
  obtain ⟨⟨price, ⟨s, hs, rfl⟩, hle⟩, -⟩ := hbetween 1 (by rw [hvalue]; decide)
  rw [hvalue] at hle
  simp only [List.mem_cons, List.not_mem_nil, or_false, or_self] at hs
  subst hs
  exact absurd hle (by decide)

end SuperNet.Peggy.Peggy777
