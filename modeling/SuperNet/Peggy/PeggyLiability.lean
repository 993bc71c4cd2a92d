import SuperNet.Peggy.PeggyReserves

/-! The liability of a peg against its live units. -/
namespace SuperNet.Peggy.Peggy777
open Lib.Words Lib.Runs Lib.SwapRemove Serdes777 Accts777

def longIn (U : PeggyUnit) (peg : Nat) : Int :=
  if U.lock.peg.toInt.natAbs = peg ∧ 0 ≤ U.lock.denom.toInt then |U.lock.denom.toInt| else 0

def shortIn (U : PeggyUnit) (peg : Nat) : Int :=
  if U.lock.peg.toInt.natAbs = peg ∧ U.lock.denom.toInt < 0 then |U.lock.denom.toInt| else 0

structure Liabilities (s : PeggyInfo) : Prop where
  num : ∀ peg < s.numpegs, (s.contracts peg).pool.liability.num = (s.accts.units.map (longIn · peg)).sum
  numoppo : ∀ peg < s.numpegs, (s.contracts peg).pool.liability.numoppo = (s.accts.units.map (shortIn · peg)).sum

/-- `t` has the unit `U` more than `s`, and is liable for it. -/
structure More (s t : PeggyInfo) (U : PeggyUnit) : Prop where
  numpegs : t.numpegs = s.numpegs
  units : (U :: s.accts.units).Perm t.accts.units
  num : ∀ peg, (t.contracts peg).pool.liability.num = (s.contracts peg).pool.liability.num + longIn U peg
  numoppo : ∀ peg, (t.contracts peg).pool.liability.numoppo = (s.contracts peg).pool.liability.numoppo + shortIn U peg

/-- Units go one after the other, each with its liability. -/
def Retires : PeggyInfo → PeggyInfo → Prop := Relation.ReflTransGen fun s t => ∃ U, More t s U

theorem More.liabilities_iff {s t : PeggyInfo} {U : PeggyUnit} (h : More s t U) : Liabilities t ↔ Liabilities s := by
  have hlong : ∀ peg, (t.accts.units.map (longIn · peg)).sum = longIn U peg + (s.accts.units.map (longIn · peg)).sum :=
    fun peg => by rw [← (h.units.map _).sum_eq, List.map_cons, List.sum_cons]
  have hshort : ∀ peg, (t.accts.units.map (shortIn · peg)).sum = shortIn U peg + (s.accts.units.map (shortIn · peg)).sum :=
    fun peg => by rw [← (h.units.map _).sum_eq, List.map_cons, List.sum_cons]
  constructor
  · intro ht
    refine ⟨fun peg hpeg => ?_, fun peg hpeg => ?_⟩
    · have := ht.num peg (h.numpegs ▸ hpeg)
      rw [h.num, hlong] at this
      linarith
    · have := ht.numoppo peg (h.numpegs ▸ hpeg)
      rw [h.numoppo, hshort] at this
      linarith
  · intro hs
    refine ⟨fun peg hpeg => ?_, fun peg hpeg => ?_⟩
    · rw [h.num, hlong, hs.num peg (h.numpegs ▸ hpeg)]
      ring
    · rw [h.numoppo, hshort, hs.numoppo peg (h.numpegs ▸ hpeg)]
      ring

theorem changereserve_liability (s : PeggyInfo) (peg : Nat) (dir : Int) (entry : PeggyEntry) (satoshis : Int) (margin : Nat)
    (marginamount : Int) (i : Nat) :
    ((peggyChangereserve s peg dir entry satoshis margin marginamount).contracts i).pool.liability =
      if i = peg then addLiability (s.contracts peg).pool.liability entry.polarity (dir * entry.denomination)
      else (s.contracts i).pool.liability := by
  simp only [peggyChangereserve]
  split
  · next h => rw [h, Function.update_self]
  · next h => rw [Function.update_of_ne h]

/-- A booking in the direction of the unit and over all of its denomination. -/
theorem addLiability_unit {s : PeggyInfo} {U : PeggyUnit} {peg : Nat} (dir : Int) (entry : PeggyEntry) (satoshis : Int)
    (margin : Nat) (marginamount : Int) (hpeg : U.lock.peg.toInt.natAbs = peg)
    (hpolarity : entry.polarity = denomSign U.lock.denom) (hdenom : entry.denomination = |U.lock.denom.toInt|) (i : Nat) :
    let t := peggyChangereserve s peg dir entry satoshis margin marginamount
    (t.contracts i).pool.liability.num = (s.contracts i).pool.liability.num + dir * longIn U i ∧
      (t.contracts i).pool.liability.numoppo = (s.contracts i).pool.liability.numoppo + dir * shortIn U i := by
  intro t
  rw [changereserve_liability]
  by_cases hi : i = peg
  · subst hi
    rw [if_pos rfl, addLiability, hpolarity, hdenom, denomSign]
    by_cases hneg : U.lock.denom.toInt < 0
    · simp [longIn, shortIn, hpeg, hneg, not_le.mpr hneg]
    · simp [longIn, shortIn, hpeg, hneg, not_lt.mp hneg]
  · have hne : U.lock.peg.toInt.natAbs ≠ i := fun h => hi (h.symm.trans hpeg)
    rw [if_neg hi]
    simp [longIn, shortIn, hne]

theorem lockrate_keeps (entry : PeggyEntry) (s : PeggyInfo) (PEG : PeggyContract) (satoshis numdays : Nat) :
    (peggyLockrate entry s PEG satoshis numdays).polarity = entry.polarity ∧
      (peggyLockrate entry s PEG satoshis numdays).denomination = entry.denomination := by
  rw [peggyLockrate]
  split
  · exact ⟨rfl, rfl⟩
  · dsimp only
    split <;> exact ⟨rfl, rfl⟩

theorem islegalAmount_keeps (entry : PeggyEntry) (s : PeggyInfo) (peg : Nat) (satoshis : Int) (numdays margin : Nat)
    (price : Int) :
    (peggyIslegalAmount entry s peg satoshis numdays margin price).1.polarity = entry.polarity ∧
      (peggyIslegalAmount entry s peg satoshis numdays margin price).1.denomination = entry.denomination := by
  simp only [peggyIslegalAmount]
  split
  · exact lockrate_keeps _ _ _ _ _
  · exact ⟨rfl, rfl⟩

theorem lockTerms_some {entry : PeggyEntry} {PEG : PeggyContract} {peg seed : Nat} {lock terms : PeggyLock}
    (h : lockTerms entry PEG peg seed lock = some terms) :
    terms.peg = BitVec.ofInt 16 (peg * denomSign lock.denom) ∧ terms.denom = lock.denom := by
  simp only [lockTerms] at h
  split at h
  · cases h
  · obtain rfl := Option.some.inj h
    exact ⟨rfl, rfl⟩

theorem setunit_some {entry e : PeggyEntry} {s : PeggyInfo} {now peg seed : Nat} {lock : PeggyLock} {U : PeggyUnit}
    {satoshis : Int} (h : peggySetunit entry s now peg seed lock = some (U, e, satoshis)) :
    (U.lock.peg = BitVec.ofInt 16 (peg * denomSign lock.denom) ∧ U.lock.denom = lock.denom) ∧
      e.polarity = entry.polarity ∧ e.denomination = (denomAbs lock.denom).toInt := by
  rw [peggySetunit] at h
  split at h
  · cases h
  · obtain ⟨terms, hterms, h⟩ := Option.bind_eq_some_iff.mp h
    simp only [Option.some.injEq, Prod.mk.injEq] at h
    obtain ⟨rfl, rfl, -⟩ := h
    refine ⟨lockTerms_some hterms, ?_, ?_⟩
    · rw [(islegalAmount_keeps _ _ _ _ _ _ _).1, peggyPoolmainunits]
    · rw [(islegalAmount_keeps _ _ _ _ _ _ _).2, peggyPoolmainunits]

theorem denomAbs_toInt {denom : BitVec 16} (h : denom ≠ BitVec.intMin 16) : (denomAbs denom).toInt = |denom.toInt| := by
  rw [denomAbs]
  split
  · next hneg => rw [BitVec.toInt_neg_of_ne_intMin h, abs_of_neg hneg]
  · next hpos => rw [abs_of_nonneg (not_lt.mp hpos)]

theorem lockPeg_toInt {peg : Nat} (h : peg < peggyMaxpegs) (denom : BitVec 16) :
    (BitVec.ofInt 16 (peg * denomSign denom)).toInt = peg * denomSign denom := by
  rw [peggyMaxpegs] at h
  rw [BitVec.toInt_ofInt]
  apply Int.bmod_eq_of_le <;> rw [denomSign] <;> split <;> omega

theorem natAbs_mul_denomSign (peg : Nat) (denom : BitVec 16) : (peg * denomSign denom : Int).natAbs = peg := by
  rw [denomSign]
  split <;> simp

theorem found_polarity (PEG : PeggyContract) (denom : BitVec 16) :
    (peggyFound PEG (denomSign denom)).polarity = denomSign denom := by
  rw [denomSign]
  split <;> rfl

/-- The unit is not created in the other direction, by the sign of its peg, and its denomination has a
positive `int16_t`. -/
def Creation.Plain (c : Creation) : Prop :=
  (c.name = none → 0 ≤ c.lock.peg.toInt) ∧ c.lock.denom ≠ BitVec.intMin 16

theorem createdPeg_polarity {s : PeggyInfo} {c : Creation} {peg : Nat} {polarity : Int} (hc : c.Plain)
    (h : createdPeg s c.name c.lock = some (peg, polarity)) : polarity = denomSign c.lock.denom := by
  cases hname : c.name with
  | some assetbits =>
    rw [hname] at h
    obtain ⟨found, -, h⟩ := Option.bind_eq_some_iff.mp h
    exact (Prod.mk.inj (Option.some.inj h)).2.symm
  | none =>
    rw [hname, createdPeg] at h
    split at h
    · cases h
    · obtain ⟨found, -, h⟩ := Option.bind_eq_some_iff.mp h
      obtain ⟨-, h⟩ := Prod.mk.inj (Option.some.inj h)
      rw [if_neg (not_lt.mpr (hc.1 hname))] at h
      exact h.symm

/-- The units name their pegs and directions. -/
structure Named (s : PeggyInfo) : Prop where
  numpegs : s.numpegs ≤ peggyMaxpegs
  units : ∀ U ∈ s.accts.units, U.lock.peg.toInt = U.lock.peg.toInt.natAbs * denomSign U.lock.denom

theorem created_more {s : PeggyInfo} {c : Creation} {peg : Nat} {U : PeggyUnit} {entry : PeggyEntry} {satoshis : Int}
    (hn : s.numpegs ≤ peggyMaxpegs) (hc : c.Plain)
    (h : createdUnit s c.now c.seed c.name c.lock c.amount c.marginamount = some (peg, U, entry, satoshis)) :
    More s (c.after s peg U entry) { U with lockhash := c.lockhash } ∧
      U.lock.peg.toInt = U.lock.peg.toInt.natAbs * denomSign U.lock.denom := by
  obtain ⟨polarity, V, hpeg, hset, rfl⟩ := createdUnit_cases h
  obtain ⟨⟨hlockpeg, hlockdenom⟩, hpolarity, hdenom⟩ := setunit_some hset
  have hlt : peg < peggyMaxpegs := lt_of_lt_of_le (createdPeg_lt hpeg) hn
  have hint : V.lock.peg.toInt = peg * denomSign V.lock.denom := by rw [hlockpeg, hlockdenom, lockPeg_toInt hlt]
  have habs : V.lock.peg.toInt.natAbs = peg := by rw [hint, natAbs_mul_denomSign]
  have hbook := addLiability_unit (s := s)
    (U := { V with
      estimatedInterest := entry.estimatedInterest, amount := i64 c.amount, marginamount := i64 c.marginamount
      lockhash := c.lockhash })
    1 entry entry.costbasis c.lock.margin.toNat (i64 c.marginamount) habs
    (by rw [hpolarity, createdPeg_polarity hc hpeg, found_polarity, hlockdenom])
    (by rw [hdenom, denomAbs_toInt hc.2, hlockdenom])
  refine ⟨⟨rfl, (List.perm_append_singleton _ _).symm, fun i => ?_, fun i => ?_⟩, ?_⟩
  · exact (hbook i).1.trans (by rw [one_mul])
  · exact (hbook i).2.trans (by rw [one_mul])
  · exact hint.trans (by rw [habs])

/-- Paying off a long unit in its own peg takes its liability away. -/
theorem paidOff_more {s : PeggyInfo} {peg i : Nat} {U : PeggyUnit} {entry : PeggyEntry} (satoshis : Int)
    (hU : s.accts.units[i]? = some U) (hpeg : U.lock.peg.toInt.natAbs = peg) (hlong : 0 ≤ U.lock.denom.toInt)
    (hpolarity : entry.polarity = 1) (hdenom : entry.denomination = U.lock.denom.toInt) :
    More (paidOff s peg i U entry satoshis) s U := by
  have hbook := addLiability_unit (s := s) (-1) entry satoshis U.lock.margin.toNat U.marginamount hpeg
    (by rw [hpolarity, denomSign, if_neg (not_lt.mpr hlong)]) (by rw [hdenom, abs_of_nonneg hlong])
  refine ⟨rfl, swapRemove_perm hU, fun j => ?_, fun j => ?_⟩
  · have := (hbook j).1
    rw [paidOff]
    linarith
  · have := (hbook j).2
    rw [paidOff]
    linarith

theorem found_long {s : PeggyInfo} {U : PeggyUnit} (hn : Named s) (hU : U ∈ s.accts.units) (hlong : 0 ≤ U.lock.denom.toInt)
    (PEG : PeggyContract) : 0 ≤ U.lock.peg.toInt ∧ (peggyFound PEG U.lock.peg.toInt).polarity = 1 := by
  have hpeg := hn.units U hU
  rw [denomSign, if_neg (not_lt.mpr hlong), mul_one] at hpeg
  have hpos : 0 ≤ U.lock.peg.toInt := by omega
  rw [peggyFound, if_pos hpos]
  exact ⟨hpos, rfl⟩

theorem poolmainunits_polarity (entry : PeggyEntry) (dir polarity price oppoprice spread : Int) (poolincr : Nat)
    (denomunits : Int) :
    (peggyPoolmainunits entry dir polarity price oppoprice spread poolincr denomunits).polarity = entry.polarity := by
  rw [peggyPoolmainunits]

theorem poolmainunits_denomination (entry : PeggyEntry) (dir polarity price oppoprice spread : Int) (poolincr : Nat)
    (denomunits : Int) :
    (peggyPoolmainunits entry dir polarity price oppoprice spread poolincr denomunits).denomination = denomunits := by
  rw [peggyPoolmainunits]

theorem redeemEntry_unit (s : PeggyInfo) (U : PeggyUnit) (lockdays : BitVec 16) :
    (redeemEntry s U lockdays).polarity = (peggyFound (s.contracts U.lock.peg.toInt.natAbs) U.lock.peg.toInt).polarity ∧
      (redeemEntry s U lockdays).denomination = U.lock.denom.toInt := by
  rw [redeemEntry]
  constructor
  · rw [apply_ite PeggyEntry.polarity]
    split <;> rw [poolmainunits_polarity, peggyFindpeg]
  · rw [apply_ite PeggyEntry.denomination]
    split <;> rw [poolmainunits_denomination]

theorem callEntry_unit (s : PeggyInfo) (newprice shortprice : Int) (U : PeggyUnit) :
    (callEntry s newprice shortprice U).polarity = (peggyFound (s.contracts U.lock.peg.toInt.natAbs) U.lock.peg.toInt).polarity ∧
      (callEntry s newprice shortprice U).denomination = U.lock.denom.toInt := by
  rw [callEntry]
  exact ⟨by rw [poolmainunits_polarity, peggyFindpeg], by rw [poolmainunits_denomination]⟩

/-- What a unit is worth to a margin call does not depend on the funds and the liability of the pools. -/
structure SameTerms (s t : PeggyInfo) : Prop where
  numpegs : t.numpegs = s.numpegs
  baseid : ∀ i, (t.contracts i).baseid = (s.contracts i).baseid
  relid : ∀ i, (t.contracts i).relid = (s.contracts i).relid
  spread : ∀ i, (t.contracts i).spread = (s.contracts i).spread
  mainunitsize : ∀ i, (t.contracts i).pool.mainunitsize = (s.contracts i).pool.mainunitsize

theorem SameTerms.marginCalled {s t : PeggyInfo} (h : SameTerms s t) {peg : Nat} {newprice shortprice : Int} {U : PeggyUnit}
    (hcall : MarginCalled t peg newprice shortprice U) : MarginCalled s peg newprice shortprice U := by
  obtain ⟨hmargin, hpeg, hloss⟩ := hcall
  refine ⟨hmargin, hpeg, ?_⟩
  simp only [callEntry, peggyFindpeg, peggyPoolmainunits, peggyFound] at hloss ⊢
  split at hloss
  · next hpos =>
    rw [if_pos hpos]
    simpa only [h.baseid, h.relid, h.spread, h.mainunitsize] using hloss
  · next hneg =>
    rw [if_neg hneg]
    simpa only [h.baseid, h.relid, h.spread, h.mainunitsize] using hloss

theorem SameTerms.paidOff {s t : PeggyInfo} (h : SameTerms s t) (peg i : Nat) (U : PeggyUnit) (entry : PeggyEntry)
    (satoshis : Int) : SameTerms s (paidOff t peg i U entry satoshis) := by
  have hcontracts : ∀ j, (Peggy777.paidOff t peg i U entry satoshis).contracts j =
      { t.contracts j with pool :=
        { (t.contracts j).pool with
          funds := ((Peggy777.paidOff t peg i U entry satoshis).contracts j).pool.funds
          liability := ((Peggy777.paidOff t peg i U entry satoshis).contracts j).pool.liability } } := fun j => by
    simp only [Peggy777.paidOff, peggyChangereserve]
    by_cases hj : j = peg
    · rw [hj, Function.update_self]
    · rw [Function.update_of_ne hj]
  refine ⟨h.numpegs, fun j => ?_, fun j => ?_, fun j => ?_, fun j => ?_⟩ <;> rw [hcontracts j]
  · exact h.baseid j
  · exact h.relid j
  · exact h.spread j
  · exact h.mainunitsize j

/-- `peggy_txind_send` passes 1 or -1. The unit is a long one, and it is redeemed on one of its days. -/
def Redemption.Plain (acct777Lockhash : BitVec 256 → BitVec 16 → BitVec 8 → BitVec 256) (s : PeggyInfo) (r : Redemption) :
    Prop :=
  (r.polarity = 1 ∨ r.polarity = -1) ∧
    ∀ peg i U, r.target acct777Lockhash s = some (peg, i, U) → r.readonly = false →
      0 ≤ U.lock.denom.toInt ∧ Redeemable r.now U r.lockdays

/-- The steps on which liability follows the units: no unit created against the sign of its
denomination, and no short one redeemed or called. -/
def Op.Plain (acct777Lockhash : BitVec 256 → BitVec 16 → BitVec 8 → BitVec 256) (s : PeggyInfo) : Op → Prop
  | .createunit c => c.Plain
  | .redeem r => r.Plain acct777Lockhash s
  | .margincalls peg newprice shortprice =>
    ∀ U ∈ s.accts.units, MarginCalled s peg newprice shortprice U → 0 ≤ U.lock.denom.toInt
  | .prices .. => True

/-- What becomes of units and liability in a step. -/
def Op.Books (s t : PeggyInfo) : Op → Prop
  | .createunit _ => t = s ∨ ∃ U, More s t U
  | .redeem _ => Retires s t
  | .margincalls .. => Retires s t
  | .prices .. => t.numpegs = s.numpegs ∧ t.accts = s.accts ∧ ∀ peg, (t.contracts peg).pool = (s.contracts peg).pool

theorem Retires.liabilities {s t : PeggyInfo} (h : Retires s t) (hs : Liabilities s) : Liabilities t := by
  induction h with
  | refl => exact hs
  | tail _ hstep ih =>
    obtain ⟨U, hU⟩ := hstep
    exact hU.liabilities_iff.mp ih

theorem Op.Books.liabilities {op : Op} {s t : PeggyInfo} (h : op.Books s t) (hs : Liabilities s) : Liabilities t := by
  cases op with
  | createunit c =>
    rcases h with rfl | ⟨U, hU⟩
    · exact hs
    · exact hU.liabilities_iff.mpr hs
  | redeem r => exact Retires.liabilities h hs
  | margincalls peg newprice shortprice => exact Retires.liabilities h hs
  | prices peg dayprice dayprices =>
    obtain ⟨hnum, haccts, hpool⟩ := h
    refine ⟨fun i hi => ?_, fun i hi => ?_⟩
    · rw [hpool, haccts]
      exact hs.num i (hnum ▸ hi)
    · rw [hpool, haccts]
      exact hs.numoppo i (hnum ▸ hi)

theorem Named.paidOff {s : PeggyInfo} (h : Named s) (peg i : Nat) (U : PeggyUnit) (entry : PeggyEntry) (satoshis : Int) :
    Named (paidOff s peg i U entry satoshis) :=
  ⟨h.numpegs, fun V hV => h.units V (mem_of_mem_swapRemove hV)⟩

theorem margincalls_retires {s : PeggyInfo} {peg : Nat} {newprice shortprice : Int} (hn : Named s)
    (hlong : ∀ U ∈ s.accts.units, MarginCalled s peg newprice shortprice U → 0 ≤ U.lock.denom.toInt) :
    Retires s (peggyMargincalls s peg newprice shortprice) ∧ Named (peggyMargincalls s peg newprice shortprice) := by
  have hrun := rounds_induct (f := margincall peg newprice shortprice) (s := s)
    (motive := fun _ t => Retires s t ∧ Named t ∧ SameTerms s t ∧ ∀ U ∈ t.accts.units, U ∈ s.accts.units)
    s.accts.units.length
    ⟨.refl, hn, ⟨rfl, fun _ => rfl, fun _ => rfl, fun _ => rfl, fun _ => rfl⟩, fun _ h => h⟩ ?_
  · exact ⟨hrun.1, hrun.2.1⟩
  intro k _ ⟨hretires, hnamed, hterms, hsub⟩
  rcases margincall_cases peg newprice shortprice (rounds (margincall peg newprice shortprice) s k) k with
    hsame | ⟨U, hU, hcall, hpaid⟩
  · rw [hsame]
    exact ⟨hretires, hnamed, hterms, hsub⟩
  · rw [hpaid]
    have hmem := List.mem_of_getElem? hU
    have hden := hlong U (hsub U hmem) (hterms.marginCalled hcall)
    refine ⟨hretires.tail ⟨U, ?_⟩, hnamed.paidOff _ _ _ _ _, hterms.paidOff _ _ _ _ _,
      fun V hV => hsub V (mem_of_mem_swapRemove hV)⟩
    obtain ⟨hpolarity, hdenom⟩ := callEntry_unit (rounds (margincall peg newprice shortprice) s k) newprice shortprice U
    exact paidOff_more _ hU hcall.2.1 hden (hpolarity.trans (found_long hnamed hmem hden _).2) hdenom

section
variable {acct777Lockhash : BitVec 256 → BitVec 16 → BitVec 8 → BitVec 256}

theorem redeem_retires {s : PeggyInfo} {r : Redemption} (hn : Named s) (hr : r.Plain acct777Lockhash s) :
    Retires s (step acct777Lockhash s (.redeem r)) ∧ Named (step acct777Lockhash s (.redeem r)) := by
  rcases @redeem_cases acct777Lockhash s r with ⟨hsame, -⟩ | ⟨peg, i, U, htarget, hread, hpaid⟩
  · rw [hsame]
    exact ⟨.refl, hn⟩
  · rw [hpaid]
    obtain ⟨hlt, hU, hpeg⟩ := target_some htarget
    obtain ⟨hlong, hdays⟩ := hr.2 peg i U htarget hread
    have hmem := List.mem_of_getElem? hU
    have hentry : (peggyRedeemhash s r.now U r.lockdays).1 = redeemEntry s U r.lockdays := by
      rw [peggyRedeemhash, if_neg (not_lt.mpr hdays.1), if_neg (not_lt.mpr hdays.2)]
    have habs : U.lock.peg.toInt.natAbs = peg := by
      rcases hr.1 with hp | hp <;> rw [hpeg, hp] <;> simp
    refine ⟨.single ⟨U, ?_⟩, hn.paidOff _ _ _ _ _⟩
    rw [hentry]
    obtain ⟨hpolarity, hdenom⟩ := redeemEntry_unit s U r.lockdays
    exact paidOff_more _ hU habs hlong (hpolarity.trans (found_long hn hmem hlong _).2) hdenom

theorem step_books {s : PeggyInfo} {op : Op} (hn : Named s) (hop : op.Plain acct777Lockhash s) :
    op.Books s (step acct777Lockhash s op) ∧ Named (step acct777Lockhash s op) := by
  cases op with
  | createunit c =>
    rcases @createunit_cases acct777Lockhash s c with hsame | ⟨peg, U, entry, satoshis, hU, -, -, hafter⟩
    · rw [hsame]
      exact ⟨.inl rfl, hn⟩
    · rw [hafter]
      obtain ⟨hmore, hname⟩ := created_more hn.numpegs hop hU
      refine ⟨.inr ⟨_, hmore⟩, hn.numpegs, fun V hV => ?_⟩
      rcases List.mem_append.mp hV with hV | hV
      · exact hn.units V hV
      · rw [List.mem_singleton.mp hV]
        exact hname
  | redeem r => exact redeem_retires hn hop
  | margincalls peg newprice shortprice =>
    rw [step]
    split
    · exact margincalls_retires hn hop
    · exact ⟨.refl, hn⟩
  | prices peg dayprice dayprices =>
    refine ⟨⟨rfl, rfl, fun i => ?_⟩, hn.numpegs, hn.units⟩
    simp only [step]
    by_cases hi : i = peg
    · rw [hi, Function.update_self]
    · rw [Function.update_of_ne hi]

end

/-- `P` holds of each operation of the run, in the state it is made in. -/
def Along (acct777Lockhash : BitVec 256 → BitVec 16 → BitVec 8 → BitVec 256) (P : PeggyInfo → Op → Prop) :
    PeggyInfo → List Op → Prop
  | _, [] => True
  | s, op :: ops => P s op ∧ Along acct777Lockhash P (step acct777Lockhash s op) ops

theorem Opened.liabilities {s : PeggyInfo} (h : Opened s) : Liabilities s where
  num peg hpeg := by
    rw [h.liability peg hpeg, h.units]
    rfl
  numoppo peg hpeg := by
    rw [h.liability peg hpeg, h.units]
    rfl

/-- Along a run of plain steps each peg is liable for its live units, and what a unit leaves with is
what it was created with. -/
theorem run_liabilities (acct777Lockhash : BitVec 256 → BitVec 16 → BitVec 8 → BitVec 256) {s : PeggyInfo} {ops : List Op}
    (h : Opened s) (hops : Along acct777Lockhash (Op.Plain acct777Lockhash) s ops) :
    Along acct777Lockhash (fun t op => Liabilities t ∧ op.Books t (step acct777Lockhash t op)) s ops ∧
      Liabilities (run acct777Lockhash s ops) := by
  have hrun : ∀ t, Named t → Liabilities t → Along acct777Lockhash (Op.Plain acct777Lockhash) t ops →
      Along acct777Lockhash (fun t op => Liabilities t ∧ op.Books t (step acct777Lockhash t op)) t ops ∧
        Liabilities (run acct777Lockhash t ops) := by
    clear hops
    induction ops with
    | nil => exact fun t _ ht _ => ⟨trivial, ht⟩
    | cons op ops ih =>
      intro t hn ht ⟨hop, hops⟩
      obtain ⟨hbooks, hn'⟩ := step_books hn hop
      obtain ⟨halong, hlast⟩ := ih _ hn' (hbooks.liabilities ht) hops
      exact ⟨⟨⟨ht, hbooks⟩, halong⟩, hlast⟩
  refine hrun s ⟨h.numpegs, fun U hU => ?_⟩ h.liabilities hops
  rw [h.units] at hU
  cases hU

theorem run_liabilities_redeemed :
    let ops := [.createunit (fiveUnits 1 5), .createunit (fiveUnits 1 (-5)), .redeem redeemUnits]
    ((run (fun _ _ _ => 7) (newBank false) ops).contracts 1).pool.liability = ⟨0, 5⟩ ∧
      Liabilities (run (fun _ _ _ => 7) (newBank false) ops) := by
  intro ops
  have hU : (redeemUnits.target (fun _ _ _ => 7) (step (fun _ _ _ => 7) (step (fun _ _ _ => 7) (newBank false)
      (.createunit (fiveUnits 1 5))) (.createunit (fiveUnits 1 (-5))))).all (fun x =>
        decide (0 ≤ x.2.2.lock.denom.toInt ∧ Redeemable redeemUnits.now x.2.2 redeemUnits.lockdays)) = true := by
    decide +kernel
  have hplain : Along (fun _ _ _ => 7) (Op.Plain fun _ _ _ => 7) (newBank false) ops := by
    refine ⟨⟨fun _ => by decide, by decide⟩, ⟨fun _ => by decide, by decide⟩, ⟨.inl rfl, fun peg i U htarget _ => ?_⟩, trivial⟩
    rw [htarget] at hU
    exact of_decide_eq_true hU
  exact ⟨by decide +kernel, (run_liabilities _ (newBank_opened false) hplain).2⟩

/-- Five units locked under the peg -1: the bank is liable for them as short, and the unit is long. -/
theorem reversed_peg_misbooked :
    ¬ ∀ (acct777Lockhash : BitVec 256 → BitVec 16 → BitVec 8 → BitVec 256) (s : PeggyInfo) (ops : List Op),
      Opened s → Liabilities (run acct777Lockhash s ops) := by
  intro h
  have hnum := (h (fun _ _ _ => 7) (newBank true) [.createunit (fiveUnits (-1) 5)] (newBank_opened true)).num 1 (by decide)
  revert hnum
  decide +kernel

end SuperNet.Peggy.Peggy777
