import SuperNet.Peggy.PeggyBank

/-! Runs of the peg bank, and the balance of its reserves along them. -/
namespace SuperNet.Peggy.Peggy777
open Lib.Words Lib.Ledger Lib.Runs Lib.SwapRemove Serdes777 Accts777

/-- The arguments of `peggy_createunit`. -/
structure Creation where
  now : Nat
  readU : Bool
  seed : Nat
  name : Option Nat
  lockhash : BitVec 256
  lock : PeggyLock
  amount : Nat
  marginamount : Nat

/-- `prices` stands for what `peggy_priceconsensus` stores in a contract between the operations. -/
inductive Op where
  | createunit (c : Creation)
  | redeem (r : Redemption)
  | margincalls (peg : Nat) (newprice shortprice : Int)
  | prices (peg : Nat) (dayprice : Int) (dayprices : Nat → Nat)

section
variable (acct777Lockhash : BitVec 256 → BitVec 16 → BitVec 8 → BitVec 256)

/-- Margin calls are made for a contract of the bank. -/
def step (s : PeggyInfo) : Op → PeggyInfo
  | .createunit c => (peggyCreateunit s c.now c.readU c.seed c.name c.lockhash c.lock c.amount c.marginamount).1
  | .redeem r => (peggyRedeem acct777Lockhash s r).1
  | .margincalls peg newprice shortprice => if peg < s.numpegs then peggyMargincalls s peg newprice shortprice else s
  | .prices peg dayprice dayprices =>
    { s with contracts := Function.update s.contracts peg { s.contracts peg with dayprice, dayprices } }

def run (s : PeggyInfo) (ops : List Op) : PeggyInfo := ops.foldl (step acct777Lockhash) s

end

/-- The bank as `peggy_init` and `peggy_createpair` leave it: cleared, whatever its contracts are. -/
structure Opened (s : PeggyInfo) : Prop where
  numpegs : s.numpegs ≤ peggyMaxpegs
  bank : s.bank.funds = default
  reserves : ∀ id, s.basereserves id = default
  funds : ∀ i < s.numpegs, (s.contracts i).pool.funds = default
  liability : ∀ i < s.numpegs, (s.contracts i).pool.liability = default
  units : s.accts.units = []

theorem peggyFindpair_lt {s : PeggyInfo} {assetbits peg : Nat} (h : peggyFindpair s assetbits = some peg) :
    peg < s.numpegs ∧ (s.contracts peg).assetbits = assetbits := by
  rw [peggyFindpair] at h
  split at h
  · cases h
  · have hmem := List.mem_of_find?_eq_some h
    have hbits := List.find?_some h
    exact ⟨List.mem_range.mp hmem, by simpa using hbits⟩

theorem createdPeg_lt {s : PeggyInfo} {name : Option Nat} {lock : PeggyLock} {peg : Nat} {polarity : Int}
    (h : createdPeg s name lock = some (peg, polarity)) : peg < s.numpegs := by
  cases name with
  | some assetbits =>
    obtain ⟨found, hfound, h⟩ := Option.bind_eq_some_iff.mp h
    obtain ⟨rfl, -⟩ := Prod.mk.inj (Option.some.inj h)
    exact (peggyFindpair_lt hfound).1
  | none =>
    rw [createdPeg] at h
    split at h
    · cases h
    · obtain ⟨found, hfound, h⟩ := Option.bind_eq_some_iff.mp h
      obtain ⟨rfl, -⟩ := Prod.mk.inj (Option.some.inj h)
      exact (peggyFindpair_lt hfound).1

theorem createdUnit_cases {s : PeggyInfo} {now seed : Nat} {name : Option Nat} {lock : PeggyLock} {amount marginamount peg : Nat}
    {U : PeggyUnit} {entry : PeggyEntry} {satoshis : Int}
    (h : createdUnit s now seed name lock amount marginamount = some (peg, U, entry, satoshis)) :
    ∃ polarity V, createdPeg s name lock = some (peg, polarity) ∧
      peggySetunit (peggyFound (s.contracts peg) polarity) s now peg seed lock = some (V, entry, satoshis) ∧
      U = { V with estimatedInterest := entry.estimatedInterest, amount := i64 amount, marginamount := i64 marginamount } := by
  rw [createdUnit] at h
  split at h
  · cases h
  · obtain ⟨⟨found, polarity⟩, hpeg, h⟩ := Option.bind_eq_some_iff.mp h
    obtain ⟨⟨V, e, sat⟩, hset, h⟩ := Option.bind_eq_some_iff.mp h
    simp only [Option.some.injEq, Prod.mk.injEq] at h
    obtain ⟨rfl, rfl, rfl, rfl⟩ := h
    exact ⟨polarity, V, hpeg, hset, rfl⟩

/-- The bank and the units after `c` has created `U` in the contract `peg`. -/
def Creation.after (c : Creation) (s : PeggyInfo) (peg : Nat) (U : PeggyUnit) (entry : PeggyEntry) : PeggyInfo :=
  { peggyChangereserve s peg 1 entry entry.costbasis c.lock.margin.toNat (i64 c.marginamount) with
    accts := peggyAddunit s.accts U c.lockhash }

/-- The bank and the units after the unit at `i` has been paid off. -/
def paidOff (s : PeggyInfo) (peg i : Nat) (U : PeggyUnit) (entry : PeggyEntry) (satoshis : Int) : PeggyInfo :=
  { peggyChangereserve s peg (-1) entry satoshis U.lock.margin.toNat U.marginamount with accts := peggyDelete s.accts i }

section
variable {acct777Lockhash : BitVec 256 → BitVec 16 → BitVec 8 → BitVec 256} {s : PeggyInfo}

theorem createunit_cases (c : Creation) :
    step acct777Lockhash s (.createunit c) = s ∨
    ∃ peg U entry satoshis, createdUnit s c.now c.seed c.name c.lock c.amount c.marginamount = some (peg, U, entry, satoshis) ∧
      satoshis ≠ 0 ∧ Enough c.lock c.amount c.marginamount satoshis ∧
      step acct777Lockhash s (.createunit c) = c.after s peg U entry := by
  simp only [step, peggyCreateunit]
  split
  · exact .inl rfl
  · next peg U entry satoshis hU =>
    split
    · exact .inl rfl
    · next hpriced =>
      split
      · next henough => exact .inr ⟨peg, U, entry, satoshis, hU, fun h => hpriced (.inl h), henough, rfl⟩
      · exact .inl rfl

theorem redeem_cases (r : Redemption) :
    (step acct777Lockhash s (.redeem r) = s ∧ (r.readonly = true ∨ r.target acct777Lockhash s = none)) ∨
    ∃ peg i U, r.target acct777Lockhash s = some (peg, i, U) ∧ r.readonly = false ∧
      step acct777Lockhash s (.redeem r) =
        paidOff s peg i U (peggyRedeemhash s r.now U r.lockdays).1 (redeemPaid s r.now U r.lockdays) := by
  simp only [step, peggyRedeem]
  split
  · next h => exact .inl ⟨rfl, .inr h⟩
  · next peg i U h =>
    split
    · next hread => exact .inl ⟨rfl, .inl hread⟩
    · next hread => exact .inr ⟨peg, i, U, h, by simpa using hread, rfl⟩

theorem target_some {r : Redemption} {peg i : Nat} {U : PeggyUnit} (h : r.target acct777Lockhash s = some (peg, i, U)) :
    peg < s.numpegs ∧ s.accts.units[i]? = some U ∧ U.lock.peg.toInt = peg * r.polarity := by
  obtain ⟨found, hfound, h⟩ := Option.bind_eq_some_iff.mp h
  obtain ⟨⟨j, V⟩, hmatch, h⟩ := Option.bind_eq_some_iff.mp h
  simp only [Option.some.injEq, Prod.mk.injEq] at h
  obtain ⟨rfl, rfl, rfl⟩ := h
  obtain ⟨hU, hpeg, -⟩ := peggyMatch_some hmatch
  exact ⟨(peggyFindpair_lt hfound).1, hU, hpeg⟩

end

theorem margincall_cases (peg : Nat) (newprice shortprice : Int) (s : PeggyInfo) (i : Nat) :
    margincall peg newprice shortprice s i = s ∨
    ∃ U, s.accts.units[i]? = some U ∧ MarginCalled s peg newprice shortprice U ∧
      margincall peg newprice shortprice s i =
        paidOff s peg i U (callEntry s newprice shortprice U) (callEntry s newprice shortprice U).total := by
  rw [margincall]
  split
  · exact .inl rfl
  · next U hU =>
    split
    · next hcall => exact .inr ⟨U, hU, hcall, rfl⟩
    · exact .inl rfl

/-- The three amounts of a `struct peggy_margin`. -/
inductive Amount where
  | deposits
  | margindeposits
  | marginvalue

def PeggyMargin.get (funds : PeggyMargin) : Amount → Int
  | .deposits => funds.deposits
  | .margindeposits => funds.margindeposits
  | .marginvalue => funds.marginvalue

/-- What `peggy_updatemargin` adds to an amount. -/
def booked (satoshis : Int) (margin : Nat) (amount : Int) : Amount → Int
  | .deposits => if margin = 0 then satoshis else 0
  | .margindeposits => if margin = 0 then 0 else amount
  | .marginvalue => if margin = 0 then 0 else amount * margin

theorem updatemargin_get (funds : PeggyMargin) (satoshis : Int) (margin : Nat) (amount : Int) (a : Amount) :
    (peggyUpdatemargin funds satoshis margin amount).get a = funds.get a + booked satoshis margin amount a := by
  rw [peggyUpdatemargin]
  cases a <;> split <;> simp_all [PeggyMargin.get, booked]

theorem booked_neg (satoshis : Int) (margin : Nat) (amount : Int) (a : Amount) :
    booked (-satoshis) margin (-amount) a = -booked satoshis margin amount a := by
  cases a <;> simp only [booked] <;> split <;> simp

theorem bookReserve_total {reserves : Nat → PeggyMargin} (id : Fin 256) (satoshis : Int) (margin : Nat) (amount : Int)
    (a : Amount) :
    total 256 (fun c => (bookReserve reserves id satoshis margin amount c).get a) =
      total 256 (fun c => (reserves c).get a) + booked satoshis margin amount a := by
  have hbook : (fun c => (bookReserve reserves id satoshis margin amount c).get a) =
      Function.update (fun c => (reserves c).get a) id ((reserves id).get a + booked satoshis margin amount a) := by
    funext c
    rw [bookReserve, Function.apply_update (fun _ (m : PeggyMargin) => m.get a), updatemargin_get]
  rw [hbook, total_update id.isLt]
  ring

/-- The reserves of all base currencies cancel, and the funds of all pools make up those of the bank. -/
structure Balanced (s : PeggyInfo) : Prop where
  reserves : ∀ a, total 256 (fun id => (s.basereserves id).get a) = 0
  funds : ∀ a, total s.numpegs (fun i => (s.contracts i).pool.funds.get a) = s.bank.funds.get a

theorem Opened.balanced {s : PeggyInfo} (h : Opened s) : Balanced s where
  reserves a := by
    have hzero : ∀ id, (s.basereserves id).get a = 0 := fun id => by
      rw [h.reserves]
      cases a <;> rfl
    simp [total, hzero]
  funds a := by
    have hzero : (s.bank.funds).get a = 0 := by
      rw [h.bank]
      cases a <;> rfl
    rw [hzero, total]
    refine Finset.sum_eq_zero fun i hi => ?_
    rw [h.funds i (Finset.mem_range.mp hi)]
    cases a <;> rfl

theorem changereserve_balanced {s : PeggyInfo} {peg : Nat} (hpeg : peg < s.numpegs) (h : Balanced s) (dir : Int)
    (entry : PeggyEntry) (satoshis : Int) (margin : Nat) (marginamount : Int) :
    Balanced (peggyChangereserve s peg dir entry satoshis margin marginamount) where
  reserves a := by
    simp only [peggyChangereserve]
    rw [bookReserve_total, bookReserve_total, h.reserves, neg_mul, neg_mul, booked_neg]
    ring
  funds a := by
    simp only [peggyChangereserve]
    have hfunds : ∀ (PEG : PeggyContract), (fun i => (Function.update s.contracts peg PEG i).pool.funds.get a) =
        Function.update (fun i => (s.contracts i).pool.funds.get a) peg (PEG.pool.funds.get a) := fun PEG => by
      funext i
      exact Function.apply_update (fun _ (PEG : PeggyContract) => PEG.pool.funds.get a) s.contracts peg PEG i
    rw [hfunds, total_update hpeg, updatemargin_get, updatemargin_get, h.funds]
    ring

/-- Units and accounts play no part in the balance. -/
theorem Balanced.accts {s : PeggyInfo} (h : Balanced s) (accts : AcctsInfo) : Balanced { s with accts } := ⟨h.reserves, h.funds⟩

theorem Balanced.paidOff {s : PeggyInfo} {peg : Nat} (hpeg : peg < s.numpegs) (h : Balanced s) (i : Nat) (U : PeggyUnit)
    (entry : PeggyEntry) (satoshis : Int) : Balanced (paidOff s peg i U entry satoshis) :=
  (changereserve_balanced hpeg h _ _ _ _ _).accts _

theorem Balanced.prices {s : PeggyInfo} (h : Balanced s) (peg : Nat) (dayprice : Int) (dayprices : Nat → Nat) :
    Balanced { s with contracts := Function.update s.contracts peg { s.contracts peg with dayprice, dayprices } } where
  reserves := h.reserves
  funds a := by
    have hfunds : ∀ i, (Function.update s.contracts peg { s.contracts peg with dayprice, dayprices } i).pool =
        (s.contracts i).pool := fun i => by
      by_cases hi : i = peg
      · rw [hi, Function.update_self]
      · rw [Function.update_of_ne hi]
    simp only [hfunds]
    exact h.funds a

theorem margincalls_balanced {s : PeggyInfo} {peg : Nat} (hpeg : peg < s.numpegs) (h : Balanced s) (newprice shortprice : Int) :
    Balanced (peggyMargincalls s peg newprice shortprice) := by
  refine (rounds_induct (motive := fun _ t => Balanced t ∧ t.numpegs = s.numpegs) _ ⟨h, rfl⟩ ?_).1
  intro k _ ⟨hk, hn⟩
  rcases margincall_cases peg newprice shortprice (rounds (margincall peg newprice shortprice) s k) k with
    hsame | ⟨U, -, -, hpaid⟩
  · rw [hsame]
    exact ⟨hk, hn⟩
  · rw [hpaid]
    exact ⟨hk.paidOff (hn ▸ hpeg) _ _ _ _, hn⟩

theorem step_balanced (acct777Lockhash : BitVec 256 → BitVec 16 → BitVec 8 → BitVec 256) {s : PeggyInfo} (h : Balanced s)
    (op : Op) : Balanced (step acct777Lockhash s op) := by
  cases op with
  | createunit c =>
    rcases @createunit_cases acct777Lockhash s c with hsame | ⟨peg, U, entry, satoshis, hU, -, -, hafter⟩
    · rw [hsame]
      exact h
    · rw [hafter]
      obtain ⟨polarity, V, hpeg, -⟩ := createdUnit_cases hU
      exact (changereserve_balanced (createdPeg_lt hpeg) h _ _ _ _ _).accts _
  | redeem r =>
    rcases @redeem_cases acct777Lockhash s r with ⟨hsame, -⟩ | ⟨peg, i, U, htarget, -, hpaid⟩
    · rw [hsame]
      exact h
    · rw [hpaid]
      exact h.paidOff (target_some htarget).1 _ _ _ _
  | margincalls peg newprice shortprice =>
    rw [step]
    split
    · next hpeg => exact margincalls_balanced hpeg h _ _
    · exact h
  | prices peg dayprice dayprices => exact h.prices peg dayprice dayprices

/-- Whatever units are created, redeemed and called in whatever order, the bank stays balanced. -/
theorem run_balanced (acct777Lockhash : BitVec 256 → BitVec 16 → BitVec 8 → BitVec 256) {s : PeggyInfo} (h : Opened s)
    (ops : List Op) : Balanced (run acct777Lockhash s ops) := by
  have hrun : ∀ t, Balanced t → Balanced (run acct777Lockhash t ops) := by
    induction ops with
    | nil => exact fun t ht => ht
    | cons op ops ih => exact fun t ht => ih _ (step_balanced acct777Lockhash ht op)
  exact hrun s h.balanced

/-- Terms under which units are held 7 to 30 days. -/
def monthLock : PeggyLock where
  peg := 0
  denom := 0
  minlockdays := 7
  maxlockdays := 30
  clonesmear := 0
  mixrange := 7777
  redemptiongapdays := 7
  extralockdays := 6
  margin := 10

/-- A contract whose unit costs one coin every day. -/
def parContract (assetbits : Nat) (baseid : Fin 256) : PeggyContract :=
  { (default : PeggyContract) with
    assetbits, baseid, lockparms := monthLock, pool := { (default : PeggyPool) with mainunitsize := 1000000 }
    maxsupply := 100000000000000, genesisprice := 10004569, dayprice := 10004569, unitincr := 100000000
    dayprices := fun _ => 10004569 }

/-- A bank with the pegs "BTCD" and "USD". -/
def newBank (indexed : Bool) : PeggyInfo where
  bank := default
  basereserves := fun _ => default
  interesttenths := 0
  posboost := 1
  negpenalty := 1
  feediv := 2
  feemult := 1
  numpegs := 2
  contracts i := if i = 0 then parContract 0x44435442 btcdId else parContract 0x445355 usdId
  accts := ⟨[], [], indexed, fun _ _ => none, fun _ => none, 0, 0⟩

theorem newBank_opened (indexed : Bool) : Opened (newBank indexed) where
  numpegs := (by decide : 2 ≤ peggyMaxpegs)
  bank := rfl
  reserves _ := rfl
  funds i _ := by
    simp only [newBank]
    split <;> rfl
  liability i _ := by
    simp only [newBank]
    split <;> rfl
  units := rfl

/-- Locks of five units of the second peg, paid with ten coins. -/
def fiveUnits (peg denom : BitVec 16) : Creation where
  now := 0
  readU := false
  seed := 0
  name := none
  lockhash := 7
  lock := { monthLock with peg, denom, minlockdays := 10, maxlockdays := 20, margin := 0 }
  amount := 1000000000
  marginamount := 0

/-- The second peg redeemed after 14 days. -/
def redeemUnits : Redemption where
  now := 14 * 86400
  readonly := false
  assetbits := 0x445355
  polarity := 1
  pubkey := 0
  lockdays := 10
  chainlen := 1

theorem run_balanced_traded :
    let ops := [.createunit (fiveUnits 1 5), .createunit (fiveUnits 1 (-5)), .redeem redeemUnits, .margincalls 1 0 0]
    (run (fun _ _ _ => 7) (newBank false) ops).accts.units.length = 1 ∧
      Balanced (run (fun _ _ _ => 7) (newBank false) ops) :=
  ⟨by decide +kernel, run_balanced _ (newBank_opened false) _⟩

end SuperNet.Peggy.Peggy777
