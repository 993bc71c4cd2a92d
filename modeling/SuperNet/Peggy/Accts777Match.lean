import SuperNet.Peggy.Accts777

/-! Finding a unit among those that were added and not deleted. -/
namespace SuperNet.Peggy.Accts777
open Lib.SwapRemove Serdes777

/-- `accts777_init`, which sets `hashaddrs`. -/
def accts777Init (nextpos : Nat) : AcctsInfo where
  paymentsQ := []
  units := []
  indexed := true
  addrkvs := fun _ _ => none
  pricefeeds := fun _ => none
  peggyhash := 0
  nextpos := nextpos

/-- `delete` names the unit by its place in the array. -/
inductive UnitOp where
  | addunit (U : PeggyUnit) (lockhash : BitVec 256)
  | delete (i : Nat)

def applyUnitOp (accts : AcctsInfo) : UnitOp → AcctsInfo
  | .addunit U lockhash => peggyAddunit accts U lockhash
  | .delete i => peggyDelete accts i

def runUnitOps (accts : AcctsInfo) (ops : List UnitOp) : AcctsInfo := ops.foldl applyUnitOp accts

/-- The lookup agrees with the live units. -/
structure Finds (accts : AcctsInfo) : Prop where
  found : ∀ U ∈ accts.units, ∀ lockdays, U.lock.minlockdays ≤ lockdays → lockdays ≤ U.lock.maxlockdays →
    ∃ i V, peggyMatch accts U.lock.peg.toInt U.lockhash lockdays = some (i, V) ∧ V.lockhash = U.lockhash
  missed : ∀ peg lockhash lockdays, (¬ ∃ U ∈ accts.units, U.offers peg lockdays = true ∧ U.lockhash = lockhash) →
    peggyMatch accts peg lockhash lockdays = none

/-- With the index nothing is found, so that only units that fit no lock are not missed. -/
theorem finds_iff_of_indexed {accts : AcctsInfo} (h : accts.indexed = true) :
    Finds accts ↔ ∀ U ∈ accts.units, U.lock.maxlockdays < U.lock.minlockdays := by
  have hnone : ∀ peg lockhash lockdays, peggyMatch accts peg lockhash lockdays = none := by
    intro peg lockhash lockdays
    rw [peggyMatch, if_pos h]
  constructor
  · intro hfinds U hU
    by_contra hrange
    obtain ⟨i, V, hmatch, -⟩ := hfinds.found U hU U.lock.maxlockdays (BitVec.not_lt.mp hrange) (BitVec.le_refl _)
    rw [hnone] at hmatch
    cases hmatch
  · intro hrange
    refine ⟨fun U hU lockdays hmin hmax => ?_, fun peg lockhash lockdays _ => hnone peg lockhash lockdays⟩
    exact absurd (hrange U hU) (BitVec.not_lt.mpr (BitVec.le_trans hmin hmax))

theorem runUnitOps_indexed (accts : AcctsInfo) (ops : List UnitOp) : (runUnitOps accts ops).indexed = accts.indexed := by
  induction ops generalizing accts with
  | nil => rfl
  | cons op ops ih =>
    have hop : (applyUnitOp accts op).indexed = accts.indexed := by cases op <;> rfl
    exact (ih (applyUnitOp accts op)).trans hop

/-- Whatever has been added and deleted, the lookup agrees with the live units only while none of them can be asked for. -/
theorem run_finds_iff (nextpos : Nat) (ops : List UnitOp) :
    Finds (runUnitOps (accts777Init nextpos) ops) ↔
      ∀ U ∈ (runUnitOps (accts777Init nextpos) ops).units, U.lock.maxlockdays < U.lock.minlockdays := by
  apply finds_iff_of_indexed
  exact runUnitOps_indexed (accts777Init nextpos) ops

/-- A unit of the second peg for 10 to 20 days. -/
def sampleUnit : PeggyUnit where
  estimatedInterest := 0
  costbasis := 500000000
  amount := 500000000
  marginamount := 0
  timestamp := 0
  dailyrate := 0
  baseid := 1
  relid := 0
  lock := ⟨1, 5, 10, 20, 0, 7777, 7, 3, 0⟩
  lockhash := 0

theorem sampleUnit_lost :
    let accts := runUnitOps (accts777Init 0) [.addunit sampleUnit 7]
    accts.units = [{ sampleUnit with lockhash := 7 }] ∧ peggyMatch accts 1 7 15 = none ∧
      ¬ ∀ (nextpos : Nat) (ops : List UnitOp), Finds (runUnitOps (accts777Init nextpos) ops) := by
  refine ⟨rfl, rfl, fun h => ?_⟩
  have hrange := (finds_iff_of_indexed rfl).mp (h 0 [.addunit sampleUnit 7]) _ (List.mem_singleton_self _)
  exact absurd hrange (by decide)

end SuperNet.Peggy.Accts777
