import SuperNet.Peggy.PeggyReserves

/-! A redemption before the lock of the unit has run out. -/
namespace SuperNet.Peggy.Peggy777
open Lib.Words Lib.SwapRemove Serdes777 Accts777

/-- Less time has passed since the unit was created than its lock and its extra days ask for. -/
structure Early (now : Nat) (U : PeggyUnit) (lockdays : BitVec 16) : Prop where
  since : U.timestamp ≤ now
  early : now - U.timestamp < holdingDays U lockdays * peggyDayticks

instance (now : Nat) (U : PeggyUnit) (lockdays : BitVec 16) : Decidable (Early now U lockdays) :=
  decidable_of_iff (U.timestamp ≤ now ∧ now - U.timestamp < holdingDays U lockdays * peggyDayticks)
    ⟨fun h => ⟨h.1, h.2⟩, fun h => ⟨h.since, h.early⟩⟩

theorem Early.elapsed {now : Nat} {U : PeggyUnit} {lockdays : BitVec 16} (h : Early now U lockdays) (hnow : now < 2^32) :
    elapsed now U < holdingDays U lockdays := by
  have hsub : ((now : Int) - U.timestamp) = ((now - U.timestamp : Nat) : Int) := (Nat.cast_sub h.since).symm
  have hword : u32 ((now : Int) - U.timestamp) = now - U.timestamp := by
    rw [hsub]
    exact unsigned_of_lt (by omega)
  rw [Peggy777.elapsed, hword]
  exact (Nat.div_lt_iff_lt_mul (by decide)).mpr h.early

theorem redeemPaid_early {s : PeggyInfo} {now : Nat} {U : PeggyUnit} {lockdays : BitVec 16} (h : Early now U lockdays)
    (hnow : now < 2^32) : redeemPaid s now U lockdays = 0 := by
  rw [redeemPaid, peggyRedeemhash, if_pos (h.elapsed hnow)]
  rfl

/-- A unit that is paid off is no longer among the units. -/
theorem paidOff_ne {s : PeggyInfo} {i : Nat} {U : PeggyUnit} (hU : s.accts.units[i]? = some U) (peg : Nat)
    (entry : PeggyEntry) (satoshis : Int) : paidOff s peg i U entry satoshis ≠ s := by
  intro h
  have hunits : swapRemove s.accts.units i = s.accts.units := congrArg (fun t : PeggyInfo => t.accts.units) h
  have hlen := (swapRemove_perm hU).length_eq
  rw [List.length_cons, hunits] at hlen
  omega

section
variable (acct777Lockhash : BitVec 256 → BitVec 16 → BitVec 8 → BitVec 256)

/-- The redemption gives nothing and changes neither the units nor the books. -/
def Refused (s : PeggyInfo) (r : Redemption) : Prop := peggyRedeem acct777Lockhash s r = (s, 0)

/-- Too early, the unit is kept exactly when the redemption only asks. -/
theorem early_refused_iff {s : PeggyInfo} {r : Redemption} {peg i : Nat} {U : PeggyUnit}
    (htarget : r.target acct777Lockhash s = some (peg, i, U)) (hnow : r.now < 2^32) (hearly : Early r.now U r.lockdays) :
    Refused acct777Lockhash s r ↔ r.readonly = true := by
  have hpaid := redeemPaid_early (s := s) hearly hnow
  constructor
  · intro h
    by_contra hread
    rw [Bool.not_eq_true] at hread
    have hstep : peggyRedeem acct777Lockhash s r = (paidOff s peg i U (peggyRedeemhash s r.now U r.lockdays).1 0, 0) := by
      simp only [peggyRedeem, htarget, hread, hpaid]
      rfl
    rw [Refused, hstep] at h
    exact paidOff_ne (target_some htarget).2.1 _ _ _ (congrArg Prod.fst h)
  · intro hread
    simp only [Refused, peggyRedeem, htarget, hread, hpaid, if_true]

end

/-- The bank after five units have been locked for 10 days. -/
def heldBank : PeggyInfo := step (fun _ _ _ => 7) (newBank false) (.createunit (fiveUnits 1 5))

/-- A redemption of these units on the day after. -/
def nextDay (readonly : Bool) : Redemption := { redeemUnits with now := 86400, readonly }

private theorem nextDay_target (readonly : Bool) :
    ∃ peg i U, (nextDay readonly).target (fun _ _ _ => 7) heldBank = some (peg, i, U) ∧ Early 86400 U 10 := by
  have hall : ∀ readonly : Bool,
      ((nextDay readonly).target (fun _ _ _ => 7) heldBank).map (fun x => decide (Early 86400 x.2.2 10)) = some true := by
    decide +kernel
  obtain ⟨⟨peg, i, U⟩, htarget, hearly⟩ := Option.map_eq_some_iff.mp (hall readonly)
  exact ⟨peg, i, U, htarget, of_decide_eq_true hearly⟩

/-- Asked about on the day after, the units stay. -/
theorem early_refused_asked : Refused (fun _ _ _ => 7) heldBank (nextDay true) := by
  obtain ⟨peg, i, U, htarget, hearly⟩ := nextDay_target true
  exact (early_refused_iff (fun _ _ _ => 7) htarget (by decide) hearly).mpr rfl

/-- Redeemed on the day after, the units are gone and nothing is paid. -/
theorem early_redemption_purges :
    heldBank.accts.units.length = 1 ∧ (peggyRedeem (fun _ _ _ => 7) heldBank (nextDay false)).1.accts.units = [] ∧
      (peggyRedeem (fun _ _ _ => 7) heldBank (nextDay false)).2 = 0 ∧
      ¬ ∀ (acct777Lockhash : BitVec 256 → BitVec 16 → BitVec 8 → BitVec 256) (s : PeggyInfo) (r : Redemption) (peg i : Nat)
        (U : PeggyUnit), r.target acct777Lockhash s = some (peg, i, U) → r.now < 2^32 → Early r.now U r.lockdays →
          Refused acct777Lockhash s r := by
  have hruns : heldBank.accts.units.length = 1 ∧
      (peggyRedeem (fun _ _ _ => 7) heldBank (nextDay false)).1.accts.units.length = 0 ∧
      (peggyRedeem (fun _ _ _ => 7) heldBank (nextDay false)).2 = 0 := by
    decide +kernel
  refine ⟨hruns.1, List.length_eq_zero_iff.mp hruns.2.1, hruns.2.2, fun h => ?_⟩
  obtain ⟨peg, i, U, htarget, hearly⟩ := nextDay_target false
  have hrefused : peggyRedeem (fun _ _ _ => 7) heldBank (nextDay false) = (heldBank, 0) :=
    h _ _ _ peg i U htarget (by decide) hearly
  rw [hrefused, hruns.1] at hruns
  exact absurd hruns.2.1 (by decide)

end SuperNet.Peggy.Peggy777
