import SuperNet.Peggy.PeggyRedemption
import SuperNet.Peggy.PeggytxSend

/-! When a transaction that `peggy_txind` or `peggy_txind_tune` reports as failed has left nothing behind. -/
namespace SuperNet.Peggy.Peggy777
open Lib.Words Serdes777 Accts777

theorem Same.symm {s t : PeggyInfo} (h : Same s t) : Same t s where
  balances k := (h.balances k).symm
  units := h.units.symm
  pricefeeds := h.pricefeeds.symm
  indexed := h.indexed.symm
  peggyhash := h.peggyhash.symm
  bank := by rw [h.bank]

theorem Outcome.neg_iff {s t : PeggyInfo} {r value : Int} {dest : Table × Nat} {f : Fate} (h : Outcome s t r dest value f) :
    r < 0 ↔ f = .refused := by
  cases h with
  | refused hr _ => exact ⟨fun _ => rfl, fun _ => hr⟩
  | idle hr _ => exact ⟨fun h => absurd h (not_lt.mpr hr), nofun⟩
  | created hr _ => exact ⟨fun h => absurd h (not_lt.mpr hr), nofun⟩
  | paid hr _ _ => exact ⟨fun h => absurd h (not_lt.mpr hr), nofun⟩

theorem Outcome.same {s t : PeggyInfo} {r value : Int} {dest : Table × Nat} {f : Fate} (h : Outcome s t r dest value f)
    (hf : f.effective = false) : Same s t := by
  cases h with
  | refused _ h => exact h
  | idle _ h => exact h
  | created _ _ => cases hf
  | paid _ _ _ => cases hf

theorem Outcome.same_iff {s t : PeggyInfo} {r value : Int} {dest : Table × Nat} {f : Fate} (h : Outcome s t r dest value f) :
    Same s t ↔ f.effective = false := by
  refine ⟨fun hs => ?_, h.same⟩
  cases h with
  | refused _ _ => rfl
  | idle _ _ => rfl
  | created _ h =>
    obtain ⟨U, hU⟩ := h.units
    rw [hs.units] at hU
    simp at hU
  | paid _ h0 h =>
    have hpaid := h.balances dest
    rw [hs.balances, if_pos rfl] at hpaid
    exact absurd (by omega) h0

/-- An output with this value pays an account or creates a unit. -/
def TakesEffect (s : PeggyInfo) (b : Block) (value : Int) (out : PeggyOutput) : Prop :=
  if out.type = 1 then 0 < value ∧ (outCreation s b value out.dest).Accepted s = true else out.type ≠ 0 ∧ value ≠ 0

instance (s : PeggyInfo) (b : Block) (value : Int) (out : PeggyOutput) : Decidable (TakesEffect s b value out) := by
  unfold TakesEffect
  infer_instance

theorem effective_iff (s : PeggyInfo) (b : Block) (value : Int) (out : PeggyOutput) :
    (valueFate s b false value out).effective = true ↔ TakesEffect s b value out := by
  rw [valueFate, TakesEffect]
  by_cases hbtcd : out.type = 0
  · have hcreate : out.type ≠ 1 := by
      rw [hbtcd]
      decide
    rw [if_pos hbtcd, if_neg hcreate]
    refine iff_of_false ?_ fun h => h.1 hbtcd
    split <;> decide
  · rw [if_neg hbtcd]
    by_cases hcreate : out.type = 1
    · rw [if_pos hcreate, if_pos hcreate]
      by_cases hpos : 0 < value
      · rw [if_pos hpos]
        cases (outCreation s b value out.dest).Accepted s with
        | false => exact iff_of_false (by decide) fun h => Bool.false_ne_true h.2
        | true => exact iff_of_true (by decide) ⟨hpos, rfl⟩
      · rw [if_neg hpos]
        refine iff_of_false ?_ fun h => hpos h.1
        split <;> decide
    · rw [if_neg hcreate, if_neg hcreate, if_neg Bool.false_ne_true]
      by_cases hzero : value = 0
      · rw [if_pos hzero]
        exact iff_of_false (by decide) fun h => h.2 hzero
      · rw [if_neg hzero]
        exact iff_of_true (by decide) ⟨hbtcd, hzero⟩

/-- An input that is paid out of the balance of its account. -/
def Plain (inp : PeggyInput) : Prop := inp.type = 2 ∨ inp.type = 5 ∨ inp.type = 4 ∧ inp.src.newlock.minlockdays = 0

instance (inp : PeggyInput) : Decidable (Plain inp) := inferInstanceAs (Decidable (_ ∨ _ ∨ _))

/-- A public key input that redeems a unit. -/
def Locked (inp : PeggyInput) : Prop := inp.type = 4 ∧ inp.src.newlock.minlockdays ≠ 0

instance (inp : PeggyInput) : Decidable (Locked inp) := inferInstanceAs (Decidable (_ ∧ _))

theorem Plain.not_locked {inp : PeggyInput} (h : Plain inp) : ¬ Locked inp := by
  rintro ⟨hpub, hdays⟩
  rcases h with htype | htype | ⟨-, hzero⟩
  · exact absurd (htype.symm.trans hpub) (by decide)
  · exact absurd (htype.symm.trans hpub) (by decide)
  · exact hdays hzero

/-- The outputs share out a single input with a balance. -/
structure SharedOut (s : PeggyInfo) (tx : PeggyTx) : Prop where
  vins : ∀ out ∈ txOuts tx, out.vin.toNat = 0 ∧ out.ratio.toNat ≤ priceResolution
  whole : ((txOuts tx).map fun out => out.ratio.toNat).sum = priceResolution
  balance : 0 ≤ acct777Balance s.accts (tx.inputs.getD 0 default).src (tx.inputs.getD 0 default).type

instance (s : PeggyInfo) (tx : PeggyTx) : Decidable (SharedOut s tx) :=
  decidable_of_iff (_ ∧ _ ∧ _) ⟨fun h => ⟨h.1, h.2.1, h.2.2⟩, fun h => ⟨h.vins, h.whole, h.balance⟩⟩

theorem vinsum_shared {tx : PeggyTx} (h : ∀ out ∈ txOuts tx, out.vin.toNat = 0) (vin : Nat) :
    vinsum tx vin = if vin = 0 then ((txOuts tx).map fun out => out.ratio.toNat).sum else 0 := by
  rw [vinsum]
  split
  · next hvin =>
    rw [hvin, List.filter_eq_self.mpr fun out hout => decide_eq_true (h out hout)]
  · next hvin =>
    rw [List.filter_eq_nil_iff.mpr, List.map_nil, List.sum_nil]
    intro out hout heq
    exact hvin ((of_decide_eq_true heq).symm.trans (h out hout))

theorem checktx_iff {s : PeggyInfo} {tx : PeggyTx} (hone : tx.numinputs = 1) {legal : Bool}
    (h : peggyChecktx s tx = some legal) : legal = true ↔ SharedOut s tx := by
  have hnone : tx.numinputs ≠ 0 := by
    rw [hone]
    decide
  have hnum : tx.numinputs.toNat = 1 := by
    rw [hone]
    rfl
  have hins : txIns tx = [tx.inputs.getD 0 default] := by
    rw [txIns, hnum]
    rfl
  rw [peggyChecktx, if_neg fun h => hnone h.2, if_neg hnone, hnum, hins] at h
  simp only [Bool.and_eq_true, List.all_eq_true, decide_eq_true_eq, Nat.lt_one_iff, List.range_one, List.mem_singleton,
    forall_eq] at h
  split at h
  · next hshares =>
    have hvins : ∀ out ∈ txOuts tx, out.vin.toNat = 0 := fun out hout => (hshares.1 out hout).1
    rw [vinsum_shared hvins, if_pos rfl] at hshares
    rw [checkBalances] at h
    split at h
    · cases h
    · split at h
      · next hneg =>
        obtain rfl := Option.some.inj h
        exact iff_of_false Bool.false_ne_true fun hshared => absurd hshared.balance (not_le.mpr hneg)
      · next hpos =>
        obtain rfl := Option.some.inj h
        exact iff_of_true rfl ⟨hshares.1, hshares.2, not_lt.mp hpos⟩
  · next hshares =>
    obtain rfl := Option.some.inj h
    refine iff_of_false Bool.false_ne_true fun hshared => hshares ⟨hshared.vins, ?_⟩
    rw [vinsum_shared fun out hout => (hshared.vins out hout).1, if_pos rfl, hshared.whole]

section
variable (acct777Lockhash : BitVec 256 → BitVec 16 → BitVec 8 → BitVec 256)

/-- What a locked input is worth: what the pool pays for the unit it meets. -/
def lockedValue (s : PeggyInfo) (b : Block) (inp : PeggyInput) : Nat :=
  match (lockedInput s b inp).target acct777Lockhash s with
  | none => 0
  | some (_, _, U) =>
    if Redeemable b.now U inp.src.newlock.minlockdays then unitPays s U inp.src.newlock.minlockdays else 0

theorem locked_value (s : PeggyInfo) (b : Block) {inp : PeggyInput} (hlocked : Locked inp) (ratio : Nat) (outtype : BitVec 8) :
    inputValue acct777Lockhash s b inp ratio outtype =
      if ratio = priceResolution then some (lockedValue acct777Lockhash s b inp : Int) else none := by
  have hredeem : (peggyRedeem acct777Lockhash s (lockedInput s b inp)).2 = lockedValue acct777Lockhash s b inp := by
    rw [peggyRedeem, lockedValue]
    cases (lockedInput s b inp).target acct777Lockhash s with
    | none => rfl
    | some x =>
      obtain ⟨peg, i, U⟩ := x
      have hpaid : redeemPaid s b.now U inp.src.newlock.minlockdays = _ := redeemPaid_eq s b.now U inp.src.newlock.minlockdays
      simp only [lockedInput, if_true]
      rw [hpaid]
  have htype : inp.type.toNat = 4 := by
    rw [hlocked.1]
    rfl
  simp only [inputValue, htype]
  rw [if_pos hlocked.2, hredeem, ite_not]

/-- A unit as input is worth nothing to an account. -/
theorem other_worthless {s : PeggyInfo} {b : Block} {inp : PeggyInput} {ratio : Nat} {outtype : BitVec 8} {value : Int}
    (hplain : ¬ Plain inp) (hlocked : ¬ Locked inp) (h : inputValue acct777Lockhash s b inp ratio outtype = some value) :
    value = 0 := by
  rw [inputValue] at h
  split at h
  · next htype => exact absurd (.inl (BitVec.eq_of_toNat_eq htype)) hplain
  · next htype => exact absurd (.inr (.inl (BitVec.eq_of_toNat_eq htype))) hplain
  · next htype =>
    have hpub : inp.type = 4 := BitVec.eq_of_toNat_eq htype
    by_cases hdays : inp.src.newlock.minlockdays = 0
    · exact absurd (.inr (.inr ⟨hpub, hdays⟩)) hplain
    · exact absurd ⟨hpub, hdays⟩ hlocked
  · split at h
    · cases h
    · exact (Option.some.inj h).symm
  · cases h

theorem plain_covered {s : PeggyInfo} {inp : PeggyInput} (hplain : Plain inp) (hcovers : Covers s inp) (b : Block) (ratio : Nat)
    (outtype : BitVec 8) : inputValue acct777Lockhash s b inp ratio outtype = some (i64 inp.amount.toNat) := by
  rcases hplain with htype | htype | ⟨htype, hdays⟩
  all_goals
    rw [inputValue, htype]
    simp [*]

theorem plain_uncovered {s : PeggyInfo} {inp : PeggyInput} (hplain : Plain inp) (hcovers : ¬ Covers s inp) (b : Block) (ratio : Nat)
    (outtype : BitVec 8) : (inputValue acct777Lockhash s b inp ratio outtype).getD 0 = 0 := by
  rcases hplain with htype | htype | ⟨htype, hdays⟩
  all_goals
    rw [inputValue, htype]
    simp [*]

theorem plain_not_unit {inp : PeggyInput} (hplain : Plain inp) : decide (inp.type = 3) = false := by
  rcases hplain with htype | htype | ⟨htype, -⟩
  all_goals
    rw [htype]
    rfl

theorem worthless_idle {s : PeggyInfo} {b : Block} {inp : PeggyInput} {ratio : Nat} {out : PeggyOutput}
    (hvalue : (inputValue acct777Lockhash s b inp ratio out.type).getD 0 = 0) :
    (fate acct777Lockhash s b 0 (some inp) ratio out).effective = false := by
  simp only [fate]
  cases hinput : inputValue acct777Lockhash s b inp ratio out.type with
  | none => rfl
  | some value =>
    rw [hinput, Option.getD_some] at hvalue
    subst hvalue
    dsimp only
    cases hunit : decide (inp.type = 3) with
    | false =>
      rw [← Bool.not_eq_true, effective_iff, TakesEffect]
      split
      · exact fun h => absurd h.1 (lt_irrefl 0)
      · exact fun h => h.2 rfl
    | true =>
      rw [valueFate]
      split
      · split <;> rfl
      · split
        · rw [if_neg (lt_irrefl 0)]
          split <;> rfl
        · rfl

/-- Outputs that are worth nothing in every state like the first change nothing. -/
theorem worthless_same {b : Block} {inp : PeggyInput} {len : Nat} (hlen : len < 100) (outs : List (Nat × PeggyOutput)) {s t : PeggyInfo}
    {sent : Bool}
    (hvalue : ∀ s', Same s s' → ∀ ratio outtype, (inputValue acct777Lockhash s' b inp ratio outtype).getD 0 = 0)
    (h : sendOutputs acct777Lockhash b inp len outs s = some (t, sent)) : Same s t := by
  induction outs generalizing s with
  | nil =>
    obtain ⟨rfl, -⟩ := Prod.mk.inj (Option.some.inj h)
    exact .refl s
  | cons out outs ih =>
    obtain ⟨ratio, out⟩ := out
    rw [sendOutputs] at h
    obtain ⟨⟨s', r⟩, hsend, h⟩ := Option.bind_eq_some_iff.mp h
    obtain ⟨k, -, hout⟩ := send_outcome acct777Lockhash hlen hsend
    have hsame := hout.same (worthless_idle acct777Lockhash (hvalue s (.refl s) ratio out.type))
    dsimp only at h
    split at h
    · obtain ⟨rfl, -⟩ := Prod.mk.inj (Option.some.inj h)
      exact hsame
    · exact hsame.trans (ih (fun s'' hs => hvalue s'' (hsame.trans hs)) h)

theorem Paid.balance {s t : PeggyInfo} {k : Table × Nat} {value : Int} (h : Paid s t k value) (addr : PeggyAddr) (type : BitVec 8) :
    acct777Balance t.accts addr type =
      if accts777Key addr type = some k then acct777Balance s.accts addr type + value else acct777Balance s.accts addr type := by
  rw [acct777Balance_eq, acct777Balance_eq]
  cases hsrc : accts777Key addr type with
  | none => rfl
  | some j =>
    simp only [Option.map_some, Option.getD_some, h.balances, Option.some.injEq]
    split
    · rfl
    · rw [add_zero]

theorem Outcome.balances {s t : PeggyInfo} {r value : Int} {dest : Table × Nat} {f : Fate} (h : Outcome s t r dest value f)
    (hf : f ≠ .paid) : balanceAt t = balanceAt s := by
  cases h with
  | refused _ h => exact funext h.balances
  | idle _ h => exact funext h.balances
  | created _ h => exact funext h.balances
  | paid _ _ _ => exact absurd rfl hf

/-- An input stays covered: what is paid back to its account adds to its balance. -/
theorem Outcome.covers {s t : PeggyInfo} {inp : PeggyInput} {r : Int} {dest : Table × Nat} {f : Fate}
    (h : Outcome s t r dest (i64 inp.amount.toNat) f) (hpos : 0 < i64 inp.amount.toNat)
    (hbalance : 0 ≤ acct777Balance s.accts inp.src inp.type) (hcovers : Covers s inp) :
    0 ≤ acct777Balance t.accts inp.src inp.type ∧ Covers t inp := by
  by_cases hf : f = .paid
  · subst hf
    cases h with
    | paid _ _ h =>
      rw [Covers, h.balance]
      split
      · next hsrc =>
        have hfits : acct777Balance s.accts inp.src inp.type + i64 inp.amount.toNat < 2^63 := by
          have hlt := h.fits
          rw [h.balances, if_pos rfl] at hlt
          rwa [acct777Balance_eq, hsrc, Option.map_some, Option.getD_some]
        have hamount : i64 inp.amount.toNat = inp.amount.toNat := by
          by_contra hwrap
          have hge : ¬ (inp.amount.toNat : Int) < 2^63 := fun hlt =>
            hwrap (signed_of_bounds (w := 64) (by omega) (by omega))
          have hneg : i64 inp.amount.toNat = inp.amount.toNat - 2^64 := signed_wrap (by omega) (by omega)
          omega
        have hword : (u64 (acct777Balance s.accts inp.src inp.type + i64 inp.amount.toNat) : Int) =
            acct777Balance s.accts inp.src inp.type + i64 inp.amount.toNat := unsigned_of_bounds (by omega) (by omega)
        exact ⟨by omega, by omega⟩
      · exact ⟨hbalance, hcovers⟩
  · have hstay : acct777Balance t.accts inp.src inp.type = acct777Balance s.accts inp.src inp.type := by
      rw [acct777Balance_eq, acct777Balance_eq, h.balances hf]
    rw [Covers, hstay]
    exact ⟨hbalance, hcovers⟩

/-- An output of a covered input with a positive amount is not refused. -/
theorem covered_goes {s : PeggyInfo} {inp : PeggyInput} (b : Block) (ratio : Nat) (out : PeggyOutput) (hplain : Plain inp)
    (hpos : 0 < i64 inp.amount.toNat) (hcovers : Covers s inp) :
    fate acct777Lockhash s b 0 (some inp) ratio out = valueFate s b false (i64 inp.amount.toNat) out ∧
      fate acct777Lockhash s b 0 (some inp) ratio out ≠ .refused := by
  have hfate : fate acct777Lockhash s b 0 (some inp) ratio out = valueFate s b false (i64 inp.amount.toNat) out := by
    simp only [fate, plain_covered acct777Lockhash hplain hcovers, plain_not_unit hplain]
  refine ⟨hfate, ?_⟩
  rw [hfate, valueFate]
  split
  · rw [if_neg fun h => absurd h.1 (not_lt.mpr hpos.le)]
    decide
  · split
    · split <;> decide
    · rw [if_neg Bool.false_ne_true]
      split <;> decide

theorem covered_worth {s : PeggyInfo} {b : Block} {inp : PeggyInput} {ratio : Nat} {out : PeggyOutput} (hplain : Plain inp)
    (hcovers : Covers s inp) : worth acct777Lockhash s b 0 (some inp) ratio out = i64 inp.amount.toNat := by
  rw [worth, plain_covered acct777Lockhash hplain hcovers, Option.getD_some]

theorem covered_sent {b : Block} {inp : PeggyInput} {len : Nat} (hlen : len < 100) (hplain : Plain inp)
    (hpos : 0 < i64 inp.amount.toNat) (outs : List (Nat × PeggyOutput)) {s t : PeggyInfo} {sent : Bool}
    (hbalance : 0 ≤ acct777Balance s.accts inp.src inp.type) (hcovers : Covers s inp)
    (h : sendOutputs acct777Lockhash b inp len outs s = some (t, sent)) : sent = true := by
  induction outs generalizing s with
  | nil => exact (Prod.mk.inj (Option.some.inj h)).2.symm
  | cons out outs ih =>
    obtain ⟨ratio, out⟩ := out
    rw [sendOutputs] at h
    obtain ⟨⟨s', r⟩, hsend, h⟩ := Option.bind_eq_some_iff.mp h
    obtain ⟨k, -, hout⟩ := send_outcome acct777Lockhash hlen hsend
    rw [covered_worth acct777Lockhash hplain hcovers] at hout
    dsimp only at h
    rw [if_neg fun hneg => (covered_goes acct777Lockhash _ _ _ hplain hpos hcovers).2 (hout.neg_iff.mp hneg)] at h
    obtain ⟨hbalance', hcovers'⟩ := hout.covers hpos hbalance hcovers
    exact ih hbalance' hcovers' h

/-- A balance that covers a positive amount is a balance that the outputs are all paid from, and any other
amount is worth nothing: an input paid from a balance is never refused late. -/
theorem plain_sent_same {b : Block} {inp : PeggyInput} {len : Nat} (hlen : len < 100) (hplain : Plain inp)
    (outs : List (Nat × PeggyOutput)) {s t : PeggyInfo} (hbalance : 0 ≤ acct777Balance s.accts inp.src inp.type)
    (hint : acct777Balance s.accts inp.src inp.type < 2^63)
    (h : sendOutputs acct777Lockhash b inp len outs s = some (t, false)) : Same s t := by
  by_cases hcovers : Covers s inp
  · have hamount : inp.amount.toNat < 2^63 := by
      have hword : (u64 (acct777Balance s.accts inp.src inp.type) : Int) = acct777Balance s.accts inp.src inp.type :=
        unsigned_of_bounds hbalance (by omega)
      rw [Covers] at hcovers
      omega
    have hsigned : i64 inp.amount.toNat = inp.amount.toNat := signed_of_bounds (by omega) (by omega)
    rcases Nat.eq_zero_or_pos inp.amount.toNat with hzero | hpos
    · refine worthless_same acct777Lockhash hlen outs (fun s' hs ratio outtype => ?_) h
      have hcovers' : Covers s' inp := by
        rw [Covers, hs.balance]
        exact hcovers
      rw [plain_covered acct777Lockhash hplain hcovers', Option.getD_some, hsigned, hzero]
      rfl
    · have hsent := covered_sent acct777Lockhash hlen hplain (by omega) outs hbalance hcovers h
      cases hsent
  · refine worthless_same acct777Lockhash hlen outs (fun s' hs ratio outtype => ?_) h
    have hcovers' : ¬ Covers s' inp := by
      rw [Covers, hs.balance]
      exact hcovers
    exact plain_uncovered acct777Lockhash hplain hcovers' b ratio outtype

/-- Only an output with the whole ratio gets anything from a redeemed unit. -/
theorem locked_rest {b : Block} {inp : PeggyInput} {len : Nat} (hlen : len < 100) (hlocked : Locked inp)
    {outs : List (Nat × PeggyOutput)} (hratio : ∀ out ∈ outs, out.1 ≠ priceResolution) {s t : PeggyInfo} {sent : Bool}
    (h : sendOutputs acct777Lockhash b inp len outs s = some (t, sent)) : Same s t ∧ (sent = true ↔ outs = []) := by
  cases outs with
  | nil =>
    obtain ⟨rfl, rfl⟩ := Prod.mk.inj (Option.some.inj h)
    exact ⟨.refl s, iff_of_true rfl rfl⟩
  | cons out outs =>
    obtain ⟨ratio, out⟩ := out
    have hf : fate acct777Lockhash s b 0 (some inp) ratio out = .refused := by
      simp only [fate, locked_value acct777Lockhash s b hlocked, hratio _ List.mem_cons_self, if_false]
    rw [sendOutputs] at h
    obtain ⟨⟨s', r⟩, hsend, h⟩ := Option.bind_eq_some_iff.mp h
    obtain ⟨k, -, hout⟩ := send_outcome acct777Lockhash hlen hsend
    rw [hf] at hout
    dsimp only at h
    rw [if_pos (hout.neg_iff.mpr rfl)] at h
    obtain ⟨rfl, rfl⟩ := Prod.mk.inj (Option.some.inj h)
    exact ⟨hout.same rfl, iff_of_false Bool.false_ne_true (List.cons_ne_nil _ _)⟩

theorem locked_fate (s : PeggyInfo) (b : Block) {inp : PeggyInput} (hlocked : Locked inp) (out : PeggyOutput) :
    fate acct777Lockhash s b 0 (some inp) priceResolution out = valueFate s b false (lockedValue acct777Lockhash s b inp) out ∧
      worth acct777Lockhash s b 0 (some inp) priceResolution out = lockedValue acct777Lockhash s b inp := by
  have hunit : decide (inp.type = 3) = false := by
    rw [hlocked.1]
    rfl
  constructor
  · simp only [fate, locked_value acct777Lockhash s b hlocked, if_true, hunit]
  · simp only [worth, locked_value acct777Lockhash s b hlocked, if_true, Option.getD_some]

/-- The first output of a shared input has the whole ratio for the code, and the others have none of it. -/
theorem ratedOuts_shared {s : PeggyInfo} {tx : PeggyTx} (hshared : SharedOut s tx) (hnum : tx.numoutputs ≠ 0) :
    ∃ rest, ratedOuts tx = (priceResolution, tx.outputs.getD 0 default) :: rest ∧
      (rest = [] ↔ tx.numoutputs = 1) ∧ ∀ out ∈ rest, out.1 ≠ priceResolution := by
  obtain ⟨n, hn⟩ := Nat.exists_eq_succ_of_ne_zero fun h => hnum (BitVec.eq_of_toNat_eq h)
  have hvinsum := vinsum_shared fun out hout => (hshared.vins out hout).1
  refine ⟨(List.range n).map fun i => (vinsum tx (i + 1), tx.outputs.getD (i + 1) default), ?_, ?_, fun out hout => ?_⟩
  · rw [ratedOuts, hn, List.range_succ_eq_map, List.map_cons, List.map_map, hvinsum, if_pos rfl, hshared.whole]
    rfl
  · rw [List.map_eq_nil_iff, List.range_eq_nil, ← BitVec.toNat_inj, hn]
    exact ⟨fun h => by rw [h]; rfl, fun h => Nat.succ.inj h⟩
  · obtain ⟨i, -, rfl⟩ := List.mem_map.mp hout
    rw [hvinsum, if_neg (Nat.succ_ne_zero i)]
    exact (by decide : 0 ≠ priceResolution)

theorem bundle_same (s : PeggyInfo) (numtx : Nat) : Same s (txind777Bundle s numtx).1 := log_same s _

theorem bundle_nonneg (s : PeggyInfo) {numtx : Nat} (h0 : 0 < numtx) (h : numtx < 256) : 0 ≤ (txind777Bundle s numtx).2 := by
  rw [txind777Bundle, txind777Create]
  split
  · next hlen =>
    rw [u16, unsigned_natCast] at hlen
    omega
  · exact Int.natCast_nonneg _

theorem sendBundle_cases {b : Block} {tx : PeggyTx} {outs : List (Nat × PeggyOutput)} {numtx : Nat} {s t : PeggyInfo} {r : Int}
    (h0 : 0 < numtx) (hlt : numtx < 256) (h : sendBundle acct777Lockhash b tx outs numtx s = some (t, r)) :
    ∃ t' sent, sendOutputs acct777Lockhash b (tx.inputs.getD 0 default) 21 outs s = some (t', sent) ∧ Same t' t ∧
      (r < 0 ↔ sent = false) := by
  obtain ⟨⟨t', sent⟩, hsend, h⟩ := Option.bind_eq_some_iff.mp h
  refine ⟨t', sent, hsend, ?_⟩
  cases sent with
  | false =>
    obtain ⟨rfl, rfl⟩ := Prod.mk.inj (Option.some.inj h)
    exact ⟨.refl _, iff_of_true (Int.negSucc_lt_zero 0) rfl⟩
  | true =>
    have hbundle : txind777Bundle t' numtx = (t, r) := Option.some.inj h
    have hsame := bundle_same t' numtx
    have hnonneg := bundle_nonneg t' h0 hlt
    rw [hbundle] at hsame hnonneg
    exact ⟨hsame, iff_of_false (not_lt.mpr hnonneg) nofun⟩

/-- The transactions that change the bank and are then reported as failed: a funding that takes effect, and
a redeemed unit of which the first of several outputs takes effect. -/
def txindLate (s : PeggyInfo) (b : Block) (actionflag : Int) (tx : PeggyTx) : Prop :=
  let inp := tx.inputs.getD 0 default
  let out := tx.outputs.getD 0 default
  (0 ≤ actionflag ∧ tx.txtype = 0 ∧ peggyOnesigner tx ≠ 0) ∧
    (tx.numinputs = 0 ∧ tx.numoutputs = 1 ∧ TakesEffect s b (i64 (actionflag * tx.funding.amount.toNat)) out ∨
      tx.numinputs = 1 ∧ (tx.numoutputs ≠ 0 ∧ tx.numoutputs ≠ 1) ∧ actionflag ≠ 0 ∧ SharedOut s tx ∧ Locked inp ∧
        TakesEffect s b (lockedValue acct777Lockhash s b inp) out)

instance (s : PeggyInfo) (b : Block) (actionflag : Int) (tx : PeggyTx) : Decidable (txindLate acct777Lockhash s b actionflag tx) :=
  inferInstanceAs (Decidable ((_ ∧ _ ∧ _) ∧ (_ ∧ _ ∧ _ ∨ _ ∧ (_ ∧ _) ∧ _ ∧ _ ∧ _ ∧ _)))

theorem fund_same_iff {s t : PeggyInfo} {b : Block} {actionflag r : Int} {tx : PeggyTx}
    (h : txindFund acct777Lockhash s b actionflag tx = some (t, r)) :
    (r < 0 → Same s t) ↔
      ¬ (tx.numoutputs = 1 ∧ TakesEffect s b (i64 (actionflag * tx.funding.amount.toNat)) (tx.outputs.getD 0 default)) := by
  rw [txindFund] at h
  split at h
  · next hone =>
    obtain ⟨⟨t', txind⟩, hsend, h⟩ := Option.map_eq_some_iff.mp h
    obtain ⟨rfl, rfl⟩ := Prod.mk.inj h
    obtain ⟨k, -, hout⟩ := send_outcome acct777Lockhash (by decide : 21 + 8 + 28 < 100) hsend
    rw [← effective_iff]
    constructor
    · intro h heffective
      have hidle := hout.same_iff.mp (h (Int.negSucc_lt_zero 0))
      exact Bool.false_ne_true (hidle.symm.trans heffective.2)
    · intro h _
      exact hout.same_iff.mpr (Bool.eq_false_iff.mpr fun heffective => h ⟨hone, heffective⟩)
  · next hone =>
    obtain ⟨rfl, -⟩ := Prod.mk.inj (Option.some.inj h)
    exact iff_of_true (fun _ => .refl _) fun h => hone h.1

theorem spend_same_iff {s t : PeggyInfo} {b : Block} {actionflag r : Int} {tx : PeggyTx} (hone : tx.numinputs = 1)
    (hnum : tx.numoutputs ≠ 0) (hint : ∀ k, balanceAt s k < 2^63)
    (h : txindSpend acct777Lockhash s b actionflag tx = some (t, r)) :
    (r < 0 → Same s t) ↔
      ¬ (tx.numoutputs ≠ 1 ∧ actionflag ≠ 0 ∧ SharedOut s tx ∧ Locked (tx.inputs.getD 0 default) ∧
        TakesEffect s b (lockedValue acct777Lockhash s b (tx.inputs.getD 0 default)) (tx.outputs.getD 0 default)) := by
  obtain ⟨legal, hcheck, h⟩ := Option.bind_eq_some_iff.mp h
  have hlegal := checktx_iff hone hcheck
  split at h
  · next hill =>
    obtain ⟨rfl, -⟩ := Prod.mk.inj (Option.some.inj h)
    exact iff_of_true (fun _ => .refl _) fun h => Bool.false_ne_true (hill.symm.trans (hlegal.mpr h.2.2.1))
  · next hill =>
    split at h
    · next hflag =>
      obtain ⟨rfl, -⟩ := Prod.mk.inj (Option.some.inj h)
      exact iff_of_true (fun _ => .refl _) fun h => h.2.1 hflag
    · next hflag =>
      have hshared := hlegal.mp (by simpa using hill)
      have hpos : 0 < tx.numoutputs.toNat := Nat.pos_of_ne_zero fun h => hnum (BitVec.eq_of_toNat_eq h)
      obtain ⟨t', sent, hsend, hsame, hneg⟩ := sendBundle_cases acct777Lockhash hpos tx.numoutputs.isLt h
      have hbalance : acct777Balance s.accts (tx.inputs.getD 0 default).src (tx.inputs.getD 0 default).type < 2^63 := by
        rw [acct777Balance_eq]
        cases accts777Key (tx.inputs.getD 0 default).src (tx.inputs.getD 0 default).type with
        | none => exact (by decide : (0 : Int) < 2^63)
        | some k => exact hint k
      rw [hneg]
      by_cases hlocked : Locked (tx.inputs.getD 0 default)
      · obtain ⟨rest, hrated, hrest, hratio⟩ := ratedOuts_shared hshared hnum
        rw [hrated, sendOutputs] at hsend
        obtain ⟨⟨s', r'⟩, hfirst, hsend⟩ := Option.bind_eq_some_iff.mp hsend
        obtain ⟨k, -, hout⟩ := send_outcome acct777Lockhash (by decide : 21 < 100) hfirst
        obtain ⟨hfate, -⟩ := locked_fate acct777Lockhash s b hlocked (tx.outputs.getD 0 default)
        rw [hfate] at hout
        have heffective := effective_iff s b (lockedValue acct777Lockhash s b (tx.inputs.getD 0 default))
          (tx.outputs.getD 0 default)
        dsimp only at hsend
        by_cases hrefused : r' < 0
        · rw [if_pos hrefused] at hsend
          obtain ⟨rfl, -⟩ := Prod.mk.inj (Option.some.inj hsend)
          have hidle : (valueFate s b false (lockedValue acct777Lockhash s b (tx.inputs.getD 0 default))
              (tx.outputs.getD 0 default)).effective = false := by
            rw [hout.neg_iff.mp hrefused]
            rfl
          exact iff_of_true (fun _ => (hout.same hidle).trans hsame)
            fun h => Bool.false_ne_true (hidle.symm.trans (heffective.mpr h.2.2.2.2))
        · rw [if_neg hrefused] at hsend
          obtain ⟨hthrough, hsent⟩ := locked_rest acct777Lockhash (by decide) hlocked hratio hsend
          have hafter := hthrough.trans hsame
          rw [← heffective]
          constructor
          · rintro h ⟨hmany, -, -, -, heff⟩
            have hlate : sent = false := Bool.eq_false_iff.mpr fun h => hmany (hrest.mp (hsent.mp h))
            have hidle := hout.same_iff.mp ((h hlate).trans hafter.symm)
            exact Bool.false_ne_true (hidle.symm.trans heff)
          · intro h hlate
            have hmany : tx.numoutputs ≠ 1 := fun hone => by
              rw [hsent.mpr (hrest.mpr hone)] at hlate
              cases hlate
            exact (hout.same (Bool.eq_false_iff.mpr fun heff => h ⟨hmany, hflag, hshared, hlocked, heff⟩)).trans hafter
      · refine iff_of_true (fun hlate => ?_) fun h => hlocked h.2.2.2.1
        subst hlate
        refine Same.trans ?_ hsame
        by_cases hplain : Plain (tx.inputs.getD 0 default)
        · exact plain_sent_same acct777Lockhash (by decide) hplain _ hshared.balance hbalance hsend
        · refine worthless_same acct777Lockhash (by decide) _ (fun s' _ ratio outtype => ?_) hsend
          cases hvalue : inputValue acct777Lockhash s' b (tx.inputs.getD 0 default) ratio outtype with
          | none => rfl
          | some value => exact other_worthless acct777Lockhash hplain hlocked hvalue

theorem sendOne_same {s t : PeggyInfo} {b : Block} {inp : PeggyInput} {ratio len : Nat} {r : Int} (hlen : len < 100)
    {out : PeggyOutput} (h : peggyTxindSend acct777Lockhash s b 0 (some inp) ratio len out = some (t, r)) (hr : r < 0) :
    Same s t := by
  obtain ⟨k, -, hout⟩ := send_outcome acct777Lockhash hlen h
  refine hout.same ?_
  rw [hout.neg_iff.mp hr]
  rfl

theorem merge_same {s t : PeggyInfo} {b : Block} {actionflag r : Int} {tx : PeggyTx} (hnum : tx.numinputs ≠ 0)
    (h : txindMerge acct777Lockhash s b actionflag tx = some (t, r)) (hr : r < 0) : Same s t := by
  have hpos : 0 < tx.numinputs.toNat := Nat.pos_of_ne_zero fun h => hnum (BitVec.eq_of_toNat_eq h)
  simp only [txindMerge] at h
  split at h
  · obtain ⟨rfl, -⟩ := Prod.mk.inj (Option.some.inj h)
    exact .refl _
  · split at h
    · obtain ⟨rfl, -⟩ := Prod.mk.inj (Option.some.inj h)
      exact .refl _
    · obtain ⟨t', sent, hsend, hsame, hneg⟩ := sendBundle_cases acct777Lockhash hpos tx.numinputs.isLt h
      obtain rfl := hneg.mp hr
      rw [sendOutputs] at hsend
      obtain ⟨⟨s', r'⟩, hone, hsend⟩ := Option.bind_eq_some_iff.mp hsend
      dsimp only at hsend
      split at hsend
      · next hrefused =>
        obtain ⟨rfl, -⟩ := Prod.mk.inj (Option.some.inj hsend)
        exact (sendOne_same acct777Lockhash (by decide) hone hrefused).trans hsame
      · cases (Prod.mk.inj (Option.some.inj hsend)).2

theorem two_same {s t : PeggyInfo} {b : Block} {actionflag r : Int} {tx : PeggyTx}
    (h : txindTwo acct777Lockhash s b actionflag tx = some (t, r)) (hr : r < 0) : Same s t := by
  rw [txindTwo] at h
  split at h
  · obtain ⟨rfl, -⟩ := Prod.mk.inj (Option.some.inj h)
    exact .refl _
  · split at h
    · obtain ⟨rfl, -⟩ := Prod.mk.inj (Option.some.inj h)
      exact .refl _
    · obtain ⟨⟨t', txind⟩, hsend, h⟩ := Option.map_eq_some_iff.mp h
      obtain ⟨rfl, rfl⟩ := Prod.mk.inj h
      split at hr
      · next hneg => exact sendOne_same acct777Lockhash (by decide) hsend hneg
      · next hneg => exact absurd hr hneg

theorem prices_same {tx : PeggyTx} (s : PeggyInfo) (b : Block) (actionflag : Int) (stakedblock : Nat)
    (hfeed : tx.details.price.num.toNat ≤ 256) (h : (peggyTxindPrices s b actionflag tx stakedblock).2 < 0) :
    Same s (peggyTxindPrices s b actionflag tx stakedblock).1 := by
  rw [peggyTxindPrices] at h ⊢
  split
  · exact .refl s
  · next hform =>
    rw [if_neg hform] at h
    split
    · next hsigned =>
      rw [if_pos hsigned] at h
      refine absurd h (not_lt.mpr (log_nonneg _ (by omega) ?_))
      rw [used_length]
      omega
    · exact .refl s

theorem bets_same (s : PeggyInfo) (actionflag : Int) (tx : PeggyTx) : Same s (peggyTxindBets s actionflag tx).1 := by
  rw [peggyTxindBets]
  split
  · exact .refl s
  · split
    · exact .refl s
    · exact bundle_same s _

theorem micropay_same (s : PeggyInfo) (tx : PeggyTx) : Same s (peggyTxindMicropay s tx).1 := by
  rw [peggyTxindMicropay]
  split
  · exact log_same s 12
  · exact .refl s

theorem normal_same_iff {s t : PeggyInfo} {b : Block} {actionflag r : Int} {tx : PeggyTx} (hint : ∀ k, balanceAt s k < 2^63)
    (hflag : 0 ≤ actionflag) (htype : tx.txtype = 0) (h : txindNormal acct777Lockhash s b actionflag tx = some (t, r)) :
    (r < 0 → Same s t) ↔ ¬ txindLate acct777Lockhash s b actionflag tx := by
  rw [txindNormal] at h
  simp only [txindLate, hflag, htype, true_and]
  split at h
  · next hsigner =>
    simp only [ne_eq, hsigner, not_false_eq_true, true_and]
    split at h
    · next hnone =>
      have hone : ¬ tx.numinputs = 1 := by
        rw [hnone]
        decide
      rw [fund_same_iff acct777Lockhash h]
      simp only [hone, false_and, or_false]
      rw [and_iff_right hnone]
    · next hnone =>
      simp only [hnone, false_and, false_or]
      split at h
      · next hone =>
        simp only [hone, true_and]
        split at h
        · next hnum =>
          obtain ⟨rfl, -⟩ := Prod.mk.inj (Option.some.inj h)
          exact iff_of_true (fun _ => .refl _) fun h => h.1.1 hnum
        · next hnum =>
          rw [spend_same_iff acct777Lockhash hone hnum hint h]
          simp only [hnum, not_false_eq_true, true_and, ne_eq]
      · next hone =>
        refine iff_of_true (fun hr => ?_) fun h => hone h.1
        split at h
        · exact merge_same acct777Lockhash hnone h hr
        · obtain ⟨rfl, -⟩ := Prod.mk.inj (Option.some.inj h)
          exact .refl _
  · next hsigner =>
    refine iff_of_true (fun hr => ?_) fun h => hsigner h.1
    split at h
    · exact two_same acct777Lockhash h hr
    · obtain ⟨rfl, -⟩ := Prod.mk.inj (Option.some.inj h)
      exact .refl _

theorem txind_same_iff {s t : PeggyInfo} {b : Block} {actionflag r : Int} {tx : PeggyTx} {stakedblock : Nat}
    (hint : ∀ k, balanceAt s k < 2^63) (hfeed : tx.details.price.num.toNat ≤ 256)
    (h : peggyTxind acct777Lockhash s b actionflag tx stakedblock = some (t, r)) :
    (r < 0 → Same s t) ↔ ¬ txindLate acct777Lockhash s b actionflag tx := by
  rw [peggyTxind] at h
  split at h
  · next hundo =>
    obtain ⟨rfl, -⟩ := Prod.mk.inj (Option.some.inj h)
    exact iff_of_true (fun _ => .refl _) fun h => absurd h.1.1 (not_le.mpr hundo)
  · next hundo =>
    split at h
    · next htype => exact normal_same_iff acct777Lockhash hint (not_lt.mp hundo) htype h
    · next htype =>
      refine iff_of_true (fun hr => ?_) fun h => htype h.1.2.1
      split at h
      · have hprices := prices_same s b actionflag stakedblock hfeed
        rw [Option.some.inj h] at hprices
        exact hprices hr
      · obtain ⟨legal, -, h⟩ := Option.bind_eq_some_iff.mp h
        have hresult := Option.some.inj h
        split at hresult
        · obtain ⟨rfl, -⟩ := Prod.mk.inj hresult
          exact .refl _
        · split at hresult
          · have hbets := bets_same s actionflag tx
            rwa [hresult] at hbets
          · split at hresult
            · have hmicropay := micropay_same s tx
              rwa [hresult] at hmicropay
            · obtain ⟨rfl, -⟩ := Prod.mk.inj hresult
              exact .refl _

end

/-- The parameter that function `i` of the table sets. -/
def tunedField (i : Nat) (PEG : PeggyContract) : Int × Int :=
  match i with
  | 0 => (PEG.enabled, 0)
  | 1 => (PEG.maxdailyrate, 0)
  | 2 => (PEG.pool.quorum, 0)
  | 3 => (PEG.pool.decisionthreshold, 0)
  | 4 => (PEG.maxnetbalance, 0)
  | 5 => (PEG.maxsupply, 0)
  | 6 => (PEG.lockparms.minlockdays.toNat, PEG.lockparms.maxlockdays.toNat)
  | 7 => (PEG.lockparms.clonesmear.toNat, 0)
  | 8 => (PEG.lockparms.mixrange.toNat, 0)
  | 9 => (PEG.lockparms.redemptiongapdays.toNat, 0)
  | 10 => (PEG.lockparms.extralockdays.toNat, 0)
  | 11 => (PEG.lockparms.margin.toNat, 0)
  | 12 => (PEG.mindenomination, 0)
  | 13 => (PEG.spread, 0)
  | _ => (0, 0)

theorem tunefuncs_lt {PEG P : PeggyContract} {val valB : BitVec 64} {i : Nat} (h : (tunefuncs PEG val valB)[i]? = some P) :
    i < 14 := (List.getElem?_eq_some_iff.mp h).1

/-- Each function of the table leaves the parameters of the others alone. -/
theorem tunedField_other {PEG P : PeggyContract} {val valB : BitVec 64} {i j : Nat}
    (h : (tunefuncs PEG val valB)[i]? = some P) (hne : j ≠ i) : tunedField j P = tunedField j PEG := by
  have hi := tunefuncs_lt h
  interval_cases i <;> obtain rfl := Option.some.inj h <;> unfold tunedField <;> split <;>
    first
    | exact absurd rfl hne
    | dsimp only

theorem tunefuncs_self {PEG P : PeggyContract} {val valB : BitVec 64} {i : Nat} (h : (tunefuncs PEG val valB)[i]? = some P)
    (hsame : tunedField i P = tunedField i PEG) : P = PEG := by
  have hi := tunefuncs_lt h
  interval_cases i <;> obtain rfl := Option.some.inj h <;>
    simp only [tunedField, Prod.mk.injEq, Nat.cast_inj, BitVec.toNat_inj, and_true] at hsame <;>
    first
    | rw [hsame]
    | rw [hsame.1, hsame.2]

theorem peggyPegstr_lt {s : PeggyInfo} (h : 0 < s.numpegs) (peg : BitVec 120) : peggyPegstr s peg < s.numpegs := by
  rw [peggyPegstr]
  cases hfound : peggyFindpair s (peggyAssetbits ((Lib.Bytes.leBytes 15 peg.toNat).takeWhile (· ≠ 0))) with
  | none => exact h
  | some found => exact (peggyFindpair_lt hfound).1

/-- The loop comes to an entry of a type that is refused, with a function for each entry before it. -/
def endsBad : Nat → List TxTune → Bool
  | _, [] => false
  | i, tune :: tunes => if 14 ≤ tune.type.toNat then true else i < 14 && endsBad (i + 1) tunes

/-- Each entry before the refused one sets its parameter to the value it has, and the refused one
sets the fees to theirs if it sets them. -/
def TunesNothing (val valB : BitVec 64) (s : PeggyInfo) : Nat → List TxTune → Prop
  | _, [] => True
  | i, tune :: tunes =>
    if 14 ≤ tune.type.toNat then tune.type = 77 → peggyFees s tune.B = s
    else
      (tunefuncs (s.contracts (peggyPegstr s tune.peg)) val valB)[i]? = some (s.contracts (peggyPegstr s tune.peg)) ∧
        TunesNothing val valB s (i + 1) tunes

theorem fees_same_iff (s : PeggyInfo) (B : BitVec 64) : Same s (peggyFees s B) ↔ peggyFees s B = s :=
  ⟨fun h => h.bank, fun h => .of_eq h⟩

theorem Same.tunesNothing {val valB : BitVec 64} {s t : PeggyInfo} (h : Same s t) (i : Nat) (tunes : List TxTune)
    (hs : TunesNothing val valB s i tunes) : TunesNothing val valB t i tunes := by
  induction tunes generalizing i with
  | nil => trivial
  | cons tune tunes ih =>
    rw [TunesNothing] at hs ⊢
    split
    · next hbad =>
      rw [if_pos hbad] at hs
      intro hfees
      have heq := hs hfees
      rw [h.bank]
      calc peggyFees { s with accts := t.accts } tune.B = { peggyFees s tune.B with accts := t.accts } := rfl
        _ = { s with accts := t.accts } := by rw [heq]
    · next hbad =>
      rw [if_neg hbad] at hs
      refine ⟨?_, ih _ hs.2⟩
      rw [h.bank]
      exact hs.1

/-- What the loop leaves when it ends at a refused entry: the parameters of smaller numbers are untouched,
and all of them are if every entry sets nothing. -/
theorem tuneEntries_spec {actionflag : Int} (hflag : 0 < actionflag) (val valB : BitVec 64) (tunes : List TxTune) (i : Nat)
    (s : PeggyInfo) (hpegs : 0 < s.numpegs) :
    if endsBad i tunes then
      ∃ t, tuneEntries actionflag val valB i tunes s = some (t, false) ∧
        (∀ j < i, ∀ peg, tunedField j (t.contracts peg) = tunedField j (s.contracts peg)) ∧
        (Same s t ↔ TunesNothing val valB s i tunes)
    else ∀ t ok, tuneEntries actionflag val valB i tunes s = some (t, ok) → ok = true := by
  induction tunes generalizing i s with
  | nil =>
    rw [endsBad, if_neg Bool.false_ne_true]
    intro t ok h
    exact (Prod.mk.inj (Option.some.inj h)).2.symm
  | cons tune tunes ih =>
    rw [endsBad, TunesNothing, tuneEntries]
    dsimp only
    rw [if_neg (not_le.mpr (peggyPegstr_lt hpegs tune.peg)), if_neg (not_le.mpr hflag)]
    by_cases hbad : 14 ≤ tune.type.toNat
    · rw [if_pos hbad, if_pos rfl, if_pos hbad, if_pos hbad]
      refine ⟨_, rfl, fun j _ peg => ?_, ?_⟩
      · split <;> rfl
      · split
        · next hfees => exact (fees_same_iff s tune.B).trans ⟨fun h _ => h, fun h => h hfees⟩
        · next hfees => exact iff_of_true (.refl s) fun h => absurd h hfees
    · have hfees : tune.type ≠ 77 := fun h => hbad (by rw [h]; decide)
      rw [if_neg hbad, if_neg hfees, if_neg hbad, if_neg hbad]
      cases hP : (tunefuncs (s.contracts (peggyPegstr s tune.peg)) val valB)[i]? with
      | none =>
        have hi : ¬ i < 14 := fun hi => by
          rw [List.getElem?_eq_none_iff] at hP
          exact absurd (hP : 14 ≤ i) (not_le.mpr hi)
        rw [decide_eq_false hi, Bool.false_and, if_neg Bool.false_ne_true]
        exact fun t ok h => nomatch h
      | some P =>
        have hi := tunefuncs_lt hP
        rw [decide_eq_true hi, Bool.true_and]
        have hlog := log_same { s with contracts := Function.update s.contracts (peggyPegstr s tune.peg) P } 32
        have hrest := ih (i + 1) (txind777Create { s with contracts := Function.update s.contracts (peggyPegstr s tune.peg) P } 32).1
          (by rw [hlog.bank]; exact hpegs)
        have hcontracts : (txind777Create { s with contracts := Function.update s.contracts (peggyPegstr s tune.peg) P } 32).1.contracts =
            Function.update s.contracts (peggyPegstr s tune.peg) P := by rw [hlog.bank]
        split
        · next hend =>
          rw [if_pos hend] at hrest
          obtain ⟨t, ht, hfields, hsame⟩ := hrest
          have hself : P = s.contracts (peggyPegstr s tune.peg) →
              Same s (txind777Create { s with contracts := Function.update s.contracts (peggyPegstr s tune.peg) P } 32).1 := fun h => by
            rw [h, Function.update_eq_self]
            exact log_same s 32
          refine ⟨t, ht, fun j hj peg => ?_, fun h => ?_, fun h => ?_⟩
          · rw [hfields j (by omega), hcontracts]
            by_cases hpeg : peg = peggyPegstr s tune.peg
            · rw [hpeg, Function.update_self]
              exact tunedField_other hP (by omega)
            · rw [Function.update_of_ne hpeg]
          · have hfield := hfields i (by omega) (peggyPegstr s tune.peg)
            rw [hcontracts, Function.update_self, h.bank] at hfield
            have hPeq := tunefuncs_self hP hfield.symm
            have hs := hself hPeq
            exact ⟨congrArg some hPeq, hs.symm.tunesNothing _ _ (hsame.mp (hs.symm.trans h))⟩
          · have hs := hself (Option.some.inj h.1)
            exact hs.trans (hsame.mpr (hs.tunesNothing _ _ h.2))
        · next hend =>
          rw [if_neg hend] at hrest
          exact hrest

/-- A tuning that is not to be made leaves the bank as it is. -/
theorem tuneEntries_idle {actionflag : Int} {s : PeggyInfo} (h : actionflag ≤ 0 ∨ s.numpegs = 0) (val valB : BitVec 64)
    (tunes : List TxTune) (i : Nat) : ∃ ok, tuneEntries actionflag val valB i tunes s = some (s, ok) := by
  induction tunes generalizing i with
  | nil => exact ⟨true, rfl⟩
  | cons tune tunes ih =>
    rw [tuneEntries]
    dsimp only
    split
    · exact ⟨false, rfl⟩
    · next hpeg =>
      have hflag : actionflag ≤ 0 := h.resolve_right fun hzero => hpeg (by omega)
      rw [if_pos hflag]
      exact ih (i + 1)

/-- The tunings that are made in part and then reported as failed. -/
def TuneLate (tuners : List (BitVec 64)) (s : PeggyInfo) (actionflag : Int) (tx : PeggyTx) : Prop :=
  let tunes := used tx.numdetails.toNat tx.details.tune
  (tx.numoutputs = 0 ∧ tx.numinputs = 0 ∧ peggyOnesigner tx ≠ 0 ∧ peggyOnesigner tx ∈ tuners) ∧
    0 < actionflag ∧ 0 < s.numpegs ∧ endsBad 0 tunes = true ∧
      ¬ TunesNothing (tunes.headD default).val (tunes.headD default).B s 0 tunes

theorem tune_same_iff (tuners : List (BitVec 64)) (s : PeggyInfo) (actionflag : Int) (tx : PeggyTx) :
    (∀ t r, peggyTxindTune tuners s actionflag tx = some (t, r) → r < 0 → Same s t) ↔ ¬ TuneLate tuners s actionflag tx := by
  rw [peggyTxindTune, TuneLate]
  split
  · next hform =>
    refine iff_of_true (fun t r h _ => ?_) fun h => ?_
    · exact .of_eq (Prod.mk.inj (Option.some.inj h)).1.symm
    · obtain ⟨⟨hout, hin, hsigner, hmem⟩, -⟩ := h
      rcases hform with h | h | h | h
      · exact h hout
      · exact h hin
      · exact hsigner h
      · exact h hmem
  · next hform =>
    push Not at hform
    dsimp only
    generalize hval : ((used tx.numdetails.toNat tx.details.tune).headD default).val = val
    generalize hvalB : ((used tx.numdetails.toNat tx.details.tune).headD default).B = valB
    have hlen : (used tx.numdetails.toNat tx.details.tune).length < 256 := by
      rw [used_length]
      exact tx.numdetails.isLt
    generalize used tx.numdetails.toNat tx.details.tune = tunes at hlen ⊢
    -- a loop that goes through is logged, and the log is never refused
    have hdone : ∀ t t' r, some (if tunes.length = 0 then (t, 0) else txind777Bundle t tunes.length) = some (t', r) → 0 ≤ r := by
      intro t t' r h
      split at h
      · exact (Prod.mk.inj (Option.some.inj h)).2.le
      · next hpos =>
        have hr : (txind777Bundle t tunes.length).2 = r := congrArg Prod.snd (Option.some.inj h)
        rw [← hr]
        exact bundle_nonneg t (by omega) hlen
    by_cases hidle : actionflag ≤ 0 ∨ s.numpegs = 0
    · refine iff_of_true (fun t r h hr => ?_) fun h => ?_
      · obtain ⟨ok, hok⟩ := tuneEntries_idle hidle val valB tunes 0
        rw [hok] at h
        cases ok with
        | false => exact .of_eq (Prod.mk.inj (Option.some.inj h)).1.symm
        | true => exact absurd hr (not_lt.mpr (hdone s t r h))
      · rcases hidle with hflag | hzero
        · exact absurd h.2.1 (not_lt.mpr hflag)
        · exact absurd h.2.2.1 (by omega)
    · push Not at hidle
      obtain ⟨hflag, hpegs⟩ := hidle
      have hspec := tuneEntries_spec hflag val valB tunes 0 s (Nat.pos_of_ne_zero hpegs)
      by_cases hend : endsBad 0 tunes = true
      · rw [if_pos hend] at hspec
        obtain ⟨t, ht, -, hsame⟩ := hspec
        rw [ht]
        constructor
        · intro h hlate
          exact hlate.2.2.2.2 (hsame.mp (h t (-1) rfl (by decide)))
        · intro h t' r heq _
          obtain ⟨rfl, -⟩ := Prod.mk.inj (Option.some.inj heq)
          by_contra hchanged
          exact h ⟨hform, hflag, Nat.pos_of_ne_zero hpegs, hend, fun hnothing => hchanged (hsame.mpr hnothing)⟩
      · rw [if_neg hend] at hspec
        refine iff_of_true (fun t' r h hr => ?_) fun h => hend h.2.2.2.1
        cases hloop : tuneEntries actionflag val valB 0 tunes s with
        | none =>
          rw [hloop] at h
          cases h
        | some x =>
          obtain ⟨t, ok⟩ := x
          obtain rfl := hspec t ok hloop
          rw [hloop] at h
          exact absurd hr (not_lt.mpr (hdone t t' r h))

/-- Five coins of funding under one signature, paid to the NXT account 7. -/
def fundingTx : PeggyTx :=
  { (default : PeggyTx) with
    numoutputs := 1, funding := { (default : PeggyInput) with amount := 500000000 }
    outputs := [{ (default : PeggyOutput) with type := 2, dest := { (default : PeggyAddr) with sha256 := 7 } }]
    sigs := [{ (default : AcctSig) with signer64bits := 1 }] }

/-- A single entry of type 77, for the fees. -/
def feesTx : PeggyTx :=
  { (default : PeggyTx) with
    numdetails := 1, details := { (default : TxDetails) with tune := [{ (default : TxTune) with type := 77, B := 1 }] }
    sigs := [{ (default : AcctSig) with signer64bits := 1 }] }

end SuperNet.Peggy.Peggy777
