import SuperNet.Lib.Flows
import SuperNet.Peggy.PeggytxAtomic

/-! What a transaction credits and what it debits. Nothing is ever taken from an input: every output
that pays an account adds to the money there is. -/
namespace SuperNet.Peggy.Peggy777
open Lib.Words Lib.Flows Serdes777 Accts777

/-- The accounts that the inputs of a transaction name. -/
def inputAccounts (tx : PeggyTx) : Finset (Table × Nat) :=
  ((txIns tx).filterMap fun inp => accts777Key inp.src inp.type).toFinset

/-- What is credited is debited from the inputs, or is funded. -/
def Conserves (s t : PeggyInfo) (tx : PeggyTx) : Prop :=
  credited (balanceAt s) (balanceAt t) ≤ debited (inputAccounts tx) (balanceAt s) (balanceAt t) + tx.funding.amount.toNat

/-- An output that pays an account, not a coin address and not for a new unit. -/
def ToAccount (out : PeggyOutput) : Prop := out.type ≠ 0 ∧ out.type ≠ 1

instance (out : PeggyOutput) : Decidable (ToAccount out) := inferInstanceAs (Decidable (_ ∧ _))

theorem Same.gains {s t : PeggyInfo} (h : Same s t) : Gains (balanceAt s) (balanceAt t) 0 := by
  rw [show balanceAt t = balanceAt s from funext h.balances]
  exact .refl _

theorem Created.gains {s t : PeggyInfo} (h : Created s t) : Gains (balanceAt s) (balanceAt t) 0 := by
  rw [show balanceAt t = balanceAt s from funext h.balances]
  exact .refl _

theorem Paid.gains {s t : PeggyInfo} {k : Table × Nat} {value : Int} (h : Paid s t k value) :
    Gains (balanceAt s) (balanceAt t) value := by
  rcases le_total 0 value with hpos | hneg
  · exact .inl (.single hpos h.balances)
  · refine .inr ⟨hneg, fun j => ?_⟩
    rw [h.balances]
    split
    · linarith
    · rw [add_zero]

theorem Outcome.gains {s t : PeggyInfo} {r value : Int} {dest : Table × Nat} {f : Fate} (h : Outcome s t r dest value f) :
    Gains (balanceAt s) (balanceAt t) (if f = .paid then value else 0) := by
  cases h with
  | refused _ h => exact h.gains
  | idle _ h => exact h.gains
  | created _ h => exact h.gains
  | paid _ _ h => exact h.gains

theorem Outcome.balance_le {s t : PeggyInfo} {r value : Int} {dest : Table × Nat} {f : Fate} (h : Outcome s t r dest value f)
    (hvalue : value ≤ 0) (k : Table × Nat) : balanceAt t k ≤ balanceAt s k := by
  by_cases hf : f = .paid
  · subst hf
    cases h with
    | paid _ _ h =>
      rw [h.balances]
      split <;> linarith
  · rw [h.balances hf]

theorem valueFate_paid (s : PeggyInfo) (b : Block) (value : Int) (out : PeggyOutput) :
    (if valueFate s b false value out = .paid then value else 0) = if ToAccount out then value else 0 := by
  rw [valueFate]
  by_cases hbtcd : out.type = 0
  · rw [if_pos hbtcd, if_neg (fun h => h.1 hbtcd : ¬ ToAccount out)]
    split <;> rfl
  · by_cases hcreate : out.type = 1
    · rw [if_neg hbtcd, if_pos hcreate, if_neg (fun h => h.2 hcreate : ¬ ToAccount out)]
      split <;> split <;> rfl
    · have haccount : ToAccount out := ⟨hbtcd, hcreate⟩
      rw [if_neg hbtcd, if_neg hcreate, if_pos haccount, if_neg Bool.false_ne_true]
      by_cases hzero : value = 0
      · rw [hzero]
        split <;> rfl
      · rw [if_neg hzero, if_pos rfl]

def accountOutputs (outs : List PeggyOutput) : Nat := (outs.filter fun out => ToAccount out).length

section
variable (acct777Lockhash : BitVec 256 → BitVec 16 → BitVec 8 → BitVec 256)

theorem send_gains {s t : PeggyInfo} {b : Block} {inp : PeggyInput} {ratio len : Nat} {r v : Int} (hlen : len < 100)
    {out : PeggyOutput} (hfate : fate acct777Lockhash s b 0 (some inp) ratio out = valueFate s b false v out)
    (hworth : worth acct777Lockhash s b 0 (some inp) ratio out = v)
    (h : peggyTxindSend acct777Lockhash s b 0 (some inp) ratio len out = some (t, r)) :
    Gains (balanceAt s) (balanceAt t) (if ToAccount out then v else 0) := by
  obtain ⟨k, -, hout⟩ := send_outcome acct777Lockhash hlen h
  have hgains := hout.gains
  rwa [hfate, hworth, valueFate_paid] at hgains

/-- Each output of a covered input that pays an account credits it with the whole amount. -/
theorem plain_credits {b : Block} {inp : PeggyInput} {len : Nat} (hlen : len < 100) (hplain : Plain inp)
    (hpos : 0 < i64 inp.amount.toNat) (outs : List (Nat × PeggyOutput)) {s t : PeggyInfo} {sent : Bool}
    (hbalance : 0 ≤ acct777Balance s.accts inp.src inp.type) (hcovers : Covers s inp)
    (h : sendOutputs acct777Lockhash b inp len outs s = some (t, sent)) :
    Credits (balanceAt s) (balanceAt t) (accountOutputs (outs.map Prod.snd) * i64 inp.amount.toNat) := by
  induction outs generalizing s with
  | nil =>
    obtain ⟨rfl, -⟩ := Prod.mk.inj (Option.some.inj h)
    rw [List.map_nil, accountOutputs, List.filter_nil, List.length_nil, Nat.cast_zero, zero_mul]
    exact .refl _
  | cons out outs ih =>
    obtain ⟨ratio, out⟩ := out
    rw [sendOutputs] at h
    obtain ⟨⟨s', r⟩, hsend, h⟩ := Option.bind_eq_some_iff.mp h
    obtain ⟨k, -, hout⟩ := send_outcome acct777Lockhash hlen hsend
    obtain ⟨hfate, hgoes⟩ := covered_goes acct777Lockhash b ratio out hplain hpos hcovers
    rw [covered_worth acct777Lockhash hplain hcovers] at hout
    dsimp only at h
    rw [if_neg fun hneg => hgoes (hout.neg_iff.mp hneg)] at h
    obtain ⟨hbalance', hcovers'⟩ := hout.covers hpos hbalance hcovers
    have hrest := ih hbalance' hcovers' h
    have hpaid := valueFate_paid s b (i64 inp.amount.toNat) out
    have hgains := hout.gains
    rw [hfate, hpaid] at hgains
    rw [List.map_cons, accountOutputs, List.filter_cons]
    by_cases haccount : ToAccount out
    · rw [if_pos haccount] at hgains
      rw [if_pos (decide_eq_true haccount), List.length_cons, Nat.cast_succ, add_mul, one_mul, add_comm]
      have hcredits : Credits (balanceAt s) (balanceAt s') (i64 inp.amount.toNat) :=
        hgains.resolve_right fun h => absurd h.1 (not_le.mpr hpos)
      exact hcredits.trans hrest
    · rw [if_neg haccount] at hpaid
      have hunpaid : balanceAt s' = balanceAt s := hout.balances fun hf => by
        rw [← hfate, if_pos hf] at hpaid
        omega
      rw [if_neg (by simpa using haccount), ← hunpaid]
      exact hrest

/-- An input without a positive value credits nothing. -/
theorem worthless_gains {b : Block} {inp : PeggyInput} {len : Nat} (hlen : len < 100)
    (hvalue : ∀ s ratio outtype, (inputValue acct777Lockhash s b inp ratio outtype).getD 0 ≤ 0)
    (outs : List (Nat × PeggyOutput)) {s t : PeggyInfo} {sent : Bool}
    (h : sendOutputs acct777Lockhash b inp len outs s = some (t, sent)) : ∀ k, balanceAt t k ≤ balanceAt s k := by
  induction outs generalizing s with
  | nil =>
    obtain ⟨rfl, -⟩ := Prod.mk.inj (Option.some.inj h)
    exact fun _ => le_rfl
  | cons out outs ih =>
    obtain ⟨ratio, out⟩ := out
    rw [sendOutputs] at h
    obtain ⟨⟨s', r⟩, hsend, h⟩ := Option.bind_eq_some_iff.mp h
    obtain ⟨k, -, hout⟩ := send_outcome acct777Lockhash hlen hsend
    have hle := hout.balance_le (hvalue s ratio out.type)
    dsimp only at h
    split at h
    · obtain ⟨rfl, -⟩ := Prod.mk.inj (Option.some.inj h)
      exact hle
    · exact fun k => (ih h k).trans (hle k)

theorem plain_value_le {inp : PeggyInput} (hplain : Plain inp) (hamount : ¬ 0 < i64 inp.amount.toNat) (s : PeggyInfo) (b : Block)
    (ratio : Nat) (outtype : BitVec 8) : (inputValue acct777Lockhash s b inp ratio outtype).getD 0 ≤ 0 := by
  by_cases hcovers : Covers s inp
  · rw [plain_covered acct777Lockhash hplain hcovers, Option.getD_some]
    exact not_lt.mp hamount
  · exact (plain_uncovered acct777Lockhash hplain hcovers b ratio outtype).le

theorem other_value {inp : PeggyInput} (hplain : ¬ Plain inp) (hlocked : ¬ Locked inp) (s : PeggyInfo) (b : Block) (ratio : Nat)
    (outtype : BitVec 8) : (inputValue acct777Lockhash s b inp ratio outtype).getD 0 = 0 := by
  cases hvalue : inputValue acct777Lockhash s b inp ratio outtype with
  | none => rfl
  | some value => exact other_worthless acct777Lockhash hplain hlocked hvalue

/-- What the outputs draw of the first input: each output to an account gets the whole amount of an input with
a balance, and the first gets what a unit pays. -/
def drawn (s : PeggyInfo) (b : Block) (tx : PeggyTx) : Int :=
  let inp := tx.inputs.getD 0 default
  if Plain inp then if Covers s inp then accountOutputs (txOuts tx) * i64 inp.amount.toNat else 0
  else if Locked inp ∧ ToAccount (tx.outputs.getD 0 default) then lockedValue acct777Lockhash s b inp
  else 0

/-- The outputs draw more than is funded. -/
def Overdrawn (s : PeggyInfo) (b : Block) (tx : PeggyTx) : Prop :=
  let inp := tx.inputs.getD 0 default
  Plain inp ∧ Covers s inp ∧ tx.funding.amount.toNat < accountOutputs (txOuts tx) * i64 inp.amount.toNat ∨
    Locked inp ∧ ToAccount (tx.outputs.getD 0 default) ∧ tx.funding.amount.toNat < lockedValue acct777Lockhash s b inp

instance (s : PeggyInfo) (b : Block) (tx : PeggyTx) : Decidable (Overdrawn acct777Lockhash s b tx) :=
  inferInstanceAs (Decidable (_ ∧ _ ∧ _ ∨ _ ∧ _ ∧ _))

theorem gains_iff {s t : PeggyInfo} {tx : PeggyTx} {v : Int} (h : Gains (balanceAt s) (balanceAt t) v) :
    Conserves s t tx ↔ v ≤ tx.funding.amount.toNat := h.covered_iff _ (Int.natCast_nonneg _)

theorem drawn_le_iff (s : PeggyInfo) (b : Block) (tx : PeggyTx) :
    drawn acct777Lockhash s b tx ≤ tx.funding.amount.toNat ↔ ¬ Overdrawn acct777Lockhash s b tx := by
  rw [drawn, Overdrawn]
  have hfunding : (0 : Int) ≤ tx.funding.amount.toNat := Int.natCast_nonneg _
  by_cases hplain : Plain (tx.inputs.getD 0 default)
  · rw [if_pos hplain]
    have hlocked := hplain.not_locked
    by_cases hcovers : Covers s (tx.inputs.getD 0 default)
    · rw [if_pos hcovers, ← not_lt, not_iff_not]
      exact ⟨fun h => .inl ⟨hplain, hcovers, h⟩, fun h => h.elim (fun h => h.2.2) fun h => absurd h.1 hlocked⟩
    · rw [if_neg hcovers]
      exact iff_of_true hfunding fun h => h.elim (fun h => hcovers h.2.1) fun h => hlocked h.1
  · rw [if_neg hplain]
    split
    · next hpaid =>
      rw [← not_lt, not_iff_not, Nat.cast_lt]
      exact ⟨fun h => .inr ⟨hpaid.1, hpaid.2, h⟩, fun h => h.elim (fun h => absurd h.1 hplain) fun h => h.2.2⟩
    · next hpaid => exact iff_of_true hfunding fun h => h.elim (fun h => hplain h.1) fun h => hpaid ⟨h.1, h.2.1⟩

theorem shared_gains {s t : PeggyInfo} {b : Block} {tx : PeggyTx} (hshared : SharedOut s tx) (hnum : tx.numoutputs ≠ 0) {sent : Bool}
    (h : sendOutputs acct777Lockhash b (tx.inputs.getD 0 default) 21 (ratedOuts tx) s = some (t, sent)) :
    Gains (balanceAt s) (balanceAt t) (drawn acct777Lockhash s b tx) := by
  have hlen : 21 < 100 := by decide
  rw [drawn]
  by_cases hplain : Plain (tx.inputs.getD 0 default)
  · rw [if_pos hplain]
    by_cases hcovers : Covers s (tx.inputs.getD 0 default)
    · rw [if_pos hcovers]
      by_cases hamount : 0 < i64 (tx.inputs.getD 0 default).amount.toNat
      · have houts : (ratedOuts tx).map Prod.snd = txOuts tx := by
          rw [ratedOuts, List.map_map]
          rfl
        rw [← houts]
        exact .inl (plain_credits acct777Lockhash hlen hplain hamount _ hshared.balance hcovers h)
      · refine .inr ⟨mul_nonpos_of_nonneg_of_nonpos (Int.natCast_nonneg _) (not_lt.mp hamount), ?_⟩
        exact worthless_gains acct777Lockhash hlen
          (fun s' ratio outtype => plain_value_le acct777Lockhash hplain hamount s' b ratio outtype) _ h
    · rw [if_neg hcovers]
      refine Same.gains (worthless_same acct777Lockhash hlen _ (fun s' hs ratio outtype => ?_) h)
      have hcovers' : ¬ Covers s' (tx.inputs.getD 0 default) := by
        rw [Covers, hs.balance]
        exact hcovers
      exact plain_uncovered acct777Lockhash hplain hcovers' b ratio outtype
  · rw [if_neg hplain]
    by_cases hlocked : Locked (tx.inputs.getD 0 default)
    · obtain ⟨rest, hrated, -, hratio⟩ := ratedOuts_shared hshared hnum
      rw [hrated, sendOutputs] at h
      obtain ⟨⟨s', r⟩, hfirst, h⟩ := Option.bind_eq_some_iff.mp h
      obtain ⟨hfate, hworth⟩ := locked_fate acct777Lockhash s b hlocked (tx.outputs.getD 0 default)
      have hgains := send_gains acct777Lockhash hlen hfate hworth hfirst
      have hsame : Same s' t := by
        dsimp only at h
        split at h
        · obtain ⟨rfl, -⟩ := Prod.mk.inj (Option.some.inj h)
          exact .refl _
        · exact (locked_rest acct777Lockhash hlen hlocked hratio h).1
      simp only [hlocked, true_and]
      rw [show balanceAt t = balanceAt s' from funext hsame.balances]
      exact hgains
    · rw [if_neg fun h => hlocked h.1]
      exact Same.gains (worthless_same acct777Lockhash hlen _
        (fun s' _ ratio outtype => other_value acct777Lockhash hplain hlocked s' b ratio outtype) h)

theorem whole_gains {s t : PeggyInfo} {b : Block} {tx : PeggyTx} {len : Nat} {r : Int} (hlen : len < 100) (hone : tx.numoutputs = 1)
    (h : peggyTxindSend acct777Lockhash s b 0 (some (tx.inputs.getD 0 default)) priceResolution len (tx.outputs.getD 0 default) =
      some (t, r)) : Gains (balanceAt s) (balanceAt t) (drawn acct777Lockhash s b tx) := by
  have houts : txOuts tx = [tx.outputs.getD 0 default] := by
    rw [txOuts, hone]
    rfl
  rw [drawn, houts]
  by_cases hplain : Plain (tx.inputs.getD 0 default)
  · rw [if_pos hplain]
    by_cases hcovers : Covers s (tx.inputs.getD 0 default)
    · have hfate : fate acct777Lockhash s b 0 (some (tx.inputs.getD 0 default)) priceResolution (tx.outputs.getD 0 default) =
          valueFate s b false (i64 (tx.inputs.getD 0 default).amount.toNat) (tx.outputs.getD 0 default) := by
        simp only [fate, plain_covered acct777Lockhash hplain hcovers, plain_not_unit hplain]
      have hgains := send_gains acct777Lockhash hlen hfate (covered_worth acct777Lockhash hplain hcovers) h
      rw [if_pos hcovers, accountOutputs, List.filter_cons, List.filter_nil]
      by_cases haccount : ToAccount (tx.outputs.getD 0 default)
      · rw [if_pos haccount] at hgains
        rwa [if_pos (decide_eq_true haccount), List.length_singleton, Nat.cast_one, one_mul]
      · rw [if_neg haccount] at hgains
        rwa [if_neg (by simpa using haccount), List.length_nil, Nat.cast_zero, zero_mul]
    · rw [if_neg hcovers]
      obtain ⟨k, -, hout⟩ := send_outcome acct777Lockhash hlen h
      exact (hout.same (worthless_idle acct777Lockhash (plain_uncovered acct777Lockhash hplain hcovers b _ _))).gains
  · rw [if_neg hplain]
    by_cases hlocked : Locked (tx.inputs.getD 0 default)
    · simp only [hlocked, true_and]
      obtain ⟨hfate, hworth⟩ := locked_fate acct777Lockhash s b hlocked (tx.outputs.getD 0 default)
      exact send_gains acct777Lockhash hlen hfate hworth h
    · rw [if_neg fun h => hlocked h.1]
      obtain ⟨k, -, hout⟩ := send_outcome acct777Lockhash hlen h
      exact (hout.same (worthless_idle acct777Lockhash (other_value acct777Lockhash hplain hlocked s b _ _))).gains

/-- One signer, no input, one output: the funding. -/
def Funds (tx : PeggyTx) : Prop := peggyOnesigner tx ≠ 0 ∧ tx.numinputs = 0 ∧ tx.numoutputs = 1

/-- One signer, one input that the outputs share out. -/
def Shares (s : PeggyInfo) (tx : PeggyTx) : Prop :=
  peggyOnesigner tx ≠ 0 ∧ tx.numinputs = 1 ∧ tx.numoutputs ≠ 0 ∧ SharedOut s tx

/-- One output for the whole of the first of several inputs, or of the only input under two signatures. -/
def PaysWhole (tx : PeggyTx) : Prop :=
  tx.numoutputs = 1 ∧
    (peggyOnesigner tx ≠ 0 ∧ tx.numinputs ≠ 0 ∧ tx.numinputs ≠ 1 ∧ (tx.outputs.getD 0 default).ratio.toNat = priceResolution ∨
      peggyOnesigner tx = 0 ∧ peggyTwosigners tx = true ∧ tx.numinputs = 1)

instance (tx : PeggyTx) : Decidable (Funds tx) := inferInstanceAs (Decidable (_ ∧ _ ∧ _))

instance (s : PeggyInfo) (tx : PeggyTx) : Decidable (Shares s tx) := inferInstanceAs (Decidable (_ ∧ _ ∧ _ ∧ _))

instance (tx : PeggyTx) : Decidable (PaysWhole tx) := inferInstanceAs (Decidable (_ ∧ (_ ∨ _)))

/-- What a normal transaction does to the bank, up to the log. -/
inductive NormalStep (s t : PeggyInfo) (b : Block) (actionflag : Int) (tx : PeggyTx) : Prop where
  | idle (hfunds : ¬ Funds tx) (hdraws : ¬ (actionflag ≠ 0 ∧ (Shares s tx ∨ PaysWhole tx))) (h : Same s t)
  | funds (h : Funds tx) {r : Int}
      (hsend : peggyTxindSend acct777Lockhash s b (i64 (actionflag * tx.funding.amount.toNat)) none priceResolution 57
        (tx.outputs.getD 0 default) = some (t, r))
  | shares (hflag : actionflag ≠ 0) (h : Shares s tx) {t' : PeggyInfo} {sent : Bool}
      (hsend : sendOutputs acct777Lockhash b (tx.inputs.getD 0 default) 21 (ratedOuts tx) s = some (t', sent)) (hlog : Same t' t)
  | paysWhole (hflag : actionflag ≠ 0) (h : PaysWhole tx) {t' : PeggyInfo} {len : Nat} {r : Int} (hlen : len < 100)
      (hsend : peggyTxindSend acct777Lockhash s b 0 (some (tx.inputs.getD 0 default)) priceResolution len
        (tx.outputs.getD 0 default) = some (t', r)) (hlog : Same t' t)

theorem PaysWhole.several {tx : PeggyTx} (h : PaysWhole tx) (hsigner : peggyOnesigner tx ≠ 0) :
    tx.numinputs ≠ 0 ∧ tx.numinputs ≠ 1 ∧ tx.numoutputs = 1 ∧ (tx.outputs.getD 0 default).ratio.toNat = priceResolution := by
  obtain ⟨hone, h | h⟩ := h
  · exact ⟨h.2.1, h.2.2.1, hone, h.2.2.2⟩
  · exact absurd h.1 hsigner

section Normal
variable {s t : PeggyInfo} {b : Block} {actionflag r : Int} {tx : PeggyTx}

theorem txindFund_step (hsigner : peggyOnesigner tx ≠ 0) (hnone : tx.numinputs = 0)
    (h : txindFund acct777Lockhash s b actionflag tx = some (t, r)) : NormalStep acct777Lockhash s t b actionflag tx := by
  have hdraws : ¬ (actionflag ≠ 0 ∧ (Shares s tx ∨ PaysWhole tx)) := by
    rintro ⟨-, hshares | hdraws⟩
    · exact absurd (hnone.symm.trans hshares.2.1) (by decide)
    · exact (hdraws.several hsigner).1 hnone
  rw [txindFund] at h
  split at h
  · next hone =>
    obtain ⟨⟨t', r'⟩, hsend, h⟩ := Option.map_eq_some_iff.mp h
    obtain ⟨rfl, -⟩ := Prod.mk.inj h
    exact .funds ⟨hsigner, hnone, hone⟩ hsend
  · next hone =>
    obtain ⟨rfl, -⟩ := Prod.mk.inj (Option.some.inj h)
    exact .idle (fun h => hone h.2.2) hdraws (.refl _)

theorem txindSpend_step (hsigner : peggyOnesigner tx ≠ 0) (hone : tx.numinputs = 1) (hnum : tx.numoutputs ≠ 0)
    (h : txindSpend acct777Lockhash s b actionflag tx = some (t, r)) : NormalStep acct777Lockhash s t b actionflag tx := by
  have hfunds : ¬ Funds tx := fun h => absurd (hone.symm.trans h.2.1) (by decide)
  have hdraws : ¬ PaysWhole tx := fun h => (h.several hsigner).2.1 hone
  obtain ⟨legal, hcheck, h⟩ := Option.bind_eq_some_iff.mp h
  have hlegal := checktx_iff hone hcheck
  split at h
  · next hill =>
    obtain ⟨rfl, -⟩ := Prod.mk.inj (Option.some.inj h)
    refine .idle hfunds (fun h => h.2.elim (fun h => ?_) hdraws) (.refl _)
    exact Bool.false_ne_true (hill.symm.trans (hlegal.mpr h.2.2.2))
  · next hill =>
    split at h
    · next hflag =>
      obtain ⟨rfl, -⟩ := Prod.mk.inj (Option.some.inj h)
      exact .idle hfunds (fun h => h.1 hflag) (.refl _)
    · next hflag =>
      have hpos : 0 < tx.numoutputs.toNat := Nat.pos_of_ne_zero fun h => hnum (BitVec.eq_of_toNat_eq h)
      obtain ⟨t', sent, hsend, hsame, -⟩ := sendBundle_cases acct777Lockhash hpos tx.numoutputs.isLt h
      exact .shares hflag ⟨hsigner, hone, hnum, hlegal.mp (by simpa using hill)⟩ hsend hsame

theorem txindMerge_step (hsigner : peggyOnesigner tx ≠ 0) (hnone : tx.numinputs ≠ 0) (hone : tx.numinputs ≠ 1)
    (hnum : tx.numoutputs = 1) (h : txindMerge acct777Lockhash s b actionflag tx = some (t, r)) :
    NormalStep acct777Lockhash s t b actionflag tx := by
  have hfunds : ¬ Funds tx := fun h => hnone h.2.1
  have hshares : ¬ Shares s tx := fun h => hone h.2.1
  simp only [txindMerge] at h
  split at h
  · next hratio =>
    obtain ⟨rfl, -⟩ := Prod.mk.inj (Option.some.inj h)
    exact .idle hfunds (fun h => h.2.elim hshares fun h => hratio (h.several hsigner).2.2.2) (.refl _)
  · next hratio =>
    split at h
    · next hflag =>
      obtain ⟨rfl, -⟩ := Prod.mk.inj (Option.some.inj h)
      exact .idle hfunds (fun h => h.1 hflag) (.refl _)
    · next hflag =>
      have hratio' : (tx.outputs.getD 0 default).ratio.toNat = priceResolution := not_not.mp hratio
      have hpos : 0 < tx.numinputs.toNat := Nat.pos_of_ne_zero fun h => hnone (BitVec.eq_of_toNat_eq h)
      obtain ⟨t', sent, hsend, hsame, -⟩ := sendBundle_cases acct777Lockhash hpos tx.numinputs.isLt h
      rw [sendOutputs, hratio'] at hsend
      obtain ⟨⟨s', r'⟩, hwhole, hsend⟩ := Option.bind_eq_some_iff.mp hsend
      have hlast : s' = t' := by
        dsimp only at hsend
        split at hsend
        · exact (Prod.mk.inj (Option.some.inj hsend)).1
        · exact (Prod.mk.inj (Option.some.inj hsend)).1
      subst hlast
      exact .paysWhole hflag ⟨hnum, .inl ⟨hsigner, hnone, hone, hratio'⟩⟩ (by decide : 21 < 100) hwhole hsame

theorem txindTwo_step (hsigner : ¬ peggyOnesigner tx ≠ 0) (htwo : peggyTwosigners tx = true)
    (h : txindTwo acct777Lockhash s b actionflag tx = some (t, r)) : NormalStep acct777Lockhash s t b actionflag tx := by
  have hfunds : ¬ Funds tx := fun h => hsigner h.1
  have hshares : ¬ Shares s tx := fun h => hsigner h.1
  rw [txindTwo] at h
  split at h
  · next hform =>
    obtain ⟨rfl, -⟩ := Prod.mk.inj (Option.some.inj h)
    refine .idle hfunds (fun h => h.2.elim hshares fun h => ?_) (.refl _)
    exact hform.elim (fun hnum => hnum h.1) fun hone => h.2.elim (fun h => hsigner h.1) fun h => hone h.2.2
  · next hform =>
    push Not at hform
    split at h
    · next hflag =>
      obtain ⟨rfl, -⟩ := Prod.mk.inj (Option.some.inj h)
      exact .idle hfunds (fun h => h.1 hflag) (.refl _)
    · next hflag =>
      obtain ⟨⟨t', r'⟩, hsend, h⟩ := Option.map_eq_some_iff.mp h
      obtain ⟨rfl, -⟩ := Prod.mk.inj h
      exact .paysWhole hflag ⟨hform.1, .inr ⟨not_not.mp hsigner, htwo, hform.2⟩⟩ (by decide : 29 < 100) hsend (.refl _)

theorem normal_step (h : txindNormal acct777Lockhash s b actionflag tx = some (t, r)) :
    NormalStep acct777Lockhash s t b actionflag tx := by
  rw [txindNormal] at h
  split at h
  · next hsigner =>
    split at h
    · next hnone => exact txindFund_step acct777Lockhash hsigner hnone h
    · next hnone =>
      have hfunds : ¬ Funds tx := fun h => hnone h.2.1
      split at h
      · next hone =>
        split at h
        · next hnum =>
          obtain ⟨rfl, -⟩ := Prod.mk.inj (Option.some.inj h)
          exact .idle hfunds (fun h => h.2.elim (fun h => h.2.2.1 hnum) fun h => (h.several hsigner).2.1 hone) (.refl _)
        · next hnum => exact txindSpend_step acct777Lockhash hsigner hone hnum h
      · next hone =>
        split at h
        · next hnum => exact txindMerge_step acct777Lockhash hsigner hnone hone hnum h
        · next hnum =>
          obtain ⟨rfl, -⟩ := Prod.mk.inj (Option.some.inj h)
          exact .idle hfunds (fun h => h.2.elim (fun h => hone h.2.1) fun h => hnum h.1) (.refl _)
  · next hsigner =>
    split at h
    · next htwo => exact txindTwo_step acct777Lockhash hsigner htwo h
    · next htwo =>
      obtain ⟨rfl, -⟩ := Prod.mk.inj (Option.some.inj h)
      refine .idle (fun h => hsigner h.1) (fun h => h.2.elim (fun h => hsigner h.1) fun h => ?_) (.refl _)
      exact h.2.elim (fun h => hsigner h.1) fun h => htwo h.2.1

end Normal

/-- The arguments of a call of `peggy_txind`. -/
structure TxCall where
  b : Block
  actionflag : Int
  tx : PeggyTx
  stakedblock : Nat

def process (s : PeggyInfo) (c : TxCall) : Option (PeggyInfo × Int) :=
  peggyTxind acct777Lockhash s c.b c.actionflag c.tx c.stakedblock

/-- The calls that credit accounts with more than the funding. -/
def Overpays (s : PeggyInfo) (c : TxCall) : Prop :=
  (0 ≤ c.actionflag ∧ c.tx.txtype = 0) ∧
    (Funds c.tx ∧ ToAccount (c.tx.outputs.getD 0 default) ∧
        c.tx.funding.amount.toNat < i64 (c.actionflag * c.tx.funding.amount.toNat) ∨
      (c.actionflag ≠ 0 ∧ (Shares s c.tx ∨ PaysWhole c.tx)) ∧ Overdrawn acct777Lockhash s c.b c.tx)

instance (s : PeggyInfo) (c : TxCall) : Decidable (Overpays acct777Lockhash s c) :=
  inferInstanceAs (Decidable ((_ ∧ _) ∧ (_ ∧ _ ∧ _ ∨ _ ∧ _)))

theorem Same.conserves {s t : PeggyInfo} (h : Same s t) (tx : PeggyTx) : Conserves s t tx :=
  (gains_iff h.gains).mpr (Int.natCast_nonneg _)

theorem Funds.not_draws {s : PeggyInfo} {tx : PeggyTx} (h : Funds tx) : ¬ (Shares s tx ∨ PaysWhole tx) := by
  rintro (hshares | ⟨-, hwhole | hwhole⟩)
  · exact absurd (h.2.1.symm.trans hshares.2.1) (by decide)
  · exact hwhole.2.1 h.2.1
  · exact h.1 hwhole.1

theorem NormalStep.conserves_iff {s t : PeggyInfo} {b : Block} {actionflag : Int} {tx : PeggyTx}
    (h : NormalStep acct777Lockhash s t b actionflag tx) :
    Conserves s t tx ↔
      ¬ (Funds tx ∧ ToAccount (tx.outputs.getD 0 default) ∧ tx.funding.amount.toNat < i64 (actionflag * tx.funding.amount.toNat) ∨
        (actionflag ≠ 0 ∧ (Shares s tx ∨ PaysWhole tx)) ∧ Overdrawn acct777Lockhash s b tx) := by
  cases h with
  | idle hfunds hdraws h => exact iff_of_true (h.conserves tx) fun h => h.elim (fun h => hfunds h.1) fun h => hdraws h.1
  | funds h hsend =>
    obtain ⟨k, -, hout⟩ := send_outcome acct777Lockhash (by decide : 57 < 100) hsend
    have hfunded : Outcome s t _ k (i64 (actionflag * tx.funding.amount.toNat))
        (valueFate s b false (i64 (actionflag * tx.funding.amount.toNat)) (tx.outputs.getD 0 default)) := hout
    have hgains := hfunded.gains
    rw [valueFate_paid] at hgains
    rw [gains_iff hgains]
    by_cases haccount : ToAccount (tx.outputs.getD 0 default)
    · rw [if_pos haccount, ← not_lt, not_iff_not]
      exact ⟨fun hlt => .inl ⟨h, haccount, hlt⟩, fun h' => h'.elim (fun h => h.2.2) fun h' => absurd h'.1.2 h.not_draws⟩
    · rw [if_neg haccount]
      exact iff_of_true (Int.natCast_nonneg _) fun h' => h'.elim (fun h => haccount h.2.1) fun h' => h.not_draws h'.1.2
  | shares hflag h hsend hlog =>
    have hgains := shared_gains acct777Lockhash h.2.2.2 h.2.2.1 hsend
    rw [← show balanceAt t = balanceAt _ from funext hlog.balances] at hgains
    rw [gains_iff hgains, drawn_le_iff, not_iff_not]
    have hdraws : Shares s tx ∨ PaysWhole tx := .inl h
    exact ⟨fun hover => .inr ⟨⟨hflag, hdraws⟩, hover⟩, fun h' => h'.elim (fun h' => absurd hdraws h'.1.not_draws) fun h => h.2⟩
  | paysWhole hflag h hlen hsend hlog =>
    have hgains := whole_gains acct777Lockhash hlen h.1 hsend
    rw [← show balanceAt t = balanceAt _ from funext hlog.balances] at hgains
    rw [gains_iff hgains, drawn_le_iff, not_iff_not]
    have hdraws : Shares s tx ∨ PaysWhole tx := .inr h
    exact ⟨fun hover => .inr ⟨⟨hflag, hdraws⟩, hover⟩, fun h' => h'.elim (fun h' => absurd hdraws h'.1.not_draws) fun h => h.2⟩

/-- Balances and units are those of a feed's state. -/
theorem prices_kept (s : PeggyInfo) (b : Block) (actionflag : Int) (tx : PeggyTx) (stakedblock : Nat) :
    balanceAt (peggyTxindPrices s b actionflag tx stakedblock).1 = balanceAt s ∧
      (peggyTxindPrices s b actionflag tx stakedblock).1.accts.units = s.accts.units := by
  rw [peggyTxindPrices]
  split
  · exact ⟨rfl, rfl⟩
  · split
    · have hlog (s' : PeggyInfo) (len : Nat) : balanceAt (txind777Create s' len).1 = balanceAt s' := funext (log_same s' len).balances
      dsimp only
      rw [hlog, (log_same _ _).units]
      exact ⟨rfl, rfl⟩
    · exact ⟨rfl, rfl⟩

/-- What a call does: a step of a normal transaction, or nothing to balances and units. -/
theorem process_cases {s t : PeggyInfo} {c : TxCall} {r : Int} (h : process acct777Lockhash s c = some (t, r)) :
    (0 ≤ c.actionflag ∧ c.tx.txtype = 0) ∧ NormalStep acct777Lockhash s t c.b c.actionflag c.tx ∨
      ¬ (0 ≤ c.actionflag ∧ c.tx.txtype = 0) ∧ balanceAt t = balanceAt s ∧ t.accts.units = s.accts.units := by
  have hsame {t' : PeggyInfo} (h : Same s t') : balanceAt t' = balanceAt s ∧ t'.accts.units = s.accts.units :=
    ⟨funext h.balances, h.units⟩
  rw [process, peggyTxind] at h
  split at h
  · next hundo =>
    obtain ⟨rfl, -⟩ := Prod.mk.inj (Option.some.inj h)
    exact .inr ⟨fun h => absurd h.1 (not_le.mpr hundo), rfl, rfl⟩
  · next hundo =>
    split at h
    · next htype => exact .inl ⟨⟨not_lt.mp hundo, htype⟩, normal_step acct777Lockhash h⟩
    · next htype =>
      refine .inr ⟨fun h => htype h.2, ?_⟩
      split at h
      · have hkept := prices_kept s c.b c.actionflag c.tx c.stakedblock
        rwa [Option.some.inj h] at hkept
      · obtain ⟨legal, -, h⟩ := Option.bind_eq_some_iff.mp h
        have hresult := Option.some.inj h
        split at hresult
        · obtain ⟨rfl, -⟩ := Prod.mk.inj hresult
          exact ⟨rfl, rfl⟩
        · split at hresult
          · have hbets := hsame (bets_same s c.actionflag c.tx)
            rwa [hresult] at hbets
          · split at hresult
            · have hmicropay := hsame (micropay_same s c.tx)
              rwa [hresult] at hmicropay
            · obtain ⟨rfl, -⟩ := Prod.mk.inj hresult
              exact ⟨rfl, rfl⟩

/-- A call that comes back conserves value exactly when it does not overpay. -/
theorem conserves_iff {s t : PeggyInfo} {c : TxCall} {r : Int} (h : process acct777Lockhash s c = some (t, r)) :
    Conserves s t c.tx ↔ ¬ Overpays acct777Lockhash s c := by
  rw [Overpays]
  rcases process_cases acct777Lockhash h with ⟨hnormal, hstep⟩ | ⟨hother, hbalances, -⟩
  · rw [hstep.conserves_iff, and_iff_right hnormal]
  · have hgains : Gains (balanceAt s) (balanceAt t) 0 := by
      rw [hbalances]
      exact .refl _
    exact iff_of_true ((gains_iff hgains).mpr (Int.natCast_nonneg _)) fun h => hother h.1

theorem Same.grows {s t : PeggyInfo} (h : Same s t) : s.accts.units <+: t.accts.units := by
  rw [h.units]

theorem Outcome.grows {s t : PeggyInfo} {r value : Int} {dest : Table × Nat} {f : Fate} (h : Outcome s t r dest value f) :
    s.accts.units <+: t.accts.units := by
  cases h with
  | refused _ h => exact h.grows
  | idle _ h => exact h.grows
  | created _ h =>
    obtain ⟨U, hU⟩ := h.units
    rw [hU]
    exact List.prefix_append _ _
  | paid _ _ h => rw [h.units]

theorem sendOutputs_grows {b : Block} {inp : PeggyInput} {len : Nat} (hlen : len < 100) (outs : List (Nat × PeggyOutput))
    {s t : PeggyInfo} {sent : Bool} (h : sendOutputs acct777Lockhash b inp len outs s = some (t, sent)) :
    s.accts.units <+: t.accts.units := by
  induction outs generalizing s with
  | nil =>
    obtain ⟨rfl, -⟩ := Prod.mk.inj (Option.some.inj h)
    exact List.prefix_rfl
  | cons out outs ih =>
    obtain ⟨ratio, out⟩ := out
    rw [sendOutputs] at h
    obtain ⟨⟨s', r⟩, hsend, h⟩ := Option.bind_eq_some_iff.mp h
    obtain ⟨k, -, hout⟩ := send_outcome acct777Lockhash hlen hsend
    dsimp only at h
    split at h
    · obtain ⟨rfl, -⟩ := Prod.mk.inj (Option.some.inj h)
      exact hout.grows
    · exact hout.grows.trans (ih h)

/-- Transactions only add units, at the end. -/
theorem process_grows {s t : PeggyInfo} {c : TxCall} {r : Int} (h : process acct777Lockhash s c = some (t, r)) :
    s.accts.units <+: t.accts.units := by
  rcases process_cases acct777Lockhash h with ⟨-, hstep⟩ | ⟨-, -, hunits⟩
  · cases hstep with
    | idle _ _ h => exact h.grows
    | funds _ hsend =>
      obtain ⟨k, -, hout⟩ := send_outcome acct777Lockhash (by decide : 57 < 100) hsend
      exact hout.grows
    | shares _ _ hsend hlog => exact (sendOutputs_grows acct777Lockhash (by decide : 21 < 100) _ hsend).trans hlog.grows
    | paysWhole _ _ hlen hsend hlog =>
      obtain ⟨k, -, hout⟩ := send_outcome acct777Lockhash hlen hsend
      exact hout.grows.trans hlog.grows
  · rw [hunits]

theorem process_keeps {s t : PeggyInfo} {c : TxCall} {r : Int} (h : process acct777Lockhash s c = some (t, r)) {i : Nat}
    {U : PeggyUnit} (hU : s.accts.units[i]? = some U) : t.accts.units[i]? = some U := by
  obtain ⟨hi, rfl⟩ := List.getElem?_eq_some_iff.mp hU
  exact List.prefix_iff_getElem?.mp (process_grows acct777Lockhash h) i hi

/-- `P` holds of every call of a run that comes back, with the state it is made in and the one it leaves. -/
def Throughout (P : PeggyInfo → TxCall → PeggyInfo → Prop) : PeggyInfo → List TxCall → Prop
  | _, [] => True
  | s, c :: cs => ∀ x ∈ process acct777Lockhash s c, P s c x.1 ∧ Throughout P x.1 cs

theorem Throughout.congr {P Q : PeggyInfo → TxCall → PeggyInfo → Prop}
    (h : ∀ s c t r, process acct777Lockhash s c = some (t, r) → (P s c t ↔ Q s c t)) (s : PeggyInfo) (cs : List TxCall) :
    Throughout acct777Lockhash P s cs ↔ Throughout acct777Lockhash Q s cs := by
  induction cs generalizing s with
  | nil => exact Iff.rfl
  | cons c cs ih =>
    refine forall₂_congr fun x hx => and_congr (h s c x.1 x.2 hx) (ih x.1)

instance decidableThroughout {P : PeggyInfo → TxCall → PeggyInfo → Prop} [∀ s c t, Decidable (P s c t)] (s : PeggyInfo) (cs : List TxCall) :
    Decidable (Throughout acct777Lockhash P s cs) :=
  match cs with
  | [] => .isTrue trivial
  | c :: cs =>
    match h : process acct777Lockhash s c with
    | none => .isTrue fun x hx => by rw [h] at hx; cases hx
    | some x =>
      have : Decidable (Throughout acct777Lockhash P x.1 cs) := decidableThroughout x.1 cs
      decidable_of_iff (P s c x.1 ∧ Throughout acct777Lockhash P x.1 cs)
        ⟨fun hx y hy => by rw [h] at hy; obtain rfl := Option.some.inj hy; exact hx, fun hx => hx x h⟩

/-- A normal call for which the first input is looked up among the units. -/
def Redeems (c : TxCall) : Prop :=
  0 < c.actionflag ∧ c.tx.txtype = 0 ∧ c.tx.numinputs ≠ 0 ∧ Locked (c.tx.inputs.getD 0 default)

instance (c : TxCall) : Decidable (Redeems c) := inferInstanceAs (Decidable (_ ∧ _ ∧ _ ∧ _))

/-- The place of the unit that a call redeems. -/
def metUnit (s : PeggyInfo) (c : TxCall) : Option Nat :=
  if Redeems c then ((lockedInput s c.b (c.tx.inputs.getD 0 default)).target acct777Lockhash s).map fun x => x.2.1 else none

/-- The lockhash of the unit that a call asks for. -/
def askedHash (c : TxCall) : Option (BitVec 256) :=
  let src := (c.tx.inputs.getD 0 default).src
  if Redeems c then some (acct777Lockhash src.sha256 src.newlock.minlockdays 1) else none

/-- The units redeemed by the accepted calls of a run, in order. The place of a unit is its name for the whole
run. -/
def redemptions : PeggyInfo → List TxCall → List Nat
  | _, [] => []
  | s, c :: cs =>
    match process acct777Lockhash s c with
    | none => []
    | some (t, r) => (if r < 0 then [] else (metUnit acct777Lockhash s c).toList) ++ redemptions t cs

theorem metUnit_asked {s : PeggyInfo} {c : TxCall} {i : Nat} (h : metUnit acct777Lockhash s c = some i) :
    ∃ U, s.accts.units[i]? = some U ∧ askedHash acct777Lockhash c = some U.lockhash := by
  rw [metUnit] at h
  split at h
  · next hredeems =>
    obtain ⟨⟨peg, j, U⟩, htarget, rfl⟩ := Option.map_eq_some_iff.mp h
    obtain ⟨found, -, htarget⟩ := Option.bind_eq_some_iff.mp htarget
    obtain ⟨⟨i, V⟩, hmatch, htarget⟩ := Option.bind_eq_some_iff.mp htarget
    obtain ⟨rfl, rfl, rfl⟩ : found = peg ∧ i = j ∧ V = U := by simpa using htarget
    obtain ⟨hU, -, hhash⟩ := peggyMatch_some hmatch
    refine ⟨V, hU, ?_⟩
    rw [askedHash]
    exact (if_pos hredeems).trans (congrArg some hhash.symm)
  · cases h

/-- A unit there is at the start is redeemed in a run only under its own lockhash. -/
theorem redemptions_asked (cs : List TxCall) {s : PeggyInfo} {i : Nat} {U : PeggyUnit} (hU : s.accts.units[i]? = some U)
    (h : i ∈ redemptions acct777Lockhash s cs) : U.lockhash ∈ cs.filterMap (askedHash acct777Lockhash) := by
  induction cs generalizing s with
  | nil => cases h
  | cons c cs ih =>
    rw [redemptions] at h
    cases hprocess : process acct777Lockhash s c with
    | none =>
      rw [hprocess] at h
      cases h
    | some x =>
      obtain ⟨t, r⟩ := x
      rw [hprocess] at h
      rcases List.mem_append.mp h with h | h
      · have hmet : metUnit acct777Lockhash s c = some i := by
          split at h
          · cases h
          · exact Option.mem_toList.mp h
        obtain ⟨V, hV, hasked⟩ := metUnit_asked acct777Lockhash hmet
        rw [hU] at hV
        obtain rfl := Option.some.inj hV
        rw [List.filterMap_cons, hasked]
        exact List.mem_cons_self
      · have hrest := ih (process_keeps acct777Lockhash hprocess hU) h
        rw [List.filterMap_cons]
        split
        · exact hrest
        · exact List.mem_cons_of_mem _ hrest

theorem redemptions_nodup (cs : List TxCall) (s : PeggyInfo) (h : (cs.filterMap (askedHash acct777Lockhash)).Nodup) :
    (redemptions acct777Lockhash s cs).Nodup := by
  induction cs generalizing s with
  | nil => exact List.nodup_nil
  | cons c cs ih =>
    rw [redemptions]
    cases hprocess : process acct777Lockhash s c with
    | none => exact List.nodup_nil
    | some x =>
      obtain ⟨t, r⟩ := x
      have hrest : (cs.filterMap (askedHash acct777Lockhash)).Nodup := by
        rw [List.filterMap_cons] at h
        split at h
        · exact h
        · exact (List.nodup_cons.mp h).2
      dsimp only
      split
      · exact ih t hrest
      · cases hmet : metUnit acct777Lockhash s c with
        | none => exact ih t hrest
        | some i =>
          obtain ⟨U, hU, hasked⟩ := metUnit_asked acct777Lockhash hmet
          rw [List.filterMap_cons, hasked] at h
          refine List.nodup_cons.mpr ⟨fun hagain => ?_, ih t hrest⟩
          have hU' := process_keeps acct777Lockhash hprocess hU
          exact (List.nodup_cons.mp h).1 (redemptions_asked acct777Lockhash cs hU' hagain)

end

/-- Five coins of the NXT account 7 as two halves for the NXT account `key`. -/
def halvesTx (key : BitVec 256) : PeggyTx :=
  { (default : PeggyTx) with
    numinputs := 1, numoutputs := 2
    inputs := [{ (default : PeggyInput) with type := 2, amount := 500000000, src := { (default : PeggyAddr) with sha256 := 7 } }]
    outputs := [{ (default : PeggyOutput) with type := 2, ratio := 5002284, dest := { (default : PeggyAddr) with sha256 := key } },
      { (default : PeggyOutput) with type := 2, ratio := 5002285, dest := { (default : PeggyAddr) with sha256 := key } }]
    sigs := [{ (default : AcctSig) with signer64bits := 1 }] }

/-- A lock of a peg, redeemed under two signatures for the NXT account `key`. -/
def redeemTx (peg : BitVec 16) (pubkey key : BitVec 256) (amount : BitVec 64) : PeggyTx :=
  { (default : PeggyTx) with
    numinputs := 1, numoutputs := 1, funding := { (default : PeggyInput) with amount }
    inputs := [{ (default : PeggyInput) with type := 4, src := ⟨pubkey, { monthLock with peg, minlockdays := 10 }⟩ }]
    outputs := [{ (default : PeggyOutput) with type := 2, ratio := 10004569, dest := { (default : PeggyAddr) with sha256 := key } }]
    sigs := [{ (default : AcctSig) with signer64bits := 1 }, { (default : AcctSig) with signer64bits := 2 }] }

/-- Locks of both pegs, the first under the hash 7 and the second under the hash 9. -/
def lockedBank : PeggyInfo :=
  let first := { fiveUnits 0 5 with lockhash := 7 }
  let second := { fiveUnits 1 5 with lockhash := 9 }
  step (fun pubkey _ _ => pubkey) (step (fun pubkey _ _ => pubkey) (newBank false) (.createunit first)) (.createunit second)

end SuperNet.Peggy.Peggy777
