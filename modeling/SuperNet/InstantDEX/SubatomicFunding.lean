import SuperNet.InstantDEX.Subatomic

/-! What `subatomic_calc_rawinputs` picks for an amount and what `subatomic_fundingtx` makes of it. -/
namespace SuperNet.InstantDEX.Subatomic

/-- What a transaction has to bring in: the amount, the fee of the network and the donation. -/
def needed (coin : Coin777) (amount donation : UInt64) : Nat := amount.toNat + coin.txfee.toNat + donation.toNat

def totalUnspent (ups : List Unspent) : Nat := (ups.map fun up => up.amount.toNat).sum

def totalOutputs (dests : List (Text × UInt64)) : Nat := (dests.map fun dest => dest.2.toNat).sum

/-- What a transaction is funded with: different unspents of the list, and the change they leave. -/
structure Funded (coin : Coin777) (ups : List Unspent) (amount donation inputsum : UInt64) (rp : Rawtransaction) : Prop where
  distinct : (rp.inputs.map fun up => (up.txid, up.vout)).Nodup
  members : ∀ up ∈ rp.inputs, up ∈ ups
  inputsum : rp.inputsum = inputsum
  sum : rp.inputsum.toNat = totalUnspent rp.inputs
  change : rp.change.toNat + needed coin amount donation = rp.inputsum.toNat

/-- Enough unspents fund the transaction, and what goes in comes out. -/
structure FundsExactly (coin : Coin777) (ups : List Unspent) (amount donation : UInt64) : Prop where
  complete : needed coin amount donation ≤ totalUnspent ups →
    (subatomicCalcRawinputs coin .clear amount ups donation).1 ≠ 0
  funded : (subatomicCalcRawinputs coin .clear amount ups donation).1 ≠ 0 →
    Funded coin ups amount donation (subatomicCalcRawinputs coin .clear amount ups donation).1
      (subatomicCalcRawinputs coin .clear amount ups donation).2
  outputs : (subatomicCalcRawinputs coin .clear amount ups donation).1 ≠ 0 → ∀ (p2shaddr : Text) (funding : Rawtransaction),
    fundingDests coin (subatomicCalcRawinputs coin .clear amount ups donation).2 amount donation p2shaddr = (funding, true) →
      totalOutputs funding.dests + coin.txfee.toNat = funding.inputsum.toNat

section Bestfit
variable {value : UInt64} {vin : Unspent} {ups : List Unspent}

theorem bestfitLoop_mem {abovevin belowvin : Option Unspent} (h : bestfitLoop value abovevin belowvin ups = some vin) :
    vin ∈ ups ∨ abovevin = some vin ∨ belowvin = some vin := by
  induction ups generalizing abovevin belowvin with
  | nil => exact Or.inr (Option.or_eq_some_iff.mp h |>.imp_right And.right)
  | cons up ups ih =>
    rw [bestfitLoop] at h
    split at h
    · exact Or.inl (List.mem_cons.mpr (Or.inl (Option.some.inj h).symm))
    · split at h <;> rcases ih h with hmem | habove | hbelow
      · exact Or.inl (List.mem_cons_of_mem up hmem)
      · split at habove
        · exact Or.inl (List.mem_cons.mpr (Or.inl (Option.some.inj habove).symm))
        · exact Or.inr (Or.inl habove)
      · exact Or.inr (Or.inr hbelow)
      · exact Or.inl (List.mem_cons_of_mem up hmem)
      · exact Or.inr (Or.inl habove)
      · split at hbelow
        · exact Or.inl (List.mem_cons.mpr (Or.inl (Option.some.inj hbelow).symm))
        · exact Or.inr (Or.inr hbelow)

theorem bestfitLoop_reaches (abovevin belowvin : Option Unspent) (habove : ∀ a ∈ abovevin, value ≤ a.amount)
    (h : abovevin.isSome ∨ ∃ up ∈ ups, value ≤ up.amount) :
    ∃ vin, bestfitLoop value abovevin belowvin ups = some vin ∧ value ≤ vin.amount := by
  induction ups generalizing abovevin belowvin with
  | nil =>
    obtain ⟨a, rfl⟩ := Option.isSome_iff_exists.mp (h.resolve_right (by simp))
    exact ⟨a, rfl, habove a rfl⟩
  | cons up ups ih =>
    rw [bestfitLoop]
    split
    case isTrue heq => exact ⟨up, rfl, UInt64.le_of_eq heq.symm⟩
    case isFalse hne =>
      split
      case isTrue hgt =>
        apply ih
        · intro a ha
          split at ha
          · obtain rfl := Option.some.inj ha
            exact UInt64.le_of_lt hgt
          · exact habove a ha
        · left
          split
          · rfl
          · cases abovevin with
            | none => contradiction
            | some a => rfl
      case isFalse hle =>
        apply ih _ _ habove
        rcases h with hsome | ⟨u, hu, hge⟩
        · exact Or.inl hsome
        · rcases List.mem_cons.mp hu with rfl | hu
          · exact absurd (UInt64.lt_of_le_of_ne hge (Ne.symm hne)) hle
          · exact Or.inr ⟨u, hu, hge⟩

end Bestfit

section Funding
variable {coin : Coin777} {ups : List Unspent} {amount donation : UInt64}

theorem needed_toNat (hsum : needed coin amount donation < 2 ^ 64) :
    (amount + (coin.txfee + donation)).toNat = needed coin amount donation := by
  rw [needed] at hsum ⊢
  rw [UInt64.toNat_add, UInt64.toNat_add]
  omega

/-- One entry of the list pays for all, or there is no transaction. -/
theorem subatomicCalcRawinputs_spec (rp : Rawtransaction) (hsum : needed coin amount donation < 2 ^ 64) :
    (∃ up ∈ ups, needed coin amount donation ≤ up.amount.toNat ∧ subatomicCalcRawinputs coin rp amount ups donation =
      (up.amount, { rp with
        inputs := [up], amount := amount, change := up.amount - (amount + (coin.txfee + donation)), inputsum := up.amount })) ∨
    (∀ up ∈ ups, up.amount.toNat < needed coin amount donation) ∧
      (subatomicCalcRawinputs coin rp amount ups donation).1 = 0 := by
  by_cases hone : ∃ up ∈ ups, amount + (coin.txfee + donation) ≤ up.amount
  · left
    obtain ⟨vin, hvin, hge⟩ := bestfitLoop_reaches none none (by simp) (Or.inr hone)
    refine ⟨vin, by simpa using bestfitLoop_mem hvin, ?_, ?_⟩
    · rw [← needed_toNat hsum]
      exact UInt64.le_iff_toNat_le.mp hge
    · have hamount : amount + (coin.txfee + donation) - coin.txfee - donation = amount := by grind
      rw [subatomicCalcRawinputs, hvin]
      dsimp only
      rw [if_pos hge, hamount]
  · right
    have hless : ∀ up ∈ ups, ¬ amount + (coin.txfee + donation) ≤ up.amount := fun up hup hge => hone ⟨up, hup, hge⟩
    constructor
    · intro up hup
      rw [← needed_toNat hsum]
      exact Nat.not_le.mp fun hle => hless up hup (UInt64.le_iff_toNat_le.mpr hle)
    · rw [subatomicCalcRawinputs]
      cases hvin : bestfitLoop (amount + (coin.txfee + donation)) none none ups with
      | none => rfl
      | some vin =>
        have hmem : vin ∈ ups := by simpa using bestfitLoop_mem hvin
        simp only [if_neg (hless vin hmem)]

theorem subatomicCalcRawinputs_ne_zero (rp : Rawtransaction) (hpos : ∀ up ∈ ups, 0 < up.amount)
    (hsum : needed coin amount donation < 2 ^ 64) :
    (subatomicCalcRawinputs coin rp amount ups donation).1 ≠ 0 ↔ ∃ up ∈ ups, needed coin amount donation ≤ up.amount.toNat := by
  rcases subatomicCalcRawinputs_spec rp hsum with ⟨up, hup, hge, heq⟩ | ⟨hless, hzero⟩
  · rw [heq]
    exact iff_of_true (UInt64.ne_of_lt (hpos up hup)).symm ⟨up, hup, hge⟩
  · exact iff_of_false (fun h => h hzero) fun ⟨up, hup, hge⟩ => absurd (hless up hup) (Nat.not_lt.mpr hge)

/-- What is left over after the amount, the fee and the donation. -/
theorem change_toNat {up : Unspent} (hsum : needed coin amount donation < 2 ^ 64)
    (hge : needed coin amount donation ≤ up.amount.toNat) :
    (up.amount - (amount + (coin.txfee + donation))).toNat + needed coin amount donation = up.amount.toNat := by
  rw [UInt64.toNat_sub_of_le _ _ (UInt64.le_iff_toNat_le.mpr (by rw [needed_toNat hsum]; exact hge)), needed_toNat hsum]
  omega

theorem funded_of_ne_zero (hsum : needed coin amount donation < 2 ^ 64)
    (h : (subatomicCalcRawinputs coin .clear amount ups donation).1 ≠ 0) :
    Funded coin ups amount donation (subatomicCalcRawinputs coin .clear amount ups donation).1
      (subatomicCalcRawinputs coin .clear amount ups donation).2 := by
  obtain ⟨up, hup, hge, heq⟩ := (subatomicCalcRawinputs_spec .clear hsum).resolve_right fun hno => h hno.2
  rw [heq]
  exact ⟨List.nodup_singleton _, fun u hu => by rwa [List.mem_singleton.mp hu], rfl, by simp [totalUnspent],
    change_toNat hsum hge⟩

theorem totalOutputs_nil : totalOutputs [] = 0 := rfl

theorem totalOutputs_append (dests : List (Text × UInt64)) (addr : Text) (value : UInt64) :
    totalOutputs (dests ++ [(addr, value)]) = totalOutputs dests + value.toNat := by
  simp [totalOutputs]

theorem fundingDests_total {funding funding' : Rawtransaction} {p2shaddr : Text} (hamount : funding.amount = amount)
    (hchange : funding.change = funding.inputsum - amount - coin.txfee - donation)
    (hsum : funding.change.toNat + needed coin amount donation = funding.inputsum.toNat)
    (h : fundingDests coin funding amount donation p2shaddr = (funding', true)) :
    totalOutputs funding'.dests + coin.txfee.toNat = funding'.inputsum.toNat := by
  unfold fundingDests at h
  extract_lets first second at h
  have hfirst : first = { funding with dests := [] ++ [(p2shaddr.take 63, amount)] } := if_pos ⟨hamount, hchange⟩
  -- the donation has an output of its own, or it stays in the change
  have hsecond : totalOutputs second.dests + second.change.toNat + coin.txfee.toNat = second.inputsum.toNat := by
    have hlt := funding.inputsum.toNat_lt
    rw [needed] at hsum
    by_cases hdonation : donation = 0
    · have heq : second = first := if_neg (not_not_intro hdonation)
      rw [hdonation, UInt64.toNat_zero] at hsum
      rw [heq, hfirst, totalOutputs_append, totalOutputs_nil]
      dsimp only
      omega
    · by_cases haddr : coin.donationaddress = []
      · have heq : second = { first with change := first.change + donation } :=
          (if_pos hdonation).trans (if_neg (not_not_intro haddr))
        rw [heq, hfirst, totalOutputs_append, totalOutputs_nil, UInt64.toNat_add]
        dsimp only
        omega
      · have heq : second = { first with dests := first.dests ++ [(coin.donationaddress.take 63, donation)] } :=
          (if_pos hdonation).trans (if_pos haddr)
        rw [heq, hfirst, totalOutputs_append, totalOutputs_append, totalOutputs_nil]
        dsimp only
        omega
  split at h
  case isTrue hleft =>
    split at h
    case isTrue haddr => exact absurd (congrArg Prod.snd h) Bool.false_ne_true
    case isFalse haddr =>
      rw [← (Prod.mk.inj h).1, totalOutputs_append]
      exact hsecond
  case isFalse hnone =>
    rw [not_not.mp hnone] at hsecond
    rw [← (Prod.mk.inj h).1]
    exact hsecond

theorem outputs_of_ne_zero (hsum : needed coin amount donation < 2 ^ 64)
    (h : (subatomicCalcRawinputs coin .clear amount ups donation).1 ≠ 0) {p2shaddr : Text} {funding : Rawtransaction}
    (hdests : fundingDests coin (subatomicCalcRawinputs coin .clear amount ups donation).2 amount donation p2shaddr =
      (funding, true)) : totalOutputs funding.dests + coin.txfee.toNat = funding.inputsum.toNat := by
  obtain ⟨up, hup, hge, heq⟩ := (subatomicCalcRawinputs_spec .clear hsum).resolve_right fun hno => h hno.2
  rw [heq] at hdests
  exact fundingDests_total rfl (by dsimp only; grind) (change_toNat hsum hge) hdests

/-- The unspents fund a transaction where a single one of them is enough, and have not to where they fall short. -/
theorem fundsExactly_iff (coin : Coin777) (ups : List Unspent) (amount donation : UInt64) (hpos : ∀ up ∈ ups, 0 < up.amount)
    (hsum : needed coin amount donation < 2 ^ 64) : FundsExactly coin ups amount donation ↔
      totalUnspent ups < needed coin amount donation ∨ ∃ up ∈ ups, needed coin amount donation ≤ up.amount.toNat := by
  rw [← subatomicCalcRawinputs_ne_zero .clear hpos hsum]
  constructor
  · intro h
    exact (Nat.lt_or_ge _ _).imp_right h.complete
  · intro h
    exact ⟨fun hge => h.resolve_left (Nat.not_lt.mpr hge), funded_of_ne_zero hsum,
      fun hne _ _ hdests => outputs_of_ne_zero hsum hne hdests⟩

end Funding

section Examples

def unspent (amount : UInt64) (vout : UInt32) : Unspent := ⟨amount, vout, 10, ['a', '1'], ['R', 'x'], []⟩

def plainCoin : Coin777 where
  addrtype := 0
  p2shtype := 5
  usep2sh := true
  oldtxFormat := 0
  txfee := 10000
  donationaddress := []
  changeaddr := ['R', 'x']
  funding := .clear
  refundtx := none
  signedrefund := none

def threeUnspents : List Unspent := [unspent 300000 0, unspent 900000 1, unspent 200000 2]

theorem fundsExactly_iff_three : FundsExactly plainCoin threeUnspents 500000 0 ∧ needed plainCoin 500000 0 < 2 ^ 64 ∧
    (FundsExactly plainCoin threeUnspents 500000 0 ↔
      totalUnspent threeUnspents < needed plainCoin 500000 0 ∨
        ∃ up ∈ threeUnspents, needed plainCoin 500000 0 ≤ up.amount.toNat) := by
  have hiff := fundsExactly_iff plainCoin threeUnspents 500000 0 (by decide) (by decide)
  exact ⟨hiff.mpr (.inr ⟨unspent 900000 1, List.mem_cons_of_mem _ List.mem_cons_self, by decide⟩), by decide, hiff⟩

/-- Two unspents of 300000 do not fund 500000. -/
theorem two_unspents_refused : needed plainCoin 500000 0 ≤ totalUnspent [unspent 300000 0, unspent 300000 1] ∧
    (subatomicCalcRawinputs plainCoin .clear 500000 [unspent 300000 0, unspent 300000 1] 0).1 = 0 ∧
    ¬ FundsExactly plainCoin [unspent 300000 0, unspent 300000 1] 500000 0 := by
  have henough : needed plainCoin 500000 0 ≤ totalUnspent [unspent 300000 0, unspent 300000 1] := by decide
  have hzero : (subatomicCalcRawinputs plainCoin .clear 500000 [unspent 300000 0, unspent 300000 1] 0).1 = 0 := by decide
  exact ⟨henough, hzero, fun h => h.complete henough hzero⟩

end Examples

end SuperNet.InstantDEX.Subatomic
