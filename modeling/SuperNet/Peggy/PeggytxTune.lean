import SuperNet.Peggy.PeggytxAtomic

/-! What `peggy_txind_tune` sets for the entries of a transaction, and what they ask for. -/
namespace SuperNet.Peggy.Peggy777
open Lib.Words Serdes777 Accts777

/-- Function `i` of `tunefuncs`. -/
def tuneFn (val valB : BitVec 64) (i : Nat) (PEG : PeggyContract) : PeggyContract := (tunefuncs PEG val valB).getD i PEG

/-- What function `i` of `tunefuncs` stores. -/
def tuneStored (val valB : BitVec 64) (i : Nat) : Int × Int := tunedField i (tuneFn val valB i default)

structure Tuning where
  peg : Option Nat
  set : PeggyContract → PeggyContract

def applyTuning (contracts : Nat → PeggyContract) (x : Tuning) : Nat → PeggyContract :=
  match x.peg with
  | none => contracts
  | some peg => Function.update contracts peg (x.set (contracts peg))

/-- The bank after some tunings. -/
def tuned (s : PeggyInfo) (xs : List Tuning) : PeggyInfo := { s with contracts := xs.foldl applyTuning s.contracts }

def tuneName (tune : TxTune) : Nat := peggyAssetbits ((Lib.Bytes.leBytes 15 tune.peg.toNat).takeWhile (· ≠ 0))

/-- What an entry says: its own type and values, for the peg of its name. -/
def tuneAsked (s : PeggyInfo) (tune : TxTune) : Tuning :=
  ⟨peggyFindpair s (tuneName tune), tuneFn tune.val tune.B tune.type.toNat⟩

/-- What the loop does for the entries from number `i` on. -/
def tuneDone (s : PeggyInfo) (val valB : BitVec 64) : Nat → List TxTune → List Tuning
  | _, [] => []
  | i, tune :: tunes => ⟨some (peggyPegstr s tune.peg), tuneFn val valB i⟩ :: tuneDone s val valB (i + 1) tunes

/-- Entry `k` names a peg, has type `k` and stores what the first entry does. -/
def TuneFits (s : PeggyInfo) (val valB : BitVec 64) (k : Nat) (tune : TxTune) : Prop :=
  peggyFindpair s (tuneName tune) ≠ none ∧ tune.type.toNat = k ∧ tuneStored val valB k = tuneStored tune.val tune.B k

section TuneFn
variable {val valB val' valB' : BitVec 64} {i j : Nat}

private theorem tuneFn_get (PEG : PeggyContract) (h : i < 14) : (tunefuncs PEG val valB)[i]? = some (tuneFn val valB i PEG) := by
  have hlt : i < (tunefuncs PEG val valB).length := h
  rw [tuneFn, List.getD_eq_getElem?_getD, List.getElem?_eq_getElem hlt, Option.getD_some]

private theorem tunedField_tuneFn (PEG : PeggyContract) (h : i < 14) :
    tunedField i (tuneFn val valB i PEG) = tuneStored val valB i := by
  interval_cases i <;> rfl

private theorem tuneFn_tuneFn (PEG : PeggyContract) (h : i < 14) :
    tuneFn val valB i (tuneFn val' valB' i PEG) = tuneFn val valB i PEG := by
  interval_cases i <;> simp only [tuneFn, tunefuncs, List.getD_cons_zero, List.getD_cons_succ]

private theorem tuneFn_assetbits (PEG : PeggyContract) (h : i < 14) : (tuneFn val valB i PEG).assetbits = PEG.assetbits := by
  interval_cases i <;> simp only [tuneFn, tunefuncs, List.getD_cons_zero, List.getD_cons_succ]

private theorem tuneStored_ne (h : i < 14) : tuneStored 0 0 i ≠ tuneStored 1 0 i := by
  interval_cases i <;> decide

private theorem tuneFn_eq_iff (hi : i < 14) (hj : j < 14) :
    tuneFn val valB i = tuneFn val' valB' j ↔ j = i ∧ tuneStored val valB i = tuneStored val' valB' i := by
  constructor
  · intro h
    have hstored : ∀ PEG, tunedField i (tuneFn val' valB' j PEG) = tuneStored val valB i := by
      intro PEG
      rw [← h]
      exact tunedField_tuneFn PEG hi
    obtain rfl | hne := eq_or_ne j i
    · exact ⟨rfl, (hstored default).symm.trans (tunedField_tuneFn default hj)⟩
    · have hother : ∀ PEG, tunedField i PEG = tuneStored val valB i := by
        intro PEG
        rw [← hstored PEG, tunedField_other (tuneFn_get PEG hj) hne.symm]
      have hzero := hother (tuneFn 0 0 i default)
      have hone := hother (tuneFn 1 0 i default)
      rw [tunedField_tuneFn default hi] at hzero hone
      exact absurd (hzero.trans hone.symm) (tuneStored_ne hi)
  · rintro ⟨rfl, hstored⟩
    funext PEG
    have hself : tunedField j (tuneFn val valB j (tuneFn val' valB' j PEG)) = tunedField j (tuneFn val' valB' j PEG) →
        tuneFn val valB j (tuneFn val' valB' j PEG) = tuneFn val' valB' j PEG :=
      tunefuncs_self (tuneFn_get (tuneFn val' valB' j PEG) hj)
    rw [tunedField_tuneFn _ hi, tunedField_tuneFn _ hi] at hself
    rw [← hself hstored, tuneFn_tuneFn PEG hi]

end TuneFn

section Loop
variable {s t : PeggyInfo} {val valB : BitVec 64}

/-- The pegs of a bank and their names. -/
def SamePegs (s t : PeggyInfo) : Prop :=
  t.numpegs = s.numpegs ∧ ∀ peg, (t.contracts peg).assetbits = (s.contracts peg).assetbits

private theorem SamePegs.findpair (h : SamePegs s t) (name : Nat) : peggyFindpair t name = peggyFindpair s name := by
  rw [peggyFindpair, peggyFindpair, h.1]
  simp only [h.2]

private theorem SamePegs.done (h : SamePegs s t) (i : Nat) (tunes : List TxTune) :
    tuneDone t val valB i tunes = tuneDone s val valB i tunes := by
  induction tunes generalizing i with
  | nil => rfl
  | cons tune tunes ih => rw [tuneDone, tuneDone, ih, peggyPegstr, peggyPegstr, h.findpair]

private theorem Same.tuned (h : Same s t) (xs : List Tuning) : Same (tuned s xs) (tuned t xs) where
  balances := h.balances
  units := h.units
  pricefeeds := h.pricefeeds
  indexed := h.indexed
  peggyhash := h.peggyhash
  bank := by rw [h.bank]; rfl

private theorem samePegs_tuned {i : Nat} (hi : i < 14) (s : PeggyInfo) (peg : Option Nat) :
    SamePegs s (tuned s [⟨peg, tuneFn val valB i⟩]) := by
  refine ⟨rfl, fun j => ?_⟩
  rw [Peggy777.tuned, List.foldl_cons, List.foldl_nil, applyTuning]
  cases peg with
  | none => rfl
  | some peg =>
    dsimp only
    by_cases hj : j = peg
    · rw [hj, Function.update_self, tuneFn_assetbits _ hi]
    · rw [Function.update_of_ne hj]

private theorem tuneEntries_done {actionflag : Int} (hflag : 0 < actionflag) {i : Nat} {tunes : List TxTune}
    (h : tuneEntries actionflag val valB i tunes s = some (t, true)) :
    Same (tuned s (tuneDone s val valB i tunes)) t ∧
      ∀ k tune, tunes[k]? = some tune → i + k < 14 ∧ tune.type.toNat < 14 := by
  induction tunes generalizing i s with
  | nil =>
    obtain ⟨rfl, -⟩ := Prod.mk.inj (Option.some.inj h)
    exact ⟨Same.refl s, fun k tune hk => by rw [List.getElem?_nil] at hk; cases hk⟩
  | cons tune tunes ih =>
    rw [tuneEntries] at h
    dsimp only at h
    split at h
    · cases h
    rw [if_neg (not_le.mpr hflag)] at h
    by_cases htype : 14 ≤ tune.type.toNat
    · rw [if_pos htype] at h
      cases h
    have hfees : tune.type ≠ 77 := fun heq => htype (by rw [heq]; decide)
    rw [if_neg htype, if_neg hfees] at h
    obtain ⟨P, hP, hrest⟩ := Option.bind_eq_some_iff.mp h
    have hi := tunefuncs_lt hP
    obtain rfl : tuneFn val valB i (s.contracts (peggyPegstr s tune.peg)) = P := by
      rw [tuneFn_get _ hi] at hP
      exact Option.some.inj hP
    generalize hx : (⟨some (peggyPegstr s tune.peg), tuneFn val valB i⟩ : Tuning) = x
    have hrest' : tuneEntries actionflag val valB (i + 1) tunes (txind777Create (tuned s [x]) 32).1 = some (t, true) := by
      rw [← hx]
      exact hrest
    have hlog := log_same (tuned s [x]) 32
    have hpegs : SamePegs s (txind777Create (tuned s [x]) 32).1 := by
      rw [hlog.bank, ← hx]
      exact samePegs_tuned hi s _
    obtain ⟨hsame, htypes⟩ := ih hrest'
    constructor
    · rw [hpegs.done] at hsame
      rw [tuneDone, hx]
      exact (hlog.tuned _).trans hsame
    · intro k entry hk
      cases k with
      | zero =>
        obtain rfl := Option.some.inj hk
        exact ⟨hi, Nat.lt_of_not_le htype⟩
      | succ k =>
        obtain ⟨hlt, hlt'⟩ := htypes k entry hk
        exact ⟨by omega, hlt'⟩

private theorem tuneDone_eq_iff {i : Nat} {tunes : List TxTune}
    (h : ∀ k tune, tunes[k]? = some tune → i + k < 14 ∧ tune.type.toNat < 14) :
    tuneDone s val valB i tunes = tunes.map (tuneAsked s) ↔
      ∀ k tune, tunes[k]? = some tune → TuneFits s val valB (i + k) tune := by
  induction tunes generalizing i with
  | nil => exact iff_of_true rfl fun k tune hk => by rw [List.getElem?_nil] at hk; cases hk
  | cons tune tunes ih =>
    obtain ⟨hi, htype⟩ := h 0 tune rfl
    have hhead : (⟨some (peggyPegstr s tune.peg), tuneFn val valB i⟩ : Tuning) = tuneAsked s tune ↔
        TuneFits s val valB i tune := by
      rw [Nat.add_zero] at hi
      rw [tuneAsked, Tuning.mk.injEq, tuneFn_eq_iff hi htype, TuneFits, peggyPegstr, ← tuneName]
      apply and_congr_left
      intro _
      cases peggyFindpair s (tuneName tune) with
      | none => exact iff_of_false (fun heq => by cases heq) fun hne => hne rfl
      | some peg => exact iff_of_true rfl (Option.some_ne_none peg)
    have htail := ih (i := i + 1) fun k entry hk => by
      obtain ⟨hlt, hlt'⟩ := h (k + 1) entry hk
      exact ⟨by omega, hlt'⟩
    rw [tuneDone, List.map_cons, List.cons.injEq, hhead, htail]
    constructor
    · rintro ⟨hfits, hrest⟩ k entry hk
      cases k with
      | zero =>
        obtain rfl := Option.some.inj hk
        exact hfits
      | succ k =>
        have hfits' := hrest k entry hk
        rw [Nat.add_right_comm] at hfits'
        exact hfits'
    · intro hall
      refine ⟨hall 0 tune rfl, fun k entry hk => ?_⟩
      have hfits' := hall (k + 1) entry hk
      rw [Nat.add_right_comm]
      exact hfits'

end Loop

/-- An accepted tune transaction makes its tunings in order and changes nothing else of the bank. They are those
that its entries ask for iff every entry fits its place. -/
theorem tune_asked_iff {tuners : List (BitVec 64)} {s t : PeggyInfo} {actionflag r : Int} {tx : PeggyTx}
    (hflag : 0 < actionflag) (h : peggyTxindTune tuners s actionflag tx = some (t, r)) (hr : 0 ≤ r) :
    let tunes := used tx.numdetails.toNat tx.details.tune
    let done := tuneDone s (tunes.headD default).val (tunes.headD default).B 0 tunes
    Same (tuned s done) t ∧
      (done = tunes.map (tuneAsked s) ↔
        ∀ k tune, tunes[k]? = some tune → TuneFits s (tunes.headD default).val (tunes.headD default).B k tune) := by
  intro tunes done
  rw [peggyTxindTune] at h
  split at h
  · obtain ⟨-, rfl⟩ := Prod.mk.inj (Option.some.inj h)
    exact absurd hr (by decide)
  dsimp only at h
  cases hloop : tuneEntries actionflag (tunes.headD default).val (tunes.headD default).B 0 tunes s with
  | none =>
    rw [hloop] at h
    cases h
  | some res =>
    obtain ⟨t', ok⟩ := res
    rw [hloop] at h
    cases ok with
    | false =>
      obtain ⟨-, rfl⟩ := Prod.mk.inj (Option.some.inj h)
      exact absurd hr (by decide)
    | true =>
      obtain ⟨hsame, htypes⟩ := tuneEntries_done hflag hloop
      constructor
      · refine hsame.trans ?_
        dsimp only at h
        split at h
        · obtain ⟨rfl, -⟩ := Prod.mk.inj (Option.some.inj h)
          exact Same.refl t'
        · have ht : (txind777Bundle t' tunes.length).1 = t := congrArg Prod.fst (Option.some.inj h)
          rw [← ht]
          exact log_same t' _
      · rw [tuneDone_eq_iff htypes]
        simp only [Nat.zero_add]

/-- A tuning under one signature. -/
def tuneTx (tune : List TxTune) : PeggyTx :=
  { (default : PeggyTx) with
    numdetails := BitVec.ofNat 8 tune.length, details := { (default : TxDetails) with tune }
    sigs := [{ (default : AcctSig) with signer64bits := 1 }] }

/-- The peg "BTCD" is enabled, and "USD" and "BTCD" get a daily rate and a quorum. -/
def enableTunes : List TxTune := [⟨0, 0x44435442, 7, 0⟩, ⟨1, 0x445355, 7, 0⟩, ⟨2, 0x44435442, 7, 9⟩]

private theorem tuneTx_accepted (tunes : List TxTune)
    (h : ((peggyTxindTune [1] (newBank true) 1 (tuneTx tunes)).map Prod.snd).any (0 ≤ ·) = true) :
    ∃ t r, peggyTxindTune [1] (newBank true) 1 (tuneTx tunes) = some (t, r) ∧ 0 ≤ r := by
  obtain ⟨r, hr, hpos⟩ := (Option.any_eq_true _ _).mp h
  obtain ⟨⟨t, r'⟩, ht, rfl⟩ := Option.map_eq_some_iff.mp hr
  exact ⟨t, r', ht, of_decide_eq_true hpos⟩

theorem tune_asked_enable :
    ∃ t r, 0 < (1 : Int) ∧ peggyTxindTune [1] (newBank true) 1 (tuneTx enableTunes) = some (t, r) ∧ 0 ≤ r ∧
      tuneDone (newBank true) 7 0 0 enableTunes = enableTunes.map (tuneAsked (newBank true)) := by
  obtain ⟨t, r, ht, hr⟩ := tuneTx_accepted enableTunes (by decide +kernel)
  refine ⟨t, r, by decide, ht, hr, (tune_asked_iff (by decide) ht hr).2.mpr ?_⟩
  intro k tune hk
  match k with
  | 0 =>
    obtain rfl := Option.some.inj hk
    exact ⟨by decide +kernel, rfl, rfl⟩
  | 1 =>
    obtain rfl := Option.some.inj hk
    exact ⟨by decide +kernel, rfl, rfl⟩
  | 2 =>
    obtain rfl := Option.some.inj hk
    exact ⟨by decide +kernel, rfl, rfl⟩
  | k + 3 => cases hk

/-- An entry for the decision threshold enables the peg instead. -/
theorem tune_threshold_enables :
    ¬ ∀ (tuners : List (BitVec 64)) (s t : PeggyInfo) (actionflag r : Int) (tx : PeggyTx), 0 < actionflag →
      peggyTxindTune tuners s actionflag tx = some (t, r) → 0 ≤ r →
      Same (tuned s ((used tx.numdetails.toNat tx.details.tune).map (tuneAsked s))) t := by
  intro h
  obtain ⟨t, r, ht, hr⟩ := tuneTx_accepted [⟨3, 0x44435442, 7, 0⟩] (by decide +kernel)
  have hsame := h _ _ _ _ _ _ (by decide) ht hr
  have henabled : (peggyTxindTune [1] (newBank true) 1 (tuneTx [⟨3, 0x44435442, 7, 0⟩])).map
      (fun x => (x.1.contracts 0).enabled) = some 7 := by
    decide +kernel
  rw [ht] at henabled
  have hcontracts := congrArg (fun s => (s.contracts 0).enabled) hsame.bank
  have hasked : ((tuned (newBank true) ([⟨3, 0x44435442, 7, 0⟩].map (tuneAsked (newBank true)))).contracts 0).enabled = 0 := by
    decide +kernel
  have hseven := Option.some.inj henabled
  dsimp only at hcontracts hseven
  rw [hseven] at hcontracts
  exact absurd (hcontracts.trans hasked) (by decide)

end SuperNet.Peggy.Peggy777
