import SuperNet.Mgw.MgwOpreturn
import Mathlib.Data.UInt
import Mathlib.Algebra.BigOperators.Group.List.Basic

/-! The inputs and outputs of a withdraw: coin777_bestfit, coin777_inputs, mgw_cointx_withdraw and
mgw_OP_RETURN of MGW_main.c. The signed 64-bit variables hold the same bits as the unsigned ones that
they are mixed with. -/
namespace SuperNet.Mgw.MgwWithdraw
open MgwOpreturn

def maxCointxInputs : Nat := 256

/-- `struct unspent_info`, with the index of the unspent in `rawind_or_blocknum`. -/
structure Unspent where
  value : UInt64
  addrind : Nat
  unspentind : Nat
  deriving DecidableEq, Repr

/-- What `memset` leaves of an unspent that was taken. -/
def Unspent.zero : Unspent := ⟨0, 0, 0⟩

/-- What the ramchain says about addresses and unspents. -/
structure Ramchain where
  coinaddr : Nat → List Char
  scriptstr : Nat → List Char
  unspentmap : Nat → List Char × UInt16

structure Input where
  txidstr : List Char
  vout : UInt16
  coinaddr : List Char
  sigs : List Char
  value : UInt64
  deriving DecidableEq, Repr

structure Output where
  coinaddr : List Char
  script : List Char
  value : UInt64
  deriving DecidableEq, Repr

structure CointxInfo where
  inputs : List Input
  outputs : List Output
  inputsum : UInt64
  amount : UInt64
  change : UInt64
  deriving DecidableEq, Repr

structure Gateway where
  marker : List Char
  opreturnmarker : List Char
  txfee : UInt64
  NXTfee_equiv : UInt64
  minoutput : UInt64
  doOpreturn : Bool
  balance : Int
  gatewayid : Int
  deriving DecidableEq, Repr

variable (chain : Ramchain)

/-- The unspent that `coin777_bestfit` passes over. -/
def alreadyspent : List Char := "e6db47446ad5368c3ab5bf5999f1a358cd9f7087b86e69c70cb49977787798f7".toList

def skipped (vin : Unspent) : Bool := (chain.unspentmap vin.unspentind).1 == alreadyspent

structure Fit where
  above : UInt64
  abovevin : Option Nat
  below : UInt64
  belowvin : Option Nat

def bestfitLoop (value : UInt64) : List Unspent → Nat → Fit → Option Nat
  | [], _, f => f.abovevin.or f.belowvin
  | vin :: rest, i, f =>
    if skipped chain vin then bestfitLoop value rest (i + 1) f
    else if vin.value = value then some i
    else if vin.value > value then
      let gap := vin.value - value
      if f.above = 0 ∨ gap < f.above then bestfitLoop value rest (i + 1) { f with above := gap, abovevin := some i }
      else bestfitLoop value rest (i + 1) f
    else
      let gap := value - vin.value
      if f.below = 0 ∨ gap < f.below then bestfitLoop value rest (i + 1) { f with below := gap, belowvin := some i }
      else bestfitLoop value rest (i + 1) f

def coin777Bestfit (unspents : List Unspent) (value : UInt64) : Option Nat :=
  bestfitLoop chain value unspents 0 ⟨0, none, 0, none⟩

def cointxInput (vin : Unspent) : Input where
  txidstr := (chain.unspentmap vin.unspentind).1
  vout := (chain.unspentmap vin.unspentind).2
  coinaddr := chain.coinaddr vin.addrind
  sigs := chain.scriptstr vin.unspentind
  value := vin.value

/-- The variables of the loop of `coin777_inputs`, with the places of the unspents it took. -/
structure Picked where
  unspents : List Unspent
  sum : UInt64
  remainder : UInt64
  inputs : List Input
  places : List Nat

/-- The loop of `coin777_inputs` with `n` rounds to go; `total` is `amount + txfee`. -/
def inputsLoop (total : UInt64) : Nat → Picked → Option Picked
  | 0, _ => none
  | n + 1, s => match coin777Bestfit chain s.unspents s.remainder with
    | none => inputsLoop total n s
    | some k =>
      let vin := s.unspents.getD k Unspent.zero
      let s : Picked := {
        unspents := s.unspents.set k Unspent.zero
        sum := s.sum + vin.value
        remainder := s.remainder - vin.value
        inputs := s.inputs ++ [cointxInput chain vin]
        places := s.places ++ [k] }
      if s.sum ≥ total then some s else inputsLoop total n s

def coin777Inputs (unspents : List Unspent) (max : Nat) (amount txfee : UInt64) : Option Picked :=
  inputsLoop chain (amount + txfee) (min unspents.length (max - 1)) ⟨unspents, 0, amount + txfee, [], []⟩

/-- `coin->minoutput`, which is set to 1 when it is 0. -/
def Gateway.leastOutput (mgw : Gateway) : UInt64 := if mgw.minoutput = 0 then 1 else mgw.minoutput

def Gateway.opreturnAmount (mgw : Gateway) : UInt64 := if mgw.doOpreturn then 0 else mgw.leastOutput

def Gateway.fee (mgw : Gateway) : UInt64 := 2 * (mgw.txfee + mgw.NXTfee_equiv) - mgw.opreturnAmount - mgw.txfee

def payOutputs (mgw : Gateway) (destaddr : List Char) (value : UInt64) : List Output :=
  (if destaddr = mgw.marker then [⟨mgw.marker, [], value - mgw.opreturnAmount - mgw.txfee⟩]
    else [⟨mgw.marker, [], mgw.fee⟩, ⟨destaddr, [], value - mgw.fee - mgw.opreturnAmount - mgw.txfee⟩]) ++
  if mgw.opreturnAmount ≠ 0 then [⟨mgw.opreturnmarker, [], mgw.opreturnAmount⟩] else []

def changeaddr (destaddr smallest smallestB : List Char) : List Char :=
  if smallest ≠ destaddr then smallest else smallestB

/-- The change goes into the first output when that has its address, and else into an output of its own. -/
def addChange (mgw : Gateway) (addr : List Char) (change : UInt64) (outputs : List Output) : List Output :=
  if change = 0 then outputs
  else if mgw.marker ≠ addr then outputs ++ [⟨addr, [], change⟩]
  else outputs.modifyHead fun o => { o with value := o.value + change }

/-- The inputs, their sum and the change; all are zero when `coin777_inputs` finds too little. -/
def selected (mgw : Gateway) (unspents : List Unspent) (amount : UInt64) : List Input × UInt64 × UInt64 :=
  match coin777Inputs chain unspents maxCointxInputs amount mgw.txfee with
  | none => ([], 0, 0)
  | some s => (s.inputs, s.sum, s.sum - amount - mgw.txfee)

/-- `mgw_cointx_withdraw` as far as the call of `mgw_createrawtransaction`: the transaction and the number of
its marker output. -/
def mgwCointxWithdraw (mgw : Gateway) (unspents : List Unspent) (destaddr : List Char) (value : UInt64)
    (smallest smallestB : List Char) : Option (CointxInfo × Nat) :=
  if value ≤ mgw.fee + mgw.opreturnAmount + mgw.txfee then none
  else
    let outputs := payOutputs mgw destaddr value
    let amount := value - mgw.txfee
    if mgw.balance < 0 then none
    else
      let (inputs, sum, change) := selected chain mgw unspents amount
      if sum < amount then none
      else if change ≠ 0 ∧ changeaddr destaddr smallest smallestB = [] then none
      else if mgw.gatewayid < 0 then none
      else
        let changed := addChange mgw (changeaddr destaddr smallest smallestB) change outputs
        if mgw.opreturnAmount = 0 then
          some (⟨inputs, changed ++ [⟨mgw.opreturnmarker, [], mgw.leastOutput⟩], sum, amount, change⟩, changed.length)
        else some (⟨inputs, changed, sum, amount, change⟩, outputs.length - 1)

def mgwOpReturn (mgw : Gateway) (outputs : List Output) (opreturn : Nat) (redeemtxid : UInt64) : List Output :=
  outputs.modify opreturn fun vout =>
    let vout := if mgw.doOpreturn then { vout with value := 0, coinaddr := [] } else vout
    { vout with script := calcOpreturnScript redeemtxid mgw.doOpreturn }

/-- What the outputs pay to an address. An output with a script of its own pays no address. -/
def paid (addr : List Char) (outputs : List Output) : Nat :=
  ((outputs.filter fun o => o.script = [] ∧ o.coinaddr = addr).map fun o => o.value.toNat).sum

def outputTotal (outputs : List Output) : Nat := (outputs.map fun o => o.value.toNat).sum

def inputTotal (inputs : List Input) : Nat := (inputs.map fun i => i.value.toNat).sum

def poolTotal (unspents : List Unspent) : Nat := (unspents.map fun u => u.value.toNat).sum

variable {chain} {value : UInt64}

/-- What the loop of `coin777_bestfit` has found among the unspents behind it. -/
structure FitOf (chain : Ramchain) (value : UInt64) (done : List Unspent) (f : Fit) : Prop where
  aboveNone : f.abovevin = none → f.above = 0 ∧ ∀ w ∈ done, skipped chain w = false → w.value < value
  aboveSome : ∀ i, f.abovevin = some i → ∃ u, done[i]? = some u ∧ skipped chain u = false ∧ value < u.value
  belowNone : f.belowvin = none → f.below = 0 ∧ ∀ w ∈ done, skipped chain w = false → ¬ w.value < value
  belowSome : ∀ i, f.belowvin = some i → ∃ u, done[i]? = some u ∧ skipped chain u = false ∧ u.value < value ∧
    f.below = value - u.value ∧ ∀ w ∈ done, skipped chain w = false → w.value < value → w.value ≤ u.value

/-- An unspent that fits: it is not passed over, and when its value is less than the one looked for no other
unspent has more. -/
def Fits (chain : Ramchain) (value : UInt64) (unspents : List Unspent) (k : Nat) : Prop :=
  ∃ u, unspents[k]? = some u ∧ skipped chain u = false ∧
    (u.value < value → ∀ w ∈ unspents, skipped chain w = false → w.value ≤ u.value)

/-- What an unspent other than an exact fit makes of the variables. -/
def Fit.visit (chain : Ramchain) (value : UInt64) (f : Fit) (i : Nat) (vin : Unspent) : Fit :=
  if skipped chain vin then f
  else if vin.value > value then
    if f.above = 0 ∨ vin.value - value < f.above then { f with above := vin.value - value, abovevin := some i } else f
  else
    if f.below = 0 ∨ value - vin.value < f.below then { f with below := value - vin.value, belowvin := some i } else f

/-- The loop ends at an exact fit, or with what visiting all the unspents has made of the variables. -/
theorem bestfitLoop_run {motive : List Unspent → Fit → Prop}
    (hvisit : ∀ done f vin, (skipped chain vin = false → vin.value ≠ value) → motive done f →
      motive (done ++ [vin]) (f.visit chain value done.length vin))
    (rest : List Unspent) {done : List Unspent} {f : Fit} (h : motive done f) :
    (∃ front vin back, done ++ rest = front ++ vin :: back ∧ skipped chain vin = false ∧ vin.value = value ∧
      bestfitLoop chain value rest done.length f = some front.length) ∨
    ∃ f', motive (done ++ rest) f' ∧ bestfitLoop chain value rest done.length f = f'.abovevin.or f'.belowvin := by
  induction rest generalizing done f with
  | nil =>
    rw [List.append_nil]
    exact Or.inr ⟨f, h, rfl⟩
  | cons vin rest ih =>
    have hnext : done.length + 1 = (done ++ [vin]).length := by rw [List.length_append, List.length_singleton]
    have hsplit : done ++ vin :: rest = (done ++ [vin]) ++ rest := by rw [List.append_assoc, List.singleton_append]
    by_cases hexact : skipped chain vin = false ∧ vin.value = value
    · refine Or.inl ⟨done, vin, rest, rfl, hexact.1, hexact.2, ?_⟩
      rw [bestfitLoop, hexact.1, if_neg Bool.false_ne_true, if_pos hexact.2]
    · have hstep : bestfitLoop chain value (vin :: rest) done.length f =
          bestfitLoop chain value rest (done ++ [vin]).length (f.visit chain value done.length vin) := by
        rw [bestfitLoop, Fit.visit, hnext]
        by_cases hskip : skipped chain vin = true
        · rw [if_pos hskip, if_pos hskip]
        · rw [if_neg hskip, if_neg hskip, if_neg fun heq => hexact ⟨Bool.eq_false_iff.mpr hskip, heq⟩]
          dsimp only
          split <;> split <;> rfl
      rw [hstep, hsplit]
      exact ih (hvisit done f vin (fun hskip heq => hexact ⟨hskip, heq⟩) h)

private theorem FitOf.start : FitOf chain value [] ⟨0, none, 0, none⟩ := by
  refine ⟨fun _ => ⟨rfl, ?_⟩, ?_, fun _ => ⟨rfl, ?_⟩, ?_⟩
  · intro w hw
    cases hw
  · intro i hi
    cases hi
  · intro w hw
    cases hw
  · intro i hi
    cases hi

theorem getElem?_behind {done : List Unspent} {i : Nat} {u vin : Unspent} (h : done[i]? = some u) :
    (done ++ [vin])[i]? = some u := by
  rw [List.getElem?_append_left (List.getElem?_eq_some_iff.mp h).1]
  exact h

theorem forall_behind {P : Unspent → Prop} {done : List Unspent} {vin : Unspent}
    (h : ∀ w ∈ done, P w) (hvin : P vin) : ∀ w ∈ done ++ [vin], P w := by
  intro w hw
  rcases List.mem_append.mp hw with hw | hw
  · exact h w hw
  · rw [List.mem_singleton.mp hw]
    exact hvin

private theorem FitOf.keep {done : List Unspent} {f : Fit} {vin : Unspent} (h : FitOf chain value done f)
    (habove : f.abovevin = none → skipped chain vin = false → vin.value < value)
    (hbelow : f.belowvin = none → skipped chain vin = false → ¬ vin.value < value)
    (hgap : f.below ≠ 0 → skipped chain vin = false → vin.value < value → f.below ≤ value - vin.value) :
    FitOf chain value (done ++ [vin]) f := by
  refine ⟨?_, ?_, ?_, ?_⟩
  · intro hnone
    exact ⟨(h.aboveNone hnone).1, forall_behind (h.aboveNone hnone).2 (habove hnone)⟩
  · intro i hi
    obtain ⟨u, hu, hrest⟩ := h.aboveSome i hi
    exact ⟨u, getElem?_behind hu, hrest⟩
  · intro hnone
    exact ⟨(h.belowNone hnone).1, forall_behind (h.belowNone hnone).2 (hbelow hnone)⟩
  · intro i hi
    obtain ⟨u, hu, hskip, hlt, hval, hmax⟩ := h.belowSome i hi
    refine ⟨u, getElem?_behind hu, hskip, hlt, hval, forall_behind hmax ?_⟩
    intro hvin hless
    have hle := hgap (by rw [hval]; grind) hvin hless
    rw [hval] at hle
    grind

private theorem FitOf.setAbove {done : List Unspent} {f : Fit} {vin : Unspent} (h : FitOf chain value done f)
    (hvin : skipped chain vin = false) (hgt : value < vin.value) :
    FitOf chain value (done ++ [vin]) { f with above := vin.value - value, abovevin := some done.length } := by
  refine ⟨?_, ?_, ?_, ?_⟩
  · intro hnone
    cases hnone
  · intro i hi
    cases hi
    exact ⟨vin, by rw [List.getElem?_append_right (Nat.le_refl _), Nat.sub_self]; rfl, hvin, hgt⟩
  · intro hnone
    exact ⟨(h.belowNone hnone).1, forall_behind (h.belowNone hnone).2 fun _ => by grind⟩
  · intro i hi
    obtain ⟨u, hu, hskip, hlt, hval, hmax⟩ := h.belowSome i hi
    exact ⟨u, getElem?_behind hu, hskip, hlt, hval, forall_behind hmax fun _ _ => by grind⟩

private theorem FitOf.setBelow {done : List Unspent} {f : Fit} {vin : Unspent} (h : FitOf chain value done f)
    (hvin : skipped chain vin = false) (hlt : vin.value < value)
    (hgap : f.below = 0 ∨ value - vin.value < f.below) :
    FitOf chain value (done ++ [vin]) { f with below := value - vin.value, belowvin := some done.length } := by
  refine ⟨?_, ?_, ?_, ?_⟩
  · intro hnone
    exact ⟨(h.aboveNone hnone).1, forall_behind (h.aboveNone hnone).2 fun _ => hlt⟩
  · intro i hi
    obtain ⟨u, hu, hrest⟩ := h.aboveSome i hi
    exact ⟨u, getElem?_behind hu, hrest⟩
  · intro hnone
    cases hnone
  · intro i hi
    cases hi
    refine ⟨vin, by rw [List.getElem?_append_right (Nat.le_refl _), Nat.sub_self]; rfl, hvin, hlt, rfl, ?_⟩
    refine forall_behind ?_ fun _ _ => Std.le_refl _
    intro w hw hskip hless
    cases hb : f.belowvin with
    | none => exact absurd hless ((h.belowNone hb).2 w hw hskip)
    | some i =>
      obtain ⟨u, -, -, hult, hval, hmax⟩ := h.belowSome i hb
      have hle := hmax w hw hskip hless
      rw [hval] at hgap
      grind

private theorem FitOf.fits {unspents : List Unspent} {f : Fit} {k : Nat} (h : FitOf chain value unspents f)
    (hk : f.abovevin.or f.belowvin = some k) : Fits chain value unspents k := by
  cases ha : f.abovevin with
  | some i =>
    rw [ha, Option.some_or] at hk
    obtain ⟨u, hu, hskip, hgt⟩ := h.aboveSome k (ha.trans hk)
    exact ⟨u, hu, hskip, fun hlt => absurd hlt (by grind)⟩
  | none =>
    rw [ha, Option.none_or] at hk
    obtain ⟨u, hu, hskip, -, -, hmax⟩ := h.belowSome k hk
    exact ⟨u, hu, hskip, fun _ w hw hw' => hmax w hw hw' ((h.aboveNone ha).2 w hw hw')⟩

private theorem FitOf.visit {done : List Unspent} {f : Fit} {vin : Unspent}
    (hne : skipped chain vin = false → vin.value ≠ value) (h : FitOf chain value done f) :
    FitOf chain value (done ++ [vin]) (f.visit chain value done.length vin) := by
  rw [Fit.visit]
  by_cases hskip : skipped chain vin = true
  · rw [if_pos hskip]
    refine h.keep ?_ ?_ ?_
    · exact fun _ hvin => absurd hskip (by rw [hvin]; exact Bool.false_ne_true)
    · exact fun _ hvin => absurd hskip (by rw [hvin]; exact Bool.false_ne_true)
    · exact fun _ hvin => absurd hskip (by rw [hvin]; exact Bool.false_ne_true)
  · rw [if_neg hskip]
    have hvin : skipped chain vin = false := Bool.eq_false_iff.mpr hskip
    split
    case isTrue hgt =>
      split
      case isTrue => exact h.setAbove hvin hgt
      case isFalse hgap =>
        refine h.keep ?_ ?_ ?_
        · exact fun hnone => absurd (Or.inl (h.aboveNone hnone).1) hgap
        · exact fun _ _ => by grind
        · exact fun _ _ hlt => absurd hlt (by grind)
    case isFalse hngt =>
      have hlt : vin.value < value := by
        have := hne hvin
        grind
      split
      case isTrue hgap => exact h.setBelow hvin hlt hgap
      case isFalse hgap =>
        refine h.keep ?_ ?_ ?_
        · exact fun _ _ => hlt
        · exact fun hnone => absurd (Or.inl (h.belowNone hnone).1) hgap
        · exact fun _ _ _ => by grind

theorem coin777Bestfit_fits {unspents : List Unspent} {k : Nat} (h : coin777Bestfit chain unspents value = some k) :
    Fits chain value unspents k := by
  rcases bestfitLoop_run (fun _ _ _ hne hfit => FitOf.visit hne hfit) unspents FitOf.start with
    ⟨front, vin, back, hat, hskip, heq, hk⟩ | ⟨f, hfit, hk⟩
  · obtain rfl := Option.some.inj (h.symm.trans hk)
    refine ⟨vin, ?_, hskip, fun hlt => absurd hlt (by grind)⟩
    rw [← List.nil_append unspents, hat, List.getElem?_append_right (Nat.le_refl _), Nat.sub_self]
    rfl
  · exact hfit.fits (hk.symm.trans h)

variable {pool : List Unspent} {total : UInt64}

/-- The state of `coin777_inputs` after the inputs of distinct unspents of the pool. -/
structure Taking (chain : Ramchain) (pool : List Unspent) (total : UInt64) (s : Picked) : Prop where
  nodup : s.places.Nodup
  range : ∀ k ∈ s.places, k < pool.length
  inputs : s.inputs = s.places.map fun k => cointxInput chain (pool.getD k Unspent.zero)
  taken : ∀ k ∈ s.places, s.unspents[k]? = some Unspent.zero
  left : ∀ k, k ∉ s.places → s.unspents[k]? = pool[k]?
  split : inputTotal s.inputs + poolTotal s.unspents = poolTotal pool
  sum : s.sum.toNat = inputTotal s.inputs
  remainder : s.remainder = total - s.sum

def Picked.take (chain : Ramchain) (s : Picked) (k : Nat) (vin : Unspent) : Picked where
  unspents := s.unspents.set k Unspent.zero
  sum := s.sum + vin.value
  remainder := s.remainder - vin.value
  inputs := s.inputs ++ [cointxInput chain vin]
  places := s.places ++ [k]

private theorem inputsLoop_take {s : Picked} {n k : Nat} {vin : Unspent}
    (hk : coin777Bestfit chain s.unspents s.remainder = some k) (hvin : s.unspents[k]? = some vin) :
    inputsLoop chain total (n + 1) s =
      if (s.take chain k vin).sum ≥ total then some (s.take chain k vin)
      else inputsLoop chain total n (s.take chain k vin) := by
  have hget : s.unspents.getD k Unspent.zero = vin := by rw [List.getD_eq_getElem?_getD, hvin, Option.getD_some]
  rw [inputsLoop, hk]
  dsimp only
  rw [hget]
  rfl

theorem inputTotal_append (inputs : List Input) (i : Input) :
    inputTotal (inputs ++ [i]) = inputTotal inputs + i.value.toNat := by
  rw [inputTotal, List.map_append, List.sum_append, List.map_singleton, List.sum_singleton, inputTotal]

private theorem poolTotal_set {unspents : List Unspent} {k : Nat} {vin : Unspent} (h : unspents[k]? = some vin) :
    poolTotal (unspents.set k Unspent.zero) + vin.value.toNat = poolTotal unspents := by
  induction unspents generalizing k with
  | nil => cases h
  | cons u unspents ih =>
    cases k with
    | zero =>
      cases h
      rw [List.set_cons_zero, poolTotal, poolTotal, List.map_cons, List.sum_cons, List.map_cons, List.sum_cons]
      exact Nat.add_comm _ _ |>.trans (congrArg _ (Nat.zero_add _))
    | succ k =>
      have hrest := ih (k := k) h
      rw [List.set_cons_succ, poolTotal, poolTotal, List.map_cons, List.sum_cons, List.map_cons, List.sum_cons]
      rw [poolTotal, poolTotal] at hrest
      omega

private theorem Taking.take {s : Picked} {k : Nat} {vin : Unspent} (h : Taking chain pool total s)
    (hpool : poolTotal pool < 2^64) (hvin : s.unspents[k]? = some vin) (hpos : vin.value ≠ 0) :
    Taking chain pool total (s.take chain k vin) := by
  have hfresh : k ∉ s.places := by
    intro hk
    rw [h.taken k hk] at hvin
    cases hvin
    exact hpos rfl
  have hrange : k < s.unspents.length := (List.getElem?_eq_some_iff.mp hvin).1
  have hpooled : pool.getD k Unspent.zero = vin := by
    rw [List.getD_eq_getElem?_getD, ← h.left k hfresh, hvin, Option.getD_some]
  have hset := poolTotal_set hvin
  have hsplit := h.split
  have hinputs : inputTotal (s.take chain k vin).inputs = inputTotal s.inputs + vin.value.toNat :=
    inputTotal_append _ _
  refine ⟨?_, ?_, ?_, ?_, ?_, ?_, ?_, ?_⟩
  · refine List.nodup_append.mpr ⟨h.nodup, List.nodup_singleton k, ?_⟩
    rintro a ha b hb rfl
    exact hfresh (List.mem_singleton.mp hb ▸ ha)
  · intro j hj
    rcases List.mem_append.mp hj with hj | hj
    · exact h.range j hj
    · rw [List.mem_singleton.mp hj]
      exact (List.getElem?_eq_some_iff.mp ((h.left k hfresh).symm.trans hvin)).1
  · rw [Picked.take, List.map_append, List.map_singleton, ← h.inputs, hpooled]
  · intro j hj
    by_cases hne : k = j
    · rw [Picked.take, ← hne, List.getElem?_set_self hrange]
    · rw [Picked.take, List.getElem?_set_ne hne]
      rcases List.mem_append.mp hj with hj | hj
      · exact h.taken j hj
      · exact absurd (List.mem_singleton.mp hj).symm hne
  · intro j hj
    have hne : k ≠ j := fun hkj => hj (List.mem_append_right _ (List.mem_singleton.mpr hkj.symm))
    rw [Picked.take, List.getElem?_set_ne hne]
    exact h.left j fun hmem => hj (List.mem_append_left _ hmem)
  · have hunspents : (s.take chain k vin).unspents = s.unspents.set k Unspent.zero := rfl
    rw [hinputs, hunspents]
    omega
  · have hsum := h.sum
    have hadd : (s.take chain k vin).sum = s.sum + vin.value := rfl
    rw [hinputs, hadd, UInt64.toNat_add]
    omega
  · have hremainder := h.remainder
    dsimp only [Picked.take]
    grind

/-- When no unspent is left that has a value, the sum stays where it is. -/
theorem inputsLoop_worthless {n : Nat} {s : Picked}
    (h : ∀ w ∈ s.unspents, skipped chain w = false → w.value = 0) (hsum : s.sum < total) :
    inputsLoop chain total n s = none := by
  induction n generalizing s with
  | zero => rfl
  | succ n ih =>
    cases hk : coin777Bestfit chain s.unspents s.remainder with
    | none =>
      rw [inputsLoop, hk]
      exact ih h hsum
    | some k =>
      obtain ⟨u, hu, hskip, -⟩ := coin777Bestfit_fits hk
      have hzero : u.value = 0 := h u (List.mem_of_getElem? hu) hskip
      have hstill : (s.take chain k u).sum = s.sum := by rw [Picked.take, hzero, UInt64.add_zero]
      rw [inputsLoop_take hk hu, if_neg (by rw [hstill]; exact UInt64.not_le.mpr hsum)]
      refine ih ?_ (hstill.symm ▸ hsum)
      intro w hw hw'
      rcases List.mem_or_eq_of_mem_set hw with hw | rfl
      · exact h w hw hw'
      · rfl

private theorem inputsLoop_taking {n : Nat} {s s' : Picked} (h : Taking chain pool total s)
    (hpool : poolTotal pool < 2^64) (hsum : s.sum < total) (hs' : inputsLoop chain total n s = some s') :
    Taking chain pool total s' ∧ total ≤ s'.sum := by
  induction n generalizing s with
  | zero => cases hs'
  | succ n ih =>
    cases hk : coin777Bestfit chain s.unspents s.remainder with
    | none =>
      rw [inputsLoop, hk] at hs'
      exact ih h hsum hs'
    | some k =>
      obtain ⟨u, hu, hskip, hmax⟩ := coin777Bestfit_fits hk
      by_cases hzero : u.value = 0
      · have hless : u.value < s.remainder := by
          rw [hzero, h.remainder]
          grind
        have hworthless : ∀ w ∈ s.unspents, skipped chain w = false → w.value = 0 := by
          intro w hw hw'
          have hle := hmax hless w hw hw'
          rw [hzero] at hle
          grind
        rw [inputsLoop_worthless hworthless hsum] at hs'
        cases hs'
      · have htake := h.take hpool hu hzero
        rw [inputsLoop_take hk hu] at hs'
        split at hs'
        case isTrue hge =>
          cases hs'
          exact ⟨htake, hge⟩
        case isFalse hlt => exact ih htake (UInt64.not_le.mp hlt) hs'

theorem coin777Inputs_taking {max : Nat} {amount txfee : UInt64} {s : Picked} (hpool : poolTotal pool < 2^64)
    (hpos : 0 < amount + txfee) (hs : coin777Inputs chain pool max amount txfee = some s) :
    Taking chain pool (amount + txfee) s ∧ amount + txfee ≤ s.sum := by
  refine inputsLoop_taking ⟨List.nodup_nil, ?_, rfl, ?_, ?_, ?_, rfl, ?_⟩ hpool hpos hs
  · intro k hk
    cases hk
  · intro k hk
    cases hk
  · exact fun _ _ => rfl
  · exact Nat.zero_add _
  · exact (UInt64.sub_zero _).symm

variable {mgw : Gateway} {destaddr addr : List Char} {change : UInt64}

def baseOutputs (mgw : Gateway) (destaddr : List Char) (value : UInt64) : List Output :=
  if destaddr = mgw.marker then [⟨mgw.marker, [], value - mgw.opreturnAmount - mgw.txfee⟩]
  else [⟨mgw.marker, [], mgw.fee⟩, ⟨destaddr, [], value - mgw.fee - mgw.opreturnAmount - mgw.txfee⟩]

private theorem outputTotal_nil : outputTotal [] = 0 := rfl

private theorem paid_nil : paid addr [] = 0 := rfl

private theorem outputTotal_append (a b : List Output) : outputTotal (a ++ b) = outputTotal a + outputTotal b := by
  rw [outputTotal, List.map_append, List.sum_append, outputTotal, outputTotal]

private theorem outputTotal_cons (o : Output) (b : List Output) :
    outputTotal (o :: b) = o.value.toNat + outputTotal b := by
  rw [outputTotal, List.map_cons, List.sum_cons, outputTotal]

private theorem paid_append (a b : List Output) : paid addr (a ++ b) = paid addr a + paid addr b := by
  rw [paid, List.filter_append, List.map_append, List.sum_append, paid, paid]

private theorem paid_cons (o : Output) (b : List Output) :
    paid addr (o :: b) = (if o.script = [] ∧ o.coinaddr = addr then o.value.toNat else 0) + paid addr b := by
  rw [paid, paid, List.filter_cons]
  split
  case isTrue h => rw [if_pos (of_decide_eq_true h), List.map_cons, List.sum_cons]
  case isFalse h => rw [if_neg fun hc => h (decide_eq_true hc), Nat.zero_add]

private theorem value_le_outputTotal {outputs : List Output} {o : Output} (h : o ∈ outputs) :
    o.value.toNat ≤ outputTotal outputs := by
  induction outputs with
  | nil => cases h
  | cons p outputs ih =>
    rw [outputTotal_cons]
    rcases List.mem_cons.mp h with rfl | h
    · exact Nat.le_add_right _ _
    · exact Nat.le_trans (ih h) (Nat.le_add_left _ _)

private theorem baseOutputs_cons (mgw : Gateway) (destaddr : List Char) (value : UInt64) :
    ∃ v rest, baseOutputs mgw destaddr value = ⟨mgw.marker, [], v⟩ :: rest := by
  rw [baseOutputs]
  split
  · exact ⟨_, _, rfl⟩
  · exact ⟨_, _, rfl⟩

private theorem addChange_split (mgw : Gateway) (addr : List Char) (change v : UInt64) (rest extra : List Output)
    (hfit : v.toNat + change.toNat < 2^64) :
    ∃ a b, addChange mgw addr change ((⟨mgw.marker, [], v⟩ :: rest) ++ extra) = a ++ extra ++ b ∧
      a.length = rest.length + 1 ∧
      outputTotal a + outputTotal b = v.toNat + outputTotal rest + change.toNat ∧
      ∀ dest, dest ≠ mgw.marker → (change ≠ 0 → dest ≠ addr) → paid dest a + paid dest b = paid dest rest := by
  have hmarker : ∀ dest w, dest ≠ mgw.marker → paid dest (⟨mgw.marker, [], w⟩ :: rest) = paid dest rest := by
    intro dest w hdest
    rw [paid_cons, if_neg fun h => hdest h.2.symm, Nat.zero_add]
  rw [addChange]
  split
  case isTrue hzero =>
    refine ⟨_, [], (List.append_nil _).symm, rfl, ?_, fun dest hdest _ => ?_⟩
    · rw [outputTotal_cons, hzero]
      rfl
    · rw [hmarker dest v hdest]
      rfl
  case isFalse hchange =>
    split
    case isTrue hne =>
      refine ⟨_, [⟨addr, [], change⟩], rfl, rfl, ?_, fun dest hdest hpay => ?_⟩
      · rw [outputTotal_cons, outputTotal_cons]
        rfl
      · rw [hmarker dest v hdest, paid_cons, if_neg fun h => hpay hchange h.2.symm]
        rfl
    case isFalse heq =>
      refine ⟨⟨mgw.marker, [], v + change⟩ :: rest, [], (List.append_nil _).symm, rfl, ?_, fun dest hdest _ => ?_⟩
      · have hadd : (v + change).toNat = v.toNat + change.toNat := by
          rw [UInt64.toNat_add, Nat.mod_eq_of_lt hfit]
        rw [outputTotal_cons, hadd, Nat.add_right_comm v.toNat]
        rfl
      · rw [hmarker dest _ hdest]
        rfl

private theorem calcOpreturnScript_ne_nil (redeemtxid : UInt64) (doOpreturn : Bool) :
    calcOpreturnScript redeemtxid doOpreturn ≠ [] := by
  intro h
  have hlen := congrArg List.length h
  cases doOpreturn with
  | true => simp [calcOpreturnScript, mgwEncodeOpReturn, opReturnScript, Utils.Hex.initHexbytesNoT_length] at hlen
  | false => simp [calcOpreturnScript] at hlen

private theorem mgwOpReturn_split (mgw : Gateway) (a b : List Output) (o : Output) (redeemtxid : UInt64) :
    ∃ o', mgwOpReturn mgw (a ++ o :: b) a.length redeemtxid = a ++ o' :: b ∧
      o'.value = (if mgw.doOpreturn then 0 else o.value) ∧ o'.script ≠ [] := by
  rw [mgwOpReturn]
  generalize hf : (fun vout : Output => Output.mk _ _ _) = f
  refine ⟨f o, ?_, ?_, ?_⟩
  · induction a with
    | nil => rfl
    | cons p a ih => rw [List.cons_append, List.length_cons, List.modify_succ_cons, ih, List.cons_append]
  · rw [← hf]
    dsimp only
    split <;> rfl
  · rw [← hf]
    exact calcOpreturnScript_ne_nil redeemtxid mgw.doOpreturn

private theorem fee_toNat (hop : mgw.opreturnAmount.toNat ≤ mgw.txfee.toNat + 2 * mgw.NXTfee_equiv.toNat)
    (hfee : 2 * (mgw.txfee.toNat + mgw.NXTfee_equiv.toNat) < 2^64) :
    mgw.fee.toNat + mgw.opreturnAmount.toNat + mgw.txfee.toNat = 2 * (mgw.txfee.toNat + mgw.NXTfee_equiv.toNat) := by
  have htwice : (2 * (mgw.txfee + mgw.NXTfee_equiv)).toNat = 2 * (mgw.txfee.toNat + mgw.NXTfee_equiv.toNat) := by
    have hsum : (mgw.txfee + mgw.NXTfee_equiv).toNat = mgw.txfee.toNat + mgw.NXTfee_equiv.toNat := by
      rw [UInt64.toNat_add]
      exact Nat.mod_eq_of_lt (by omega)
    rw [UInt64.toNat_mul, hsum]
    exact Nat.mod_eq_of_lt hfee
  have hfirst : (2 * (mgw.txfee + mgw.NXTfee_equiv) - mgw.opreturnAmount).toNat =
      2 * (mgw.txfee.toNat + mgw.NXTfee_equiv.toNat) - mgw.opreturnAmount.toNat := by
    rw [UInt64.toNat_sub_of_le _ _ (UInt64.le_iff_toNat_le.mpr (by omega)), htwice]
  rw [Gateway.fee, UInt64.toNat_sub_of_le _ _ (UInt64.le_iff_toNat_le.mpr (by omega)), hfirst]
  omega

private theorem baseOutputs_total (destaddr : List Char) (hop : mgw.opreturnAmount.toNat ≤ mgw.txfee.toNat + 2 * mgw.NXTfee_equiv.toNat)
    (hfee : 2 * (mgw.txfee.toNat + mgw.NXTfee_equiv.toNat) < 2^64)
    (hvalue : 2 * (mgw.txfee.toNat + mgw.NXTfee_equiv.toNat) < value.toNat) :
    outputTotal (baseOutputs mgw destaddr value) + mgw.opreturnAmount.toNat + mgw.txfee.toNat = value.toNat ∧
      (destaddr ≠ mgw.marker → paid destaddr (baseOutputs mgw destaddr value) +
        2 * (mgw.txfee.toNat + mgw.NXTfee_equiv.toNat) = value.toNat) := by
  have hsum := fee_toNat hop hfee
  rw [baseOutputs]
  split
  case isTrue hdest =>
    have hop : (value - mgw.opreturnAmount).toNat = value.toNat - mgw.opreturnAmount.toNat :=
      UInt64.toNat_sub_of_le _ _ (UInt64.le_iff_toNat_le.mpr (by omega))
    have hrest : (value - mgw.opreturnAmount - mgw.txfee).toNat =
        value.toNat - mgw.opreturnAmount.toNat - mgw.txfee.toNat := by
      rw [UInt64.toNat_sub_of_le _ _ (UInt64.le_iff_toNat_le.mpr (by omega)), hop]
    refine ⟨?_, fun hne => absurd hdest hne⟩
    rw [outputTotal_cons, hrest, outputTotal_nil]
    omega
  case isFalse hdest =>
    have hfee : (value - mgw.fee).toNat = value.toNat - mgw.fee.toNat :=
      UInt64.toNat_sub_of_le _ _ (UInt64.le_iff_toNat_le.mpr (by omega))
    have hop : (value - mgw.fee - mgw.opreturnAmount).toNat =
        value.toNat - mgw.fee.toNat - mgw.opreturnAmount.toNat := by
      rw [UInt64.toNat_sub_of_le _ _ (UInt64.le_iff_toNat_le.mpr (by omega)), hfee]
    have hrest : (value - mgw.fee - mgw.opreturnAmount - mgw.txfee).toNat =
        value.toNat - mgw.fee.toNat - mgw.opreturnAmount.toNat - mgw.txfee.toNat := by
      rw [UInt64.toNat_sub_of_le _ _ (UInt64.le_iff_toNat_le.mpr (by omega)), hop]
    refine ⟨?_, fun _ => ?_⟩
    · rw [outputTotal_cons, outputTotal_cons, hrest, outputTotal_nil]
      dsimp only
      omega
    · rw [paid_cons, paid_cons, if_neg fun h => hdest h.2.symm, if_pos ⟨rfl, rfl⟩, hrest, paid_nil]
      omega

private theorem leastOutput_ne_zero (mgw : Gateway) : mgw.leastOutput ≠ 0 := by
  rw [Gateway.leastOutput]
  split
  case isTrue => decide
  case isFalse h => exact h

private theorem opreturnAmount_eq_zero (mgw : Gateway) : mgw.opreturnAmount = 0 ↔ mgw.doOpreturn = true := by
  rw [Gateway.opreturnAmount]
  split
  case isTrue h => exact ⟨fun _ => h, fun _ => rfl⟩
  case isFalse h => exact ⟨fun hzero => absurd hzero (leastOutput_ne_zero mgw), fun hdo => absurd hdo h⟩

private theorem withdraw_split {value change : UInt64} (mgw : Gateway) (destaddr addr : List Char)
    (hop : mgw.opreturnAmount.toNat ≤ mgw.txfee.toNat + 2 * mgw.NXTfee_equiv.toNat)
    (hfee : 2 * (mgw.txfee.toNat + mgw.NXTfee_equiv.toNat) < 2^64)
    (hvalue : 2 * (mgw.txfee.toNat + mgw.NXTfee_equiv.toNat) < value.toNat)
    (hfit : value.toNat + change.toNat < 2^64) (extra : List Output) :
    ∃ a b, addChange mgw addr change (baseOutputs mgw destaddr value ++ extra) = a ++ extra ++ b ∧
      a.length = (baseOutputs mgw destaddr value).length ∧
      outputTotal a + outputTotal b + mgw.opreturnAmount.toNat + mgw.txfee.toNat = value.toNat + change.toNat ∧
      (destaddr ≠ mgw.marker → (change ≠ 0 → destaddr ≠ addr) →
        paid destaddr a + paid destaddr b + 2 * (mgw.txfee.toNat + mgw.NXTfee_equiv.toNat) = value.toNat) := by
  obtain ⟨htotal, hpaid⟩ := baseOutputs_total destaddr hop hfee hvalue
  obtain ⟨v, rest, hbase⟩ := baseOutputs_cons mgw destaddr value
  rw [hbase] at htotal hpaid ⊢
  rw [outputTotal_cons] at htotal
  dsimp only at htotal
  obtain ⟨a, b, hsplit, hlen, hsum, hpay⟩ := addChange_split mgw addr change v rest extra (by omega)
  refine ⟨a, b, hsplit, hlen, by omega, fun hdest haddr => ?_⟩
  rw [hpay destaddr hdest haddr]
  have hbased := hpaid hdest
  rw [paid_cons, if_neg fun h => hdest h.2.symm, Nat.zero_add] at hbased
  exact hbased

private theorem withdraw_outputs {value change : UInt64} (mgw : Gateway) (destaddr addr : List Char)
    (hop : mgw.opreturnAmount.toNat ≤ mgw.txfee.toNat + 2 * mgw.NXTfee_equiv.toNat)
    (hfee : 2 * (mgw.txfee.toNat + mgw.NXTfee_equiv.toNat) < 2^64)
    (hvalue : 2 * (mgw.txfee.toNat + mgw.NXTfee_equiv.toNat) < value.toNat)
    (hfit : value.toNat + change.toNat < 2^64) (redeemtxid : UInt64) :
    let changed := addChange mgw addr change (payOutputs mgw destaddr value)
    let outputs := if mgw.opreturnAmount = 0 then
        mgwOpReturn mgw (changed ++ [⟨mgw.opreturnmarker, [], mgw.leastOutput⟩]) changed.length redeemtxid
      else mgwOpReturn mgw changed ((payOutputs mgw destaddr value).length - 1) redeemtxid
    outputTotal outputs + mgw.txfee.toNat = value.toNat + change.toNat ∧
      (destaddr ≠ mgw.marker → (change ≠ 0 → destaddr ≠ addr) →
        paid destaddr outputs + 2 * (mgw.txfee.toNat + mgw.NXTfee_equiv.toNat) = value.toNat) := by
  intro changed outputs
  have hpay : payOutputs mgw destaddr value = baseOutputs mgw destaddr value ++
      if mgw.opreturnAmount ≠ 0 then [⟨mgw.opreturnmarker, [], mgw.opreturnAmount⟩] else [] := rfl
  by_cases hzero : mgw.opreturnAmount = 0
  · obtain ⟨a, b, hsplit, -, hsum, hpaid⟩ := withdraw_split mgw destaddr addr hop hfee hvalue hfit []
    rw [if_neg (not_not.mpr hzero), List.append_nil] at hpay
    rw [List.append_nil, List.append_nil] at hsplit
    have hchanged : changed = a ++ b := by
      dsimp only [changed]
      rw [hpay, hsplit]
    obtain ⟨o', hreturn, hval, hscript⟩ :=
      mgwOpReturn_split mgw (a ++ b) [] ⟨mgw.opreturnmarker, [], mgw.leastOutput⟩ redeemtxid
    have houtputs : outputs = (a ++ b) ++ [o'] := by
      dsimp only [outputs]
      rw [if_pos hzero, hchanged, hreturn]
    have hnothing : o'.value.toNat = 0 := by
      rw [hval, if_pos ((opreturnAmount_eq_zero mgw).mp hzero)]
      rfl
    have hop0 : mgw.opreturnAmount.toNat = 0 := by rw [hzero]; rfl
    rw [houtputs, outputTotal_append, outputTotal_append, outputTotal_cons, outputTotal_nil, paid_append,
      paid_append, paid_cons, paid_nil, if_neg fun h => hscript h.1]
    refine ⟨by omega, fun hdest haddr => ?_⟩
    have := hpaid hdest haddr
    omega
  · obtain ⟨a, b, hsplit, hlen, hsum, hpaid⟩ := withdraw_split mgw destaddr addr hop hfee hvalue hfit
      [⟨mgw.opreturnmarker, [], mgw.opreturnAmount⟩]
    rw [if_pos hzero] at hpay
    have hchanged : changed = a ++ ⟨mgw.opreturnmarker, [], mgw.opreturnAmount⟩ :: b := by
      dsimp only [changed]
      rw [hpay, hsplit, List.append_assoc, List.singleton_append]
    have hplace : (payOutputs mgw destaddr value).length - 1 = a.length := by
      rw [hpay, List.length_append, List.length_singleton, hlen, Nat.add_sub_cancel]
    obtain ⟨o', hreturn, hval, hscript⟩ :=
      mgwOpReturn_split mgw a b ⟨mgw.opreturnmarker, [], mgw.opreturnAmount⟩ redeemtxid
    have houtputs : outputs = a ++ o' :: b := by
      dsimp only [outputs]
      rw [if_neg hzero, hplace, hchanged, hreturn]
    rw [if_neg fun h => hzero ((opreturnAmount_eq_zero mgw).mpr h)] at hval
    dsimp only at hval
    rw [houtputs, outputTotal_append, outputTotal_cons, hval, paid_append, paid_cons, if_neg fun h => hscript h.1]
    refine ⟨by omega, fun hdest haddr => ?_⟩
    have := hpaid hdest haddr
    omega

/-- What a withdraw that is created has passed: the value is above the fees, and the inputs are those that
`coin777_inputs` took. -/
private theorem withdraw_selected {unspents : List Unspent} {smallest smallestB : List Char} {tx : CointxInfo}
    {opreturn : Nat} (hop : mgw.opreturnAmount.toNat ≤ mgw.txfee.toNat + 2 * mgw.NXTfee_equiv.toNat)
    (hfee : 2 * (mgw.txfee.toNat + mgw.NXTfee_equiv.toNat) < 2^64) (hpool : poolTotal unspents < 2^64)
    (h : mgwCointxWithdraw chain mgw unspents destaddr value smallest smallestB = some (tx, opreturn)) :
    ∃ s change, Taking chain unspents value s ∧ tx.inputs = s.inputs ∧
      2 * (mgw.txfee.toNat + mgw.NXTfee_equiv.toNat) < value.toNat ∧
      value.toNat + change.toNat = s.sum.toNat ∧
      (change ≠ 0 → changeaddr destaddr smallest smallestB ≠ []) ∧
      ∀ redeemtxid, mgwOpReturn mgw tx.outputs opreturn redeemtxid =
        let changed := addChange mgw (changeaddr destaddr smallest smallestB) change (payOutputs mgw destaddr value)
        if mgw.opreturnAmount = 0 then
          mgwOpReturn mgw (changed ++ [⟨mgw.opreturnmarker, [], mgw.leastOutput⟩]) changed.length redeemtxid
        else mgwOpReturn mgw changed ((payOutputs mgw destaddr value).length - 1) redeemtxid := by
  have hsum := fee_toNat hop hfee
  rw [mgwCointxWithdraw] at h
  split at h
  case isTrue => cases h
  case isFalse hle =>
    have hvalue : 2 * (mgw.txfee.toNat + mgw.NXTfee_equiv.toNat) < value.toNat := by
      have hlt := UInt64.lt_iff_toNat_lt.mp (UInt64.not_le.mp hle)
      rw [UInt64.toNat_add, UInt64.toNat_add, Nat.mod_eq_of_lt (a := mgw.fee.toNat + _) (by omega)] at hlt
      omega
    have hamount : (value - mgw.txfee) + mgw.txfee = value := by grind
    have hpositive : 0 < value - mgw.txfee := by
      rw [UInt64.lt_iff_toNat_lt, UInt64.toNat_sub_of_le _ _ (UInt64.le_iff_toNat_le.mpr (by omega))]
      exact Nat.sub_pos_of_lt (by omega)
    dsimp only at h
    split at h
    case isTrue => cases h
    case isFalse =>
      cases hs : coin777Inputs chain unspents maxCointxInputs (value - mgw.txfee) mgw.txfee with
      | none =>
        rw [selected, hs] at h
        dsimp only at h
        rw [if_pos hpositive] at h
        cases h
      | some s =>
        have hnonneg : 0 < (value - mgw.txfee) + mgw.txfee := by
          rw [hamount, UInt64.lt_iff_toNat_lt]
          exact Nat.lt_of_le_of_lt (Nat.zero_le _) hvalue
        obtain ⟨htaking, hge⟩ := coin777Inputs_taking hpool hnonneg hs
        rw [hamount] at htaking hge
        have hchange : (s.sum - (value - mgw.txfee) - mgw.txfee) = s.sum - value := by grind
        have hselected : selected chain mgw unspents (value - mgw.txfee) = (s.inputs, s.sum, s.sum - value) := by
          rw [selected, hs]
          dsimp only
          rw [hchange]
        rw [hselected] at h
        dsimp only at h
        split at h
        case isTrue => cases h
        case isFalse =>
          split at h
          case isTrue => cases h
          case isFalse hnil =>
            split at h
            case isTrue => cases h
            case isFalse =>
              refine ⟨s, s.sum - value, htaking, ?_, hvalue, ?_, fun hc hn => hnil ⟨hc, hn⟩, fun redeemtxid => ?_⟩
              · split at h
                case isTrue => cases h; rfl
                case isFalse => cases h; rfl
              · rw [UInt64.toNat_sub_of_le _ _ hge]
                exact Nat.add_sub_cancel' (UInt64.le_iff_toNat_le.mp hge)
              · dsimp only
                split at h
                case isTrue hzero =>
                  cases h
                  rw [if_pos hzero]
                case isFalse hzero =>
                  cases h
                  rw [if_neg hzero]

/-- A withdraw whose fees do not wrap around and whose pool fits a word balances: with the miners' fee the
outputs make the sum of the inputs, the destination gets the value less the fees, and the inputs are
distinct unspents of the pool. -/
theorem mgwCointxWithdraw_balances (chain : Ramchain) (mgw : Gateway) (unspents : List Unspent)
    (destaddr : List Char) (value redeemtxid : UInt64) (smallest smallestB : List Char) (tx : CointxInfo)
    (opreturn : Nat) (hop : mgw.opreturnAmount.toNat ≤ mgw.txfee.toNat + 2 * mgw.NXTfee_equiv.toNat)
    (hfee : 2 * (mgw.txfee.toNat + mgw.NXTfee_equiv.toNat) < 2^64) (hpool : poolTotal unspents < 2^64)
    (hsmallest : smallest ≠ smallestB ∨ smallest = [])
    (h : mgwCointxWithdraw chain mgw unspents destaddr value smallest smallestB = some (tx, opreturn)) :
    let outputs := mgwOpReturn mgw tx.outputs opreturn redeemtxid
    outputTotal outputs + mgw.txfee.toNat = inputTotal tx.inputs ∧
      (∀ o ∈ outputs, o.value.toNat ≤ inputTotal tx.inputs) ∧
      (destaddr ≠ mgw.marker →
        paid destaddr outputs + 2 * (mgw.txfee.toNat + mgw.NXTfee_equiv.toNat) = value.toNat) ∧
      ∃ places : List Nat, places.Nodup ∧ (∀ k ∈ places, k < unspents.length) ∧
        tx.inputs = places.map fun k => cointxInput chain (unspents.getD k Unspent.zero) := by
  intro outputs
  obtain ⟨s, change, htaking, hinputs, hvalue, hsum, hnil, houtputs⟩ := withdraw_selected hop hfee hpool h
  have hfit : value.toNat + change.toNat < 2^64 := by
    rw [hsum]
    exact s.sum.toNat_lt
  obtain ⟨htotal, hpaid⟩ := withdraw_outputs mgw destaddr (changeaddr destaddr smallest smallestB) hop
    hfee hvalue hfit redeemtxid
  rw [← houtputs redeemtxid] at htotal hpaid
  rw [hsum, htaking.sum, ← hinputs] at htotal
  refine ⟨htotal, fun o ho => ?_, fun hdest => hpaid hdest fun hchange heq => ?_, s.places, htaking.nodup,
    htaking.range, hinputs.trans htaking.inputs⟩
  · exact Nat.le_trans (value_le_outputTotal ho) (Nat.le.intro htotal)
  · have hne := hnil hchange
    rw [changeaddr] at heq hne
    split at heq
    case isTrue hsmall => exact hsmall heq.symm
    case isFalse hsmall =>
      rw [if_neg hsmall, ← heq] at hne
      rcases hsmallest with hdiff | hempty
      · exact hdiff ((not_not.mp hsmall).trans heq)
      · exact hne ((not_not.mp hsmall).symm.trans hempty)

/-- A ramchain of which every unspent has the address `a` and a transaction that is not spent. -/
def plainChain : Ramchain := ⟨fun _ => ['a'], fun _ => [], fun _ => (['t'], 0)⟩

def plainGateway (txfee NXTfee_equiv minoutput : UInt64) (doOpreturn : Bool) : Gateway :=
  ⟨['m'], ['r'], txfee, NXTfee_equiv, minoutput, doOpreturn, 0, 0⟩

theorem mgwCointxWithdraw_balances_change :
    ∃ tx opreturn, mgwCointxWithdraw plainChain (plainGateway 1000 50 1 false) [⟨50000, 1, 1⟩, ⟨70000, 1, 2⟩]
        ['d'] 100000 ['a'] [] = some (tx, opreturn) ∧
      outputTotal (mgwOpReturn (plainGateway 1000 50 1 false) tx.outputs opreturn 7) + 1000 = inputTotal tx.inputs ∧
      paid ['d'] (mgwOpReturn (plainGateway 1000 50 1 false) tx.outputs opreturn 7) + 2100 = 100000 := by
  obtain ⟨⟨tx, opreturn⟩, h⟩ : ∃ r, mgwCointxWithdraw plainChain (plainGateway 1000 50 1 false)
      [⟨50000, 1, 1⟩, ⟨70000, 1, 2⟩] ['d'] 100000 ['a'] [] = some r := Option.isSome_iff_exists.mp (by decide +kernel)
  obtain ⟨htotal, -, hpaid, -⟩ := mgwCointxWithdraw_balances plainChain (plainGateway 1000 50 1 false)
    [⟨50000, 1, 1⟩, ⟨70000, 1, 2⟩] ['d'] 100000 7 ['a'] [] tx opreturn (by decide +kernel) (by decide +kernel)
    (by decide +kernel) (Or.inl (by decide)) h
  exact ⟨tx, opreturn, h, htotal, hpaid (by decide)⟩

/-- Nothing balances when the amount of the marker output is the 1 that replaces 0 and there are no fees, when
twice the fees wrap around, or when the unspents that are taken do. -/
theorem mgwCointxWithdraw_unbalanced :
    ((mgwCointxWithdraw plainChain (plainGateway 0 0 0 false) [⟨1, 1, 1⟩] ['d'] 1 ['a'] []).any fun (tx, opreturn) =>
        outputTotal (mgwOpReturn (plainGateway 0 0 0 false) tx.outputs opreturn 7) ≠ inputTotal tx.inputs) ∧
      ((mgwCointxWithdraw plainChain (plainGateway (2^63) 0 0 true) [⟨2^63 + 10, 1, 1⟩] ['d'] 10 ['a'] []).any
        fun (tx, opreturn) => outputTotal (mgwOpReturn (plainGateway (2^63) 0 0 true) tx.outputs opreturn 7) + 2^63 ≠
          inputTotal tx.inputs) ∧
      ((mgwCointxWithdraw plainChain (plainGateway 0 0 0 true)
        ([⟨0 - 10, 1, 1⟩, ⟨0 - 20, 1, 2⟩] ++ List.replicate 7 ⟨4, 1, 3⟩) ['d'] (0 - 5) ['a'] []).any
        fun (tx, opreturn) => outputTotal (mgwOpReturn (plainGateway 0 0 0 true) tx.outputs opreturn 7) ≠
          inputTotal tx.inputs) :=
  ⟨by decide +kernel, by decide +kernel, by decide +kernel⟩

end SuperNet.Mgw.MgwWithdraw
