import SuperNet.Lib.TopSets
import SuperNet.Lib.Words
import SuperNet.Mgw.MgwDeposits
import SuperNet.Mgw.MgwWithdraw

/-! The whole contract of coin777_inputs: what it selects, when it has to succeed, and what it leaves of the pool when
it fails. -/
namespace SuperNet.Mgw.MgwInputs
open Lib.Words Lib.TopSets MgwWithdraw

variable (chain : Ramchain)

/-- The loop of `coin777_inputs` with `n` rounds to go: whether it returns from a round, and its variables then. -/
def inputsRun (total : UInt64) : Nat → Picked → Bool × Picked
  | 0, s => (false, s)
  | n + 1, s => match coin777Bestfit chain s.unspents s.remainder with
    | none => inputsRun total n s
    | some k =>
      let s := s.take chain k (s.unspents.getD k Unspent.zero)
      if s.sum ≥ total then (true, s) else inputsRun total n s

/-- `coin777_inputs`, also with what it leaves when it returns 0. -/
def coin777InputsRun (unspents : List Unspent) (max : Nat) (amount txfee : UInt64) : Bool × Picked :=
  inputsRun chain (amount + txfee) (min unspents.length (max - 1)) ⟨unspents, 0, amount + txfee, [], []⟩

/-- The unspents of a gateway: each is there once, and none is worthless. -/
structure Pool where
  unspents : List Unspent
  distinct : (unspents.map Unspent.unspentind).Nodup
  positive : ∀ u ∈ unspents, u.value ≠ 0

/-- An unspent of the gateway with the address that the ramchain has for it. -/
def pooled (addrind : Nat → Nat) (u : MgwDeposits.Unspent) : Unspent := ⟨UInt64.ofNat u.value, addrind u.unspentind, u.unspentind⟩

/-- A poll over unspents that are not there yet, each with a value, leaves the gateway a pool. -/
theorem Pool.poll (pool : Pool) {fl : Rat → Rat} {p : MgwDeposits.Poll} {s : MgwDeposits.Gateway} {addrind : Nat → Nat}
    (hpool : s.unspents.map (pooled addrind) = pool.unspents) (hrows : (p.rows.map MgwDeposits.Row.unspentind).Nodup)
    (hnew : ∀ row ∈ p.rows, row.unspentind ∉ pool.unspents.map Unspent.unspentind)
    (hvalue : ∀ row ∈ p.rows, 0 < row.value ∧ row.value < 2^64) :
    ∃ next : Pool, next.unspents = (MgwDeposits.mgwUnspentsfunc fl p s).1.unspents.map (pooled addrind) := by
  obtain ⟨kept, hsub, hkept⟩ := MgwDeposits.poll_unspents fl p (p.start s) p.rows
  have hunspents : (MgwDeposits.mgwUnspentsfunc fl p s).1.unspents.map (pooled addrind) =
      pool.unspents ++ kept.map fun row => pooled addrind ⟨row.value, row.unspentind⟩ := by
    rw [← hpool]
    refine (congrArg (List.map (pooled addrind)) hkept).trans ?_
    rw [List.map_append, List.map_map]
    rfl
  refine ⟨⟨_, ?_, ?_⟩, hunspents.symm⟩
  · rw [List.map_append, List.map_map, List.nodup_append]
    refine ⟨pool.distinct, hrows.sublist (hsub.map _), ?_⟩
    rintro i hi j hj rfl
    obtain ⟨row, hrow, rfl⟩ := List.mem_map.mp hj
    exact hnew row (hsub.subset hrow) hi
  · intro u hu
    rcases List.mem_append.mp hu with hu | hu
    · exact pool.positive u hu
    · obtain ⟨row, hrow, rfl⟩ := List.mem_map.mp hu
      obtain ⟨hpos, hlt⟩ := hvalue row (hsub.subset hrow)
      intro hzero
      have hnat : (UInt64.ofNat row.value).toNat = 0 := congrArg UInt64.toNat hzero
      rw [UInt64.toNat_ofNat_of_lt' hlt] at hnat
      omega

def live (pool : List Unspent) : Finset Nat :=
  (Finset.range pool.length).filter fun k => skipped chain (pool.getD k Unspent.zero) = false

def worth (pool : List Unspent) (k : Nat) : Nat := (pool.getD k Unspent.zero).value.toNat

def due (amount txfee : UInt64) : Nat := amount.toNat + txfee.toNat

/-- A selection: distinct members of the pool, each taken out of it and nothing else, with a sum (returned as a signed
word) and a change that are right in exact numbers. -/
structure Selected (pool : Pool) (amount txfee : UInt64) (s : Picked) : Prop where
  members : ∀ k ∈ s.places, k < pool.unspents.length
  distinct : (s.places.map fun k => (pool.unspents.getD k Unspent.zero).unspentind).Nodup
  inputs : s.inputs = s.places.map fun k => cointxInput chain (pool.unspents.getD k Unspent.zero)
  removed : ∀ k ∈ s.places, s.unspents[k]? = some Unspent.zero
  kept : ∀ k, k ∉ s.places → s.unspents[k]? = pool.unspents[k]?
  sum : i64 s.sum.toNat = inputTotal s.inputs
  covers : due amount txfee ≤ inputTotal s.inputs
  change : (s.sum - amount - txfee).toNat + due amount txfee = inputTotal s.inputs

structure Contract (pool : Pool) (max : Nat) (amount txfee : UInt64) : Prop where
  selected : ∀ s, coin777InputsRun chain pool.unspents max amount txfee = (true, s) → Selected chain pool amount txfee s
  succeeds : pool.unspents.length + 1 ≤ max → due amount txfee ≤ poolTotal pool.unspents →
    (coin777InputsRun chain pool.unspents max amount txfee).1 = true
  untouched : ∀ s, coin777InputsRun chain pool.unspents max amount txfee = (false, s) → s.unspents = pool.unspents

/-- The largest unspents `top` do not make up the amount, but with `last` they do, within a signed word. -/
structure Covering (pool : Pool) (total : Nat) (top : Finset Nat) (last : Nat) : Prop where
  largest : Largest (live chain pool.unspents) (worth pool.unspents) top
  live : last ∈ live chain pool.unspents
  rest : last ∉ top
  short : top = ∅ ∨ ∑ k ∈ top, worth pool.unspents k < total
  enough : total ≤ ∑ k ∈ top, worth pool.unspents k + worth pool.unspents last
  fits : ∑ k ∈ top, worth pool.unspents k + worth pool.unspents last < 2^63

def Coverable (pool : Pool) (max : Nat) (amount txfee : UInt64) : Prop :=
  ∃ top last, Covering chain pool (due amount txfee) top last ∧ top.card < min pool.unspents.length (max - 1)

def Idle (pool : Pool) (max : Nat) (amount txfee : UInt64) : Prop :=
  (max ≤ 1 ∨ live chain pool.unspents = ∅) ∧
    ¬ (pool.unspents.length + 1 ≤ max ∧ due amount txfee ≤ poolTotal pool.unspents)

variable {chain}

theorem inputsRun_pass {total : UInt64} {n : Nat} {s : Picked} (hk : coin777Bestfit chain s.unspents s.remainder = none) :
    inputsRun chain total (n + 1) s = inputsRun chain total n s := by
  rw [inputsRun, hk]

theorem inputsRun_take {total : UInt64} {n k : Nat} {s : Picked} {vin : Unspent}
    (hk : coin777Bestfit chain s.unspents s.remainder = some k) (hvin : s.unspents[k]? = some vin) :
    inputsRun chain total (n + 1) s =
      if (s.take chain k vin).sum ≥ total then (true, s.take chain k vin)
      else inputsRun chain total n (s.take chain k vin) := by
  have hget : s.unspents.getD k Unspent.zero = vin := by rw [List.getD_eq_getElem?_getD, hvin, Option.getD_some]
  rw [inputsRun, hk]
  dsimp only
  rw [hget]

/-- The loop that a withdraw uses is the run, as far as it returns from a round. -/
theorem inputsLoop_eq (total : UInt64) (n : Nat) (s : Picked) :
    inputsLoop chain total n s = match inputsRun chain total n s with
      | (true, s') => some s'
      | (false, _) => none := by
  induction n generalizing s with
  | zero => rfl
  | succ n ih =>
    rw [inputsLoop, inputsRun]
    cases coin777Bestfit chain s.unspents s.remainder with
    | none => exact ih s
    | some k =>
      dsimp only
      by_cases hsum : (s.take chain k (s.unspents.getD k Unspent.zero)).sum ≥ total
      case pos =>
        rw [if_pos hsum]
        exact if_pos hsum
      case neg =>
        rw [if_neg hsum, ← ih]
        exact if_neg hsum

section bestfit
variable {value : UInt64}

/-- What the loop of `coin777_bestfit` has found above the value, among the unspents behind it. -/
private structure LeastOf (chain : Ramchain) (value : UInt64) (done : List Unspent) (f : Fit) : Prop where
  nothing : f.abovevin = none → f.above = 0 ∧ ∀ w ∈ done, skipped chain w = false → w.value < value
  found : ∀ i, f.abovevin = some i → ∃ u, done[i]? = some u ∧ value < u.value ∧ f.above = u.value - value ∧
    ∀ w ∈ done, skipped chain w = false → value ≤ w.value → u.value ≤ w.value

private theorem LeastOf.keep {done : List Unspent} {f g : Fit} {vin : Unspent} (h : LeastOf chain value done f)
    (habove : g.above = f.above) (hvin : g.abovevin = f.abovevin)
    (hworse : skipped chain vin = false → value ≤ vin.value → f.above ≠ 0 ∧ f.above ≤ vin.value - value) :
    LeastOf chain value (done ++ [vin]) g := by
  refine ⟨fun hnone => ?_, fun i hi => ?_⟩
  · obtain ⟨hzero, hall⟩ := h.nothing (hvin ▸ hnone)
    refine ⟨habove.trans hzero, forall_behind hall fun hskip => ?_⟩
    by_contra hge
    exact (hworse hskip (UInt64.not_lt.mp hge)).1 hzero
  · obtain ⟨u, hu, hgt, hgap, hmin⟩ := h.found i (hvin ▸ hi)
    refine ⟨u, getElem?_behind hu, hgt, habove.trans hgap, forall_behind hmin fun hskip hge => ?_⟩
    have hle := (hworse hskip hge).2
    rw [hgap] at hle
    grind

private theorem LeastOf.set {done : List Unspent} {f : Fit} {vin : Unspent} (h : LeastOf chain value done f)
    (hgt : value < vin.value) (hgap : f.above = 0 ∨ vin.value - value < f.above) :
    LeastOf chain value (done ++ [vin]) { f with above := vin.value - value, abovevin := some done.length } := by
  refine ⟨fun hnone => (by cases hnone), fun i hi => ?_⟩
  cases hi
  refine ⟨vin, by rw [List.getElem?_append_right (Nat.le_refl _), Nat.sub_self]; rfl, hgt, rfl,
    forall_behind (fun w hw hskip hge => ?_) fun _ _ => UInt64.le_refl _⟩
  cases hvin : f.abovevin with
  | none => exact absurd hge (UInt64.not_le.mpr ((h.nothing hvin).2 w hw hskip))
  | some i =>
    obtain ⟨u, -, hu, hval, hmin⟩ := h.found i hvin
    have hle := hmin w hw hskip hge
    rw [hval] at hgap
    grind

private theorem LeastOf.visit {done : List Unspent} {f : Fit} {vin : Unspent}
    (hne : skipped chain vin = false → vin.value ≠ value) (h : LeastOf chain value done f) :
    LeastOf chain value (done ++ [vin]) (f.visit chain value done.length vin) := by
  rw [Fit.visit]
  split
  case isTrue hskip => exact h.keep rfl rfl fun hvin => absurd hskip (by rw [hvin]; exact Bool.false_ne_true)
  case isFalse hskip =>
    have hvin := hne (Bool.eq_false_iff.mpr hskip)
    split
    case isTrue hgt =>
      split
      case isTrue hgap => exact h.set hgt hgap
      case isFalse hgap => exact h.keep rfl rfl fun _ _ => by grind
    case isFalse hngt =>
      split
      case isTrue => exact h.keep rfl rfl fun _ _ => by grind
      case isFalse => exact h.keep rfl rfl fun _ _ => by grind

private theorem LeastOf.least {unspents : List Unspent} {f : Fit} {k : Nat} (h : LeastOf chain value unspents f)
    (hk : f.abovevin.or f.belowvin = some k) {u : Unspent} (hu : unspents[k]? = some u) :
    ∀ w ∈ unspents, skipped chain w = false → value ≤ w.value → u.value ≤ w.value := by
  intro w hw hskip hwge
  cases hvin : f.abovevin with
  | none => exact absurd hwge (UInt64.not_le.mpr ((h.nothing hvin).2 w hw hskip))
  | some i =>
    rw [hvin, Option.some_or] at hk
    cases hk
    obtain ⟨u', hu', -, -, hmin⟩ := h.found k hvin
    rw [hu] at hu'
    cases hu'
    exact hmin w hw hskip hwge

/-- While nothing has been found, the unspents visited are those passed over. -/
private structure NoneOf (chain : Ramchain) (done : List Unspent) (f : Fit) : Prop where
  above : f.above ≠ 0 → f.abovevin ≠ none
  below : f.below ≠ 0 → f.belowvin ≠ none
  all : f.abovevin = none → f.belowvin = none → ∀ w ∈ done, skipped chain w = true

private theorem NoneOf.visit {done : List Unspent} {f : Fit} (h : NoneOf chain done f) (vin : Unspent) :
    NoneOf chain (done ++ [vin]) (f.visit chain value done.length vin) := by
  rw [Fit.visit]
  split
  case isTrue hskip => exact ⟨h.above, h.below, fun ha hb => forall_behind (h.all ha hb) hskip⟩
  case isFalse =>
    -- an unspent that counts is kept above or below the value, if there was not one there before
    split
    case isTrue =>
      split
      case isTrue => exact ⟨fun _ => Option.some_ne_none _, h.below, fun ha => by cases ha⟩
      case isFalse hgap => exact ⟨h.above, h.below, fun ha => absurd ha (h.above fun hzero => hgap (.inl hzero))⟩
    case isFalse =>
      split
      case isTrue => exact ⟨h.above, fun _ => Option.some_ne_none _, fun _ hb => by cases hb⟩
      case isFalse hgap => exact ⟨h.above, h.below, fun _ hb => absurd hb (h.below fun hzero => hgap (.inl hzero))⟩

/-- What `coin777_bestfit` returns: the least of the unspents from the value on, else the largest. -/
theorem coin777Bestfit_spec {unspents : List Unspent} {k : Nat} (h : coin777Bestfit chain unspents value = some k) :
    ∃ u, unspents[k]? = some u ∧ skipped chain u = false ∧
      (value ≤ u.value → ∀ w ∈ unspents, skipped chain w = false → value ≤ w.value → u.value ≤ w.value) ∧
      (u.value < value → ∀ w ∈ unspents, skipped chain w = false → w.value ≤ u.value) := by
  obtain ⟨u, hu, hskip, hmax⟩ := coin777Bestfit_fits h
  refine ⟨u, hu, hskip, fun _ => ?_, hmax⟩
  have hstart : LeastOf chain value [] ⟨0, none, 0, none⟩ :=
    ⟨fun _ => ⟨rfl, fun w hw => absurd hw List.not_mem_nil⟩, fun i hi => (by cases hi)⟩
  rcases bestfitLoop_run (fun _ _ _ hne hleast => LeastOf.visit hne hleast) unspents hstart with
    ⟨front, vin, back, hat, -, heq, hk⟩ | ⟨f, hleast, hk⟩
  · obtain rfl := Option.some.inj (h.symm.trans hk)
    rw [← List.nil_append unspents, hat, List.getElem?_append_right (Nat.le_refl _), Nat.sub_self] at hu
    cases hu
    intro w _ _ hwge
    rwa [heq]
  · exact hleast.least (hk.symm.trans h) hu

theorem coin777Bestfit_none {unspents : List Unspent} (h : coin777Bestfit chain unspents value = none) :
    ∀ w ∈ unspents, skipped chain w = true := by
  have hstart : NoneOf chain [] ⟨0, none, 0, none⟩ :=
    ⟨fun h0 => absurd rfl h0, fun h0 => absurd rfl h0, fun _ _ w hw => absurd hw List.not_mem_nil⟩
  have hvisit : ∀ done f vin, (skipped chain vin = false → vin.value ≠ value) → NoneOf chain done f →
      NoneOf chain (done ++ [vin]) (f.visit chain value done.length vin) := fun _ _ vin _ hnone => hnone.visit vin
  rcases bestfitLoop_run hvisit unspents hstart with
    ⟨front, -, -, -, -, -, hk⟩ | ⟨f, hnone, hk⟩
  · exact absurd (h.symm.trans hk) (Option.some_ne_none _).symm
  · obtain ⟨ha, hb⟩ := Option.or_eq_none_iff.mp (hk.symm.trans h)
    exact hnone.all ha hb

end bestfit

section run
variable {pool : Pool} {total : Nat} {s s' : Picked} {k : Nat}

private theorem mem_live {pool : List Unspent} : k ∈ live chain pool ↔ k < pool.length ∧
    skipped chain (pool.getD k Unspent.zero) = false := by
  rw [live, Finset.mem_filter, Finset.mem_range]

private theorem getD_of_some {pool : List Unspent} {u : Unspent} (h : pool[k]? = some u) :
    pool.getD k Unspent.zero = u := by
  rw [List.getD_eq_getElem?_getD, h, Option.getD_some]

private theorem live_some {pool : List Unspent} (h : k ∈ live chain pool) :
    pool[k]? = some (pool.getD k Unspent.zero) := by
  have hlt := (mem_live.mp h).1
  rw [List.getD_eq_getElem?_getD, List.getElem?_eq_getElem hlt, Option.getD_some]

/-- The unspents at the places are taken, and nothing else is. -/
private structure Picks (chain : Ramchain) (pool : Pool) (s : Picked) : Prop where
  nodup : s.places.Nodup
  lives : ∀ k ∈ s.places, k ∈ live chain pool.unspents
  inputs : s.inputs = s.places.map fun k => cointxInput chain (pool.unspents.getD k Unspent.zero)
  removed : ∀ k ∈ s.places, s.unspents[k]? = some Unspent.zero
  kept : ∀ k, k ∉ s.places → s.unspents[k]? = pool.unspents[k]?

private theorem Picks.take (h : Picks chain pool s) (hk : k ∈ live chain pool.unspents) (hfresh : k ∉ s.places) :
    Picks chain pool (s.take chain k (pool.unspents.getD k Unspent.zero)) := by
  have hrange : k < s.unspents.length :=
    (List.getElem?_eq_some_iff.mp ((h.kept k hfresh).trans (live_some hk))).1
  refine ⟨?_, ?_, ?_, ?_, ?_⟩
  · exact List.nodup_append.mpr ⟨h.nodup, List.nodup_singleton k, fun a ha b hb hab =>
      hfresh (List.mem_singleton.mp hb ▸ hab ▸ ha)⟩
  · intro j hj
    rcases List.mem_append.mp hj with hj | hj
    · exact h.lives j hj
    · rwa [List.mem_singleton.mp hj]
  · rw [Picked.take, List.map_append, List.map_singleton, ← h.inputs]
  · intro j hj
    by_cases hne : k = j
    · rw [Picked.take, ← hne, List.getElem?_set_self hrange]
    · rw [Picked.take, List.getElem?_set_ne hne]
      rcases List.mem_append.mp hj with hj | hj
      · exact h.removed j hj
      · exact absurd (List.mem_singleton.mp hj).symm hne
  · intro j hj
    have hne : k ≠ j := fun hkj => hj (List.mem_append_right _ (List.mem_singleton.mpr hkj.symm))
    rw [Picked.take, List.getElem?_set_ne hne]
    exact h.kept j fun hmem => hj (List.mem_append_left _ hmem)

private theorem Picks.inputTotal_eq (h : Picks chain pool s) :
    inputTotal s.inputs = ∑ k ∈ s.places.toFinset, worth pool.unspents k := by
  rw [List.sum_toFinset _ h.nodup, inputTotal, h.inputs, List.map_map]
  rfl

/-- The largest unspents are taken, one in each round, and the amount is not reached yet. -/
private structure Greedy (chain : Ramchain) (pool : Pool) (total : Nat) (s : Picked) : Prop where
  picks : Picks chain pool s
  largest : Largest (live chain pool.unspents) (worth pool.unspents) s.places.toFinset
  sum : s.sum.toNat = ∑ k ∈ s.places.toFinset, worth pool.unspents k
  short : s.places = [] ∨ ∑ k ∈ s.places.toFinset, worth pool.unspents k < total
  remainder : s.remainder.toNat + s.sum.toNat = total

private theorem Greedy.start (hword : total < 2^64) :
    Greedy chain pool total ⟨pool.unspents, 0, UInt64.ofNat total, [], []⟩ where
  picks := ⟨List.nodup_nil, fun _ hk => absurd hk List.not_mem_nil, rfl, fun _ hk => absurd hk List.not_mem_nil,
    fun _ _ => rfl⟩
  largest := largest_empty _ _
  sum := rfl
  short := .inl rfl
  remainder := UInt64.toNat_ofNat_of_lt' hword

private theorem Greedy.rest (h : Greedy chain pool total s) {j : Nat} (hj : j ∈ live chain pool.unspents)
    (hfresh : j ∉ s.places) : pool.unspents.getD j Unspent.zero ∈ s.unspents :=
  List.mem_of_getElem? ((h.picks.kept j hfresh).trans (live_some hj))

private theorem Greedy.emptied (h : Greedy chain pool total s) (hall : live chain pool.unspents ⊆ s.places.toFinset) :
    ∀ w ∈ s.unspents, skipped chain w = false → w.value = 0 := by
  intro w hw hskip
  obtain ⟨i, hi⟩ := List.mem_iff_getElem?.mp hw
  by_cases hplace : i ∈ s.places
  · rw [h.picks.removed i hplace] at hi
    cases hi
    rfl
  · rw [h.picks.kept i hplace] at hi
    have hlive : i ∈ live chain pool.unspents :=
      mem_live.mpr ⟨(List.getElem?_eq_some_iff.mp hi).1, by rwa [getD_of_some hi]⟩
    exact absurd (List.mem_toFinset.mp (hall hlive)) hplace

private theorem Greedy.fresh (h : Greedy chain pool total s) {i k : Nat} (hi : i ∈ live chain pool.unspents)
    (hi' : i ∉ s.places) (hk : coin777Bestfit chain s.unspents s.remainder = some k) : k ∉ s.places := by
  intro hplace
  obtain ⟨u, hu, -, -, hmost⟩ := coin777Bestfit_spec hk
  rw [h.picks.removed k hplace] at hu
  cases hu
  have hremainder := h.remainder
  by_cases hzero : s.remainder ≤ Unspent.zero.value
  · -- a remainder of 0 is reached with the first unspent at the latest
    have hzero' : s.remainder.toNat ≤ 0 := UInt64.le_iff_toNat_le.mp hzero
    have hsum := h.sum
    rcases h.short with hnil | hshort
    · rw [hnil] at hplace
      cases hplace
    · omega
  · have hworthless := hmost (UInt64.not_le.mp hzero) _ (h.rest hi hi') (mem_live.mp hi).2
    exact pool.positive _ (List.mem_of_getElem? (live_some hi)) (UInt64.le_zero_iff.mp hworthless)

/-- What a round finds. Either all that is live has been taken, or it takes the least unspent that covers the rest,
or, when none does, the largest. -/
private theorem Greedy.step (h : Greedy chain pool total s) :
    (live chain pool.unspents ⊆ s.places.toFinset ∧ ∀ w ∈ s.unspents, skipped chain w = false → w.value = 0) ∨
      ∃ k ∈ live chain pool.unspents, k ∉ s.places ∧ coin777Bestfit chain s.unspents s.remainder = some k ∧
        ((total ≤ s.sum.toNat + worth pool.unspents k ∧ ∀ j ∈ live chain pool.unspents, j ∉ s.places →
            total ≤ s.sum.toNat + worth pool.unspents j → worth pool.unspents k ≤ worth pool.unspents j) ∨
          (s.sum.toNat + worth pool.unspents k < total ∧ ∀ j ∈ live chain pool.unspents, j ∉ s.places →
            worth pool.unspents j ≤ worth pool.unspents k)) := by
  have hremainder := h.remainder
  by_cases hall : live chain pool.unspents ⊆ s.places.toFinset
  case pos => exact .inl ⟨hall, h.emptied hall⟩
  case neg =>
    obtain ⟨i, hi, hi'⟩ := Finset.not_subset.mp hall
    rw [List.mem_toFinset] at hi'
    cases hk : coin777Bestfit chain s.unspents s.remainder with
    | none =>
      have hskip := coin777Bestfit_none hk _ (h.rest hi hi')
      rw [(mem_live.mp hi).2] at hskip
      cases hskip
    | some k =>
      have hfresh := h.fresh hi hi' hk
      obtain ⟨u, hu, hskip, hleast, hmost⟩ := coin777Bestfit_spec hk
      rw [h.picks.kept k hfresh] at hu
      have hworth : worth pool.unspents k = u.value.toNat := by rw [worth, getD_of_some hu]
      refine .inr ⟨k, mem_live.mpr ⟨(List.getElem?_eq_some_iff.mp hu).1, by rwa [getD_of_some hu]⟩, hfresh, rfl, ?_⟩
      rw [hworth]
      by_cases hcover : s.remainder ≤ u.value
      case pos =>
        have hcover' := UInt64.le_iff_toNat_le.mp hcover
        refine .inl ⟨by omega, fun j hj hj' hge => ?_⟩
        have hle := hleast hcover _ (h.rest hj hj') (mem_live.mp hj).2
          (UInt64.le_iff_toNat_le.mpr (by rw [worth] at hge; omega))
        exact UInt64.le_iff_toNat_le.mp hle
      case neg =>
        have hcover' := UInt64.lt_iff_toNat_lt.mp (UInt64.not_le.mp hcover)
        refine .inr ⟨by omega, fun j hj hj' => ?_⟩
        exact UInt64.le_iff_toNat_le.mp (hmost (UInt64.not_le.mp hcover) _ (h.rest hj hj') (mem_live.mp hj).2)

private theorem toFinset_take (s : Picked) (k : Nat) (vin : Unspent) :
    (s.take chain k vin).places.toFinset = insert k s.places.toFinset := by
  rw [Picked.take, List.toFinset_append, List.toFinset_cons, List.toFinset_nil, insert_empty_eq, Finset.union_comm,
    Finset.insert_eq]

private theorem Greedy.take (h : Greedy chain pool total s) (hword : total < 2^64) (hk : k ∈ live chain pool.unspents)
    (hfresh : k ∉ s.places) (hshort : s.sum.toNat + worth pool.unspents k < total)
    (hmax : ∀ j ∈ live chain pool.unspents, j ∉ s.places → worth pool.unspents j ≤ worth pool.unspents k) :
    Greedy chain pool total (s.take chain k (pool.unspents.getD k Unspent.zero)) := by
  have hremainder := h.remainder
  have hfresh' : k ∉ s.places.toFinset := fun hmem => hfresh (List.mem_toFinset.mp hmem)
  have hsum : (s.sum + (pool.unspents.getD k Unspent.zero).value).toNat = s.sum.toNat + worth pool.unspents k := by
    rw [UInt64.toNat_add, ← worth, Nat.mod_eq_of_lt (Nat.lt_trans hshort hword)]
  have hall : s.sum.toNat + worth pool.unspents k = ∑ i ∈ insert k s.places.toFinset, worth pool.unspents i := by
    rw [Finset.sum_insert hfresh', ← h.sum, Nat.add_comm]
  refine ⟨h.picks.take hk hfresh, ?_, ?_, .inr ?_, ?_⟩
  · rw [toFinset_take]
    exact h.largest.insert hk fun j hj hnot => hmax j hj fun hmem => hnot (List.mem_toFinset.mpr hmem)
  · rw [toFinset_take, ← hall]
    exact hsum
  · rw [toFinset_take, ← hall]
    exact hshort
  · have hle : (pool.unspents.getD k Unspent.zero).value ≤ s.remainder :=
      UInt64.le_iff_toNat_le.mpr (by rw [← worth]; omega)
    rw [Picked.take, hsum, UInt64.toNat_sub_of_le _ _ hle, ← worth]
    omega

private theorem Greedy.below (h : Greedy chain pool total s) (hword : total < 2^64) (hsome : s.places ≠ []) :
    ¬ s.sum ≥ UInt64.ofNat total := by
  rw [ge_iff_le, UInt64.le_iff_toNat_le, UInt64.toNat_ofNat_of_lt' hword, h.sum, Nat.not_le]
  exact h.short.resolve_left hsome

private theorem inputsRun_grows {b : Bool} {word : UInt64} {n : Nat} (h : inputsRun chain word n s = (b, s')) :
    inputTotal s.inputs ≤ inputTotal s'.inputs ∧
      ∀ k : Nat, s.unspents[k]? = some Unspent.zero → s'.unspents[k]? = some Unspent.zero := by
  induction n generalizing s with
  | zero =>
    cases h
    exact ⟨Nat.le_refl _, fun _ hk => hk⟩
  | succ n ih =>
    cases hfit : coin777Bestfit chain s.unspents s.remainder with
    | none => exact ih ((inputsRun_pass hfit).symm.trans h)
    | some i =>
      obtain ⟨u, hu, -⟩ := coin777Bestfit_fits hfit
      have htake : inputTotal s.inputs ≤ inputTotal (s.take chain i u).inputs := by
        rw [Picked.take, inputTotal_append]
        exact Nat.le_add_right _ _
      have hzero : ∀ k : Nat, s.unspents[k]? = some Unspent.zero →
          (s.take chain i u).unspents[k]? = some Unspent.zero := by
        intro k hk
        by_cases hik : i = k
        · rw [Picked.take, hik, List.getElem?_set_self (List.getElem?_eq_some_iff.mp hk).1]
        · rw [Picked.take, List.getElem?_set_ne hik, hk]
      rw [inputsRun_take hfit hu] at h
      split at h
      case isTrue =>
        cases h
        exact ⟨htake, hzero⟩
      case isFalse =>
        obtain ⟨hinputs, hremoved⟩ := ih h
        exact ⟨Nat.le_trans htake hinputs, fun k hk => hremoved k (hzero k hk)⟩

private theorem Greedy.covering {n : Nat} (h : Greedy chain pool total s) (hword : total < 2^64)
    (hlive : (live chain pool.unspents).Nonempty) (hrun : inputsRun chain (UInt64.ofNat total) n s = (true, s'))
    (hfits : inputTotal s'.inputs < 2^63) :
    ∃ top last, Covering chain pool total top last ∧ top.card < s.places.toFinset.card + n := by
  have htotal : (UInt64.ofNat total).toNat = total := UInt64.toNat_ofNat_of_lt' hword
  induction n generalizing s with
  | zero => cases hrun
  | succ n ih =>
    rcases h.step with ⟨hall, hworthless⟩ | ⟨k, hk, hfresh, hfit, hcover⟩
    · -- with nothing left the sum stays below the amount
      have hshort : s.sum < UInt64.ofNat total := by
        rw [UInt64.lt_iff_toNat_lt, htotal, h.sum]
        rcases h.short with hnil | hshort
        · obtain ⟨i, hi⟩ := hlive
          have hi' := List.mem_toFinset.mp (hall hi)
          rw [hnil] at hi'
          cases hi'
        · exact hshort
      have hnone := inputsLoop_worthless (n := n + 1) hworthless hshort
      rw [inputsLoop_eq, hrun] at hnone
      cases hnone
    · have hget := (h.picks.kept k hfresh).trans (live_some hk)
      have hfresh' : k ∉ s.places.toFinset := fun hmem => hfresh (List.mem_toFinset.mp hmem)
      have htaken : inputTotal (s.take chain k (pool.unspents.getD k Unspent.zero)).inputs =
          ∑ i ∈ s.places.toFinset, worth pool.unspents i + worth pool.unspents k := by
        rw [Picked.take, inputTotal_append, h.picks.inputTotal_eq, worth]
        rfl
      rw [inputsRun_take hfit hget] at hrun
      rcases hcover with ⟨hcover, -⟩ | ⟨hshort, hmax⟩
      · have hgrows : inputTotal (s.take chain k (pool.unspents.getD k Unspent.zero)).inputs ≤ inputTotal s'.inputs := by
          split at hrun
          case isTrue =>
            cases hrun
            exact Nat.le_refl _
          case isFalse => exact (inputsRun_grows hrun).1
        rw [htaken] at hgrows
        refine ⟨s.places.toFinset, k, ⟨h.largest, hk, hfresh', ?_, h.sum ▸ hcover, Nat.lt_of_le_of_lt hgrows hfits⟩,
          Nat.lt_add_of_pos_right (Nat.succ_pos n)⟩
        exact h.short.imp (fun hnil => by rw [hnil, List.toFinset_nil]) id
      · have hnext := h.take hword hk hfresh hshort hmax
        rw [if_neg (hnext.below hword (List.concat_ne_nil k s.places))] at hrun
        obtain ⟨top, last, hcovering, hcard⟩ := ih hnext hrun
        refine ⟨top, last, hcovering, ?_⟩
        rw [toFinset_take, Finset.card_insert_of_notMem hfresh'] at hcard
        omega

/-- A selection that has reached the amount within a signed word. -/
private structure Done (chain : Ramchain) (pool : Pool) (total : Nat) (s : Picked) : Prop where
  picks : Picks chain pool s
  sum : s.sum.toNat = inputTotal s.inputs
  enough : total ≤ inputTotal s.inputs
  fits : inputTotal s.inputs < 2^63

private theorem Greedy.finish (h : Greedy chain pool total s) (hk : k ∈ live chain pool.unspents)
    (hfresh : k ∉ s.places) (hcover : total ≤ s.sum.toNat + worth pool.unspents k)
    (hfits : s.sum.toNat + worth pool.unspents k < 2^63) :
    Done chain pool total (s.take chain k (pool.unspents.getD k Unspent.zero)) := by
  have hinputs : inputTotal (s.take chain k (pool.unspents.getD k Unspent.zero)).inputs =
      s.sum.toNat + worth pool.unspents k := by
    rw [Picked.take, inputTotal_append, h.picks.inputTotal_eq, ← h.sum, worth]
    rfl
  refine ⟨h.picks.take hk hfresh, ?_, hinputs ▸ hcover, hinputs ▸ hfits⟩
  rw [hinputs, Picked.take, UInt64.toNat_add, ← worth, Nat.mod_eq_of_lt (Nat.lt_trans hfits (by decide))]

private theorem Greedy.done {n : Nat} {top : Finset Nat} {last : Nat} (h : Greedy chain pool total s)
    (hword : total < 2^64) (hcovering : Covering chain pool total top last)
    (hbehind : s.places.toFinset.card ≤ top.card) (hrounds : top.card < s.places.toFinset.card + n) :
    ∃ s', inputsRun chain (UInt64.ofNat total) n s = (true, s') ∧ Done chain pool total s' := by
  have htotal : (UInt64.ofNat total).toNat = total := UInt64.toNat_ofNat_of_lt' hword
  have hsum := h.sum
  have henough := hcovering.enough
  have hfits := hcovering.fits
  induction n generalizing s with
  | zero => omega
  | succ n ih =>
    rcases h.step with ⟨hall, -⟩ | ⟨k, hk, hfresh, hfit, hcover⟩
    · have hmore := Finset.card_le_card
        (Finset.insert_subset (hall hcovering.live) (hcovering.largest.subset.trans hall))
      rw [Finset.card_insert_of_notMem hcovering.rest] at hmore
      omega
    · have hget := (h.picks.kept k hfresh).trans (live_some hk)
      have hfresh' : k ∉ s.places.toFinset := fun hmem => hfresh (List.mem_toFinset.mp hmem)
      -- once as many are taken as in `top`, their sums agree and something like `last` is left
      have hlevel : s.places.toFinset.card = top.card → s.sum.toNat = ∑ i ∈ top, worth pool.unspents i ∧
          ∃ j ∈ live chain pool.unspents, j ∉ s.places ∧ worth pool.unspents j = worth pool.unspents last := by
        intro hcard
        obtain ⟨j, hj, hj', heq⟩ := hcovering.largest.swap h.largest hcard.symm hcovering.live hcovering.rest
        exact ⟨hsum.trans (h.largest.sum_eq hcovering.largest hcard), j, hj,
          fun hmem => hj' (List.mem_toFinset.mpr hmem), heq⟩
      rw [inputsRun_take hfit hget]
      rcases hcover with ⟨hcover, hleast⟩ | ⟨hshort, hmax⟩
      · have hcard : s.places.toFinset.card = top.card := by
          by_contra hne
          have hinsert : (insert k s.places.toFinset).card ≤ top.card := by
            rw [Finset.card_insert_of_notMem hfresh']
            omega
          have hle := hcovering.largest.sum_le (Finset.insert_subset hk h.largest.subset) hinsert
          rw [Finset.sum_insert hfresh'] at hle
          rcases hcovering.short with hempty | hshort
          · rw [hempty, Finset.card_empty] at hinsert
            rw [Finset.card_insert_of_notMem hfresh'] at hinsert
            omega
          · omega
        obtain ⟨hsame, j, hj, hj', hlast⟩ := hlevel hcard
        have hle := hleast j hj hj' (by omega)
        have hdone := h.finish hk hfresh hcover (by omega)
        have hreached : (s.take chain k (pool.unspents.getD k Unspent.zero)).sum ≥ UInt64.ofNat total := by
          rw [ge_iff_le, UInt64.le_iff_toNat_le, htotal, hdone.sum]
          exact hdone.enough
        exact ⟨_, if_pos hreached, hdone⟩
      · have hnext := h.take hword hk hfresh hshort hmax
        have hcard : s.places.toFinset.card ≠ top.card := by
          intro hcard
          obtain ⟨hsame, j, hj, hj', hlast⟩ := hlevel hcard
          have hle := hmax j hj hj'
          omega
        have hplaces : (s.take chain k (pool.unspents.getD k Unspent.zero)).places.toFinset.card =
            s.places.toFinset.card + 1 := by
          rw [toFinset_take, Finset.card_insert_of_notMem hfresh']
        rw [if_neg (hnext.below hword (List.concat_ne_nil k s.places))]
        exact ih hnext (by omega) (by omega) hnext.sum

end run

section contract
variable {pool : Pool} {max : Nat} {amount txfee : UInt64} {s : Picked}

private theorem due_word (h : due amount txfee < 2^64) : amount + txfee = UInt64.ofNat (due amount txfee) := by
  apply UInt64.toNat_inj.mp
  rw [UInt64.toNat_add, UInt64.toNat_ofNat_of_lt' h, ← due, Nat.mod_eq_of_lt h]

private theorem Done.selected (h : Done chain pool (due amount txfee) s) : Selected chain pool amount txfee s := by
  have hlt := h.fits
  have henough := h.enough
  have hsum := h.sum
  have hplace : ∀ k ∈ s.places, k < pool.unspents.length := fun k hk => (mem_live.mp (h.picks.lives k hk)).1
  refine ⟨hplace, ?_, h.picks.inputs, h.picks.removed, h.picks.kept, ?_, henough, ?_⟩
  · refine List.Nodup.map_on (fun i hi j hj heq => ?_) h.picks.nodup
    have hfirst := hplace i hi
    have hsecond := hplace j hj
    rw [List.getD_eq_getElem?_getD, List.getD_eq_getElem?_getD, List.getElem?_eq_getElem hfirst,
      List.getElem?_eq_getElem hsecond, Option.getD_some, Option.getD_some] at heq
    have hfirst' : i < (pool.unspents.map Unspent.unspentind).length := by rwa [List.length_map]
    have hsecond' : j < (pool.unspents.map Unspent.unspentind).length := by rwa [List.length_map]
    have hinds : (pool.unspents.map Unspent.unspentind)[i] = (pool.unspents.map Unspent.unspentind)[j] := by
      rw [List.getElem_map, List.getElem_map, heq]
    exact pool.distinct.getElem_inj_iff.mp hinds
  · rw [h.sum]
    exact signed_of_bounds (by omega) (by omega)
  · rw [due] at henough ⊢
    have hamount : amount ≤ s.sum := UInt64.le_iff_toNat_le.mpr (by omega)
    have htxfee : txfee ≤ s.sum - amount :=
      UInt64.le_iff_toNat_le.mpr (by rw [UInt64.toNat_sub_of_le _ _ hamount]; omega)
    rw [UInt64.toNat_sub_of_le _ _ htxfee, UInt64.toNat_sub_of_le _ _ hamount]
    omega

private theorem inputsRun_idle {word : UInt64} {n : Nat} (h : n = 0 ∨ live chain s.unspents = ∅) :
    inputsRun chain word n s = (false, s) := by
  induction n with
  | zero => rfl
  | succ n ih =>
    have hempty := h.resolve_left (Nat.succ_ne_zero n)
    cases hfit : coin777Bestfit chain s.unspents s.remainder with
    | none => rw [inputsRun_pass hfit, ih (.inr hempty)]
    | some k =>
      obtain ⟨u, hu, hskip, -⟩ := coin777Bestfit_fits hfit
      have hk : k ∈ live chain s.unspents :=
        mem_live.mpr ⟨(List.getElem?_eq_some_iff.mp hu).1, by rwa [getD_of_some hu]⟩
      rw [hempty] at hk
      exact absurd hk (Finset.notMem_empty k)

private theorem inputsRun_consumes {b : Bool} {word : UInt64} {n : Nat} {start : Picked}
    (hpool : start.unspents = pool.unspents) (hsome : (live chain pool.unspents).Nonempty)
    (h : inputsRun chain word (n + 1) start = (b, s)) : s.unspents ≠ pool.unspents := by
  intro hsame
  cases hfit : coin777Bestfit chain start.unspents start.remainder with
  | none =>
    obtain ⟨i, hi⟩ := hsome
    have hskip := coin777Bestfit_none hfit _ (hpool ▸ List.mem_of_getElem? (live_some hi))
    rw [hpool, (mem_live.mp hi).2] at hskip
    cases hskip
  | some k =>
    obtain ⟨u, hu, -⟩ := coin777Bestfit_fits hfit
    have hzero : (start.take chain k u).unspents[k]? = some Unspent.zero := by
      rw [Picked.take, List.getElem?_set_self (List.getElem?_eq_some_iff.mp hu).1]
    rw [inputsRun_take hfit hu] at h
    have hstays : s.unspents[k]? = some Unspent.zero := by
      split at h
      case isTrue =>
        cases h
        exact hzero
      case isFalse => exact (inputsRun_grows h).2 k hzero
    rw [hsame, ← hpool, hu] at hstays
    cases hstays
    exact pool.positive _ (hpool ▸ List.mem_of_getElem? hu) rfl

private theorem contract_of_coverable (h : Coverable chain pool max amount txfee) :
    Contract chain pool max amount txfee := by
  obtain ⟨top, last, hcovering, hrounds⟩ := h
  have henough := hcovering.enough
  have hfits := hcovering.fits
  have hword : due amount txfee < 2^64 := by omega
  obtain ⟨s, hrun, hdone⟩ := (Greedy.start hword).done hword hcovering (Nat.zero_le _)
    (n := min pool.unspents.length (max - 1)) (by rwa [List.toFinset_nil, Finset.card_empty, Nat.zero_add])
  rw [← due_word hword] at hrun
  refine ⟨fun s' hs' => ?_, fun _ _ => ?_, fun s' hs' => ?_⟩
  · rw [coin777InputsRun, hrun] at hs'
    cases hs'
    exact hdone.selected
  · rw [coin777InputsRun, hrun]
  · rw [coin777InputsRun, hrun] at hs'
    cases hs'

private theorem contract_of_idle (h : Idle chain pool max amount txfee) : Contract chain pool max amount txfee := by
  obtain ⟨hnothing, hnone⟩ := h
  have hrounds : min pool.unspents.length (max - 1) = 0 ∨ live chain pool.unspents = ∅ :=
    hnothing.imp (fun hmax => by omega) id
  refine ⟨fun s hs => ?_, fun hmax hdue => absurd ⟨hmax, hdue⟩ hnone, fun s hs => ?_⟩
  · rw [coin777InputsRun, inputsRun_idle hrounds] at hs
    cases hs
  · rw [coin777InputsRun, inputsRun_idle hrounds] at hs
    cases hs
    rfl

private theorem coverable_or_idle (h : Contract chain pool max amount txfee) :
    Coverable chain pool max amount txfee ∨ Idle chain pool max amount txfee := by
  by_cases hnothing : max ≤ 1 ∨ live chain pool.unspents = ∅
  case pos =>
    have hrounds : min pool.unspents.length (max - 1) = 0 ∨ live chain pool.unspents = ∅ :=
      hnothing.imp (fun hmax => by omega) id
    refine .inr ⟨hnothing, fun ⟨hmax, hdue⟩ => ?_⟩
    have hsucceeds := h.succeeds hmax hdue
    rw [coin777InputsRun, inputsRun_idle hrounds] at hsucceeds
    cases hsucceeds
  case neg =>
    push Not at hnothing
    obtain ⟨hmax, hsome⟩ := hnothing
    have hlength : 0 < pool.unspents.length := by
      obtain ⟨i, hi⟩ := hsome
      exact Nat.zero_lt_of_lt (mem_live.mp hi).1
    obtain ⟨n, hn⟩ : ∃ n, min pool.unspents.length (max - 1) = n + 1 :=
      ⟨min pool.unspents.length (max - 1) - 1, by omega⟩
    obtain ⟨s, hs⟩ : ∃ s, coin777InputsRun chain pool.unspents max amount txfee = (true, s) := by
      rcases hrun : coin777InputsRun chain pool.unspents max amount txfee with ⟨b, s⟩
      cases b with
      | true => exact ⟨s, rfl⟩
      | false =>
        have huntouched := h.untouched s hrun
        rw [coin777InputsRun, hn] at hrun
        exact absurd huntouched (inputsRun_consumes rfl hsome hrun)
    have hselected := h.selected s hs
    have hbound := (signed_bounds s.sum.toNat).2
    have hfits : inputTotal s.inputs < 2^63 := by
      rw [hselected.sum] at hbound
      exact_mod_cast hbound
    have hword : due amount txfee < 2^64 := by
      have hcovers := hselected.covers
      omega
    rw [coin777InputsRun, due_word hword] at hs
    obtain ⟨top, last, hcovering, hcard⟩ := (Greedy.start hword).covering hword hsome hs hfits
    rw [List.toFinset_nil, Finset.card_empty, Nat.zero_add] at hcard
    exact .inl ⟨top, last, hcovering, hcard⟩

/-- `coin777_inputs` keeps its contract exactly when the amount is covered in one of its rounds, or when there is
nothing to take: every other call takes unspents out of the pool and returns 0. -/
theorem coin777InputsRun_contract_iff (chain : Ramchain) (pool : Pool) (max : Nat) (amount txfee : UInt64) :
    Contract chain pool max amount txfee ↔
      Coverable chain pool max amount txfee ∨ Idle chain pool max amount txfee := by
  refine ⟨coverable_or_idle, fun h => ?_⟩
  rcases h with h | h
  · exact contract_of_coverable h
  · exact contract_of_idle h

def poorPool : Pool := ⟨[⟨5, 1, 1⟩, ⟨2, 1, 2⟩], by decide, by decide⟩

/-- A withdraw of more than the gateway has empties its pool. -/
theorem poorPool_emptied : coin777InputsRun plainChain poorPool.unspents maxCointxInputs 10 0 =
      (false, ⟨[Unspent.zero, Unspent.zero], 7, 3, [cointxInput plainChain ⟨5, 1, 1⟩, cointxInput plainChain ⟨2, 1, 2⟩],
        [0, 1]⟩) ∧
    ¬ Contract plainChain poorPool maxCointxInputs 10 0 := by
  have hrun : coin777InputsRun plainChain poorPool.unspents maxCointxInputs 10 0 =
      (false, ⟨[Unspent.zero, Unspent.zero], 7, 3, [cointxInput plainChain ⟨5, 1, 1⟩, cointxInput plainChain ⟨2, 1, 2⟩],
        [0, 1]⟩) := by rfl
  refine ⟨hrun, fun h => ?_⟩
  have huntouched := h.untouched _ hrun
  cases huntouched

end contract

end SuperNet.Mgw.MgwInputs
