import SuperNet.Coins.Cointx
import Mathlib.Data.UInt

/-! The joint transaction of a jumblr shuffle: jumblr_cointx of shuffle777.c, with jumblr_decodevout, and when what it
pays out is covered in exact numbers. -/
namespace SuperNet.Agents.Shuffle777Cointx
open SuperNet.Lib.Bytes SuperNet.Utils.Hex SuperNet.Coins.Cointx

structure Vout where
  coinaddr : List Char
  script : List Char
  value : UInt64
  deriving DecidableEq, Repr

/-- What the function reads of `struct coin777`. `btc_convrmd160` gets the type and the 20 bytes of an address. -/
structure Coin where
  convrmd160 : UInt8 → List UInt8 → Option (List Char)
  txfee : UInt64
  donationaddress : List Char
  donationscript : List Char

/-- An input that `jumblr_decodevin` has decoded, and what `ram_verify_txstillthere` says it is worth. -/
structure Verified where
  input : CointxInput
  value : UInt64

def asked (voutstr : List Char) : UInt64 := UInt64.ofNat (leValue ((decodeHex 8 voutstr).take 8))

/-- `jumblr_decodevout`; `none` is its return value -1. -/
def decodevout (coin : Coin) (voutstr : List Char) : Option Vout :=
  let rmd160 := decodeHex 21 (voutstr.drop 16)
  (coin.convrmd160 (rmd160.headD 0) (rmd160.tail.take 20)).map fun coinaddr =>
    ⟨coinaddr, "76a914".toList ++ voutstr.drop 18 ++ "88ac".toList, asked voutstr⟩

/-- A loop that fills an array: broken off, past the end of the array, or through. -/
inductive Filled (α : Type)
  | stopped
  | overflow
  | through (a : α)

/-- The loops of `jumblr_cointx` over the inputs and over the outputs, with the sum they count in. -/
def fillLoop {α β : Type} (room : Nat) (decode : α → Option (β × UInt64)) :
    List α → List β → UInt64 → Filled (List β × UInt64)
  | [], entries, total => .through (entries, total)
  | x :: xs, entries, total =>
    if room ≤ entries.length then .overflow
    else match decode x with
      | none => .stopped
      | some (entry, value) => fillLoop room decode xs (entries ++ [entry]) (total + value)

def readInput (vin : Verified) : Option (CointxInput × UInt64) :=
  if vin.value > 0 then some (vin.input, vin.value) else none

def readOutput (coin : Coin) (voutstr : List Char) : Option (Vout × UInt64) :=
  (decodevout coin voutstr).map fun vout => (vout, vout.value)

structure Jointtx where
  inputs : List CointxInput
  outputs : List Vout

/-- The return value 0, a store past an array of the transaction, or a transaction. -/
inductive Outcome
  | null
  | overflow
  | rawtx (tx : Jointtx)

/-- The excess goes to the donation address. -/
def donates (coin : Coin) (sharedfee : UInt64) : Bool := coin.donationaddress ≠ [] ∧ sharedfee ≥ coin.txfee

def shareExcess (coin : Coin) (numvouts sharedfee : UInt64) (inputs : List CointxInput) (outputs : List Vout) : Outcome :=
  if sharedfee > numvouts then
    if donates coin sharedfee then
      if maxCointxOutputs ≤ outputs.length then .overflow
      else .rawtx ⟨inputs, outputs ++ [⟨coin.donationaddress, coin.donationscript, sharedfee⟩]⟩
    else .rawtx ⟨inputs, outputs.map fun vout => { vout with value := vout.value + sharedfee / numvouts }⟩
  else .rawtx ⟨inputs, outputs⟩

def cointx (coin : Coin) (vins : List Verified) (vouts : List (List Char)) : Outcome :=
  if vouts = [] then .null
  else match fillLoop maxCointxInputs readInput vins [] 0 with
    | .stopped => .null
    | .overflow => .overflow
    | .through (inputs, totalinputs) => match fillLoop maxCointxOutputs (readOutput coin) vouts [] 0 with
      | .stopped => .null
      | .overflow => .overflow
      | .through (outputs, totaloutputs) =>
        let numvouts := UInt64.ofNat vouts.length
        let fee := numvouts * coin.txfee
        if totalinputs < totaloutputs + fee then .null
        else shareExcess coin numvouts (totalinputs - totaloutputs - fee) inputs outputs

def inputSum (vins : List Verified) : Nat := (vins.map fun vin => vin.value.toNat).sum

/-- The exact sum of what is asked for and the fees. -/
def askedSum (coin : Coin) (vouts : List (List Char)) : Nat :=
  (vouts.map fun voutstr => (asked voutstr).toNat).sum + vouts.length * coin.txfee.toNat

/-- What a joint transaction must keep to: in exact numbers its outputs and the fees are covered by its inputs, each
participant gets at least what he asked for, and the outputs are no more than there is room for. -/
structure Covered (coin : Coin) (vins : List Verified) (vouts : List (List Char)) (tx : Jointtx) : Prop where
  sums : (tx.outputs.map fun vout => vout.value.toNat).sum + vouts.length * coin.txfee.toNat ≤ inputSum vins
  paid : List.Forall₂ (fun voutstr vout => asked voutstr ≤ vout.value) vouts (tx.outputs.take vouts.length)
  room : tx.outputs.length ≤ maxCointxOutputs

/-- No transaction that is not covered comes out, and nothing is stored past an array. -/
def Outcome.Sound (coin : Coin) (vins : List Verified) (vouts : List (List Char)) : Outcome → Prop
  | .null => True
  | .overflow => False
  | .rawtx tx => Covered coin vins vouts tx

def NeverOverspends (coin : Coin) (vins : List Verified) (vouts : List (List Char)) : Prop :=
  (cointx coin vins vouts).Sound coin vins vouts

/-- The checks of the code turn the lists down: there is no output, an entry that still fits its array is bad, or the
sums, as words, do not match. -/
def Refused (coin : Coin) (vins : List Verified) (vouts : List (List Char)) : Prop :=
  vouts = [] ∨ (∃ vin ∈ vins.take maxCointxInputs, vin.value = 0) ∨
    vins.length ≤ maxCointxInputs ∧
      ((∃ voutstr ∈ vouts.take maxCointxOutputs, decodevout coin voutstr = none) ∨
        vouts.length ≤ maxCointxOutputs ∧ inputSum vins % 2^64 < askedSum coin vouts % 2^64)

/-- The lists fit their arrays, the exact sums match, and the excess, as a word, has room where it goes. -/
def Fits (coin : Coin) (vins : List Verified) (vouts : List (List Char)) : Prop :=
  vins.length ≤ maxCointxInputs ∧ vouts.length ≤ maxCointxOutputs ∧ askedSum coin vouts ≤ inputSum vins ∧
    let sharedfee := (inputSum vins - askedSum coin vouts) % 2^64
    (sharedfee ≤ vouts.length ∨
      if donates coin (UInt64.ofNat sharedfee) then vouts.length < maxCointxOutputs
      else ∀ voutstr ∈ vouts, (asked voutstr).toNat + sharedfee / vouts.length < 2^64)

section fill
variable {α β : Type} (room : Nat) (decode : α → Option (β × UInt64))

private theorem fillLoop_stopped (xs : List α) (entries : List β) (total : UInt64)
    (h : ∃ x ∈ xs.take (room - entries.length), decode x = none) : fillLoop room decode xs entries total = .stopped := by
  induction xs generalizing entries total with
  | nil =>
    obtain ⟨x, hx, -⟩ := h
    simp at hx
  | cons x xs ih =>
    obtain ⟨y, hy, hnone⟩ := h
    have hroom : entries.length < room := by
      refine Nat.lt_of_not_le fun hle => ?_
      rw [Nat.sub_eq_zero_of_le hle] at hy
      cases hy
    rw [fillLoop, if_neg (Nat.not_le_of_lt hroom)]
    rw [show room - entries.length = (room - (entries.length + 1)) + 1 by omega, List.take_succ_cons] at hy
    cases hdec : decode x with
    | none => rfl
    | some r =>
      refine ih (entries ++ [r.1]) (total + r.2) ⟨y, ?_, hnone⟩
      rcases List.mem_cons.mp hy with rfl | hy
      · rw [hdec] at hnone
        cases hnone
      · rwa [List.length_append, List.length_singleton]

private theorem fillLoop_overflow (xs : List α) (entries : List β) (total : UInt64) (hentries : entries.length ≤ room)
    (h : ∀ x ∈ xs.take (room - entries.length), decode x ≠ none) (hlong : room < entries.length + xs.length) :
    fillLoop room decode xs entries total = .overflow := by
  induction xs generalizing entries total with
  | nil => exact absurd hlong (by simpa using hentries)
  | cons x xs ih =>
    rw [fillLoop]
    by_cases hfull : room ≤ entries.length
    case pos => exact if_pos hfull
    case neg =>
      rw [if_neg hfull]
      rw [show room - entries.length = (room - (entries.length + 1)) + 1 by omega, List.take_succ_cons] at h
      cases hdec : decode x with
      | none => exact absurd hdec (h x List.mem_cons_self)
      | some r =>
        rw [List.length_cons] at hlong
        refine ih (entries ++ [r.1]) (total + r.2) ?_ (fun y hy => h y (List.mem_cons_of_mem x ?_)) ?_
        · rw [List.length_append, List.length_singleton]
          omega
        · rwa [List.length_append, List.length_singleton] at hy
        · rw [List.length_append, List.length_singleton]
          omega

private theorem fillLoop_through (xs : List α) (ys : List (β × UInt64)) (entries : List β) (total : UInt64)
    (h : xs.map decode = ys.map some) (hroom : entries.length + xs.length ≤ room) :
    fillLoop room decode xs entries total = .through (entries ++ ys.map Prod.fst, total + (ys.map Prod.snd).sum) := by
  induction xs generalizing ys entries total with
  | nil =>
    obtain rfl : ys = [] := by simpa using h.symm
    simp [fillLoop]
  | cons x xs ih =>
    cases ys with
    | nil => cases h
    | cons y ys =>
      rw [List.map_cons, List.map_cons, List.cons.injEq] at h
      rw [List.length_cons] at hroom
      rw [fillLoop, if_neg (by omega), h.1]
      have hrest := ih ys (entries ++ [y.1]) (total + y.2) h.2
        (by rw [List.length_append, List.length_singleton]; omega)
      rw [List.map_cons, List.map_cons, List.sum_cons, ← add_assoc, List.append_cons]
      exact hrest

end fill

section sums
variable {coin : Coin} {vins : List Verified} {vouts : List (List Char)}

private theorem sum_word (values : List UInt64) : values.sum.toNat = (values.map UInt64.toNat).sum % 2^64 := by
  induction values with
  | nil => rfl
  | cons value values ih =>
    rw [List.sum_cons, List.map_cons, List.sum_cons, UInt64.toNat_add, ih, Nat.add_mod_mod]

private theorem le_add_iff (x q : UInt64) : x ≤ x + q ↔ x.toNat + q.toNat < 2^64 := by
  have hx := x.toNat_lt
  have hq := q.toNat_lt
  rw [UInt64.le_iff_toNat_le, UInt64.toNat_add]
  omega

private theorem excess_words {paid due excess : Nat} (h : paid % 2^64 = due % 2^64 + excess) (hword : excess < 2^64) :
    (due ≤ paid → due + excess ≤ paid) ∧ (due ≤ paid → (paid - due) % 2^64 = excess) := by
  omega

private theorem paid_iff {outs : List Vout} (f : UInt64 → UInt64) (houts : outs.map Vout.value = vouts.map asked) :
    List.Forall₂ (fun voutstr vout => asked voutstr ≤ vout.value) vouts
      (outs.map fun vout => { vout with value := f vout.value }) ↔ ∀ voutstr ∈ vouts, asked voutstr ≤ f (asked voutstr) := by
  induction vouts generalizing outs with
  | nil =>
    obtain rfl : outs = [] := by simpa using houts
    simp
  | cons voutstr vouts ih =>
    cases outs with
    | nil => cases houts
    | cons vout outs =>
      rw [List.map_cons, List.map_cons, List.cons.injEq] at houts
      rw [List.map_cons, List.forall₂_cons, ih houts.2, List.forall_mem_cons, houts.1]

private theorem asked_sum (coin : Coin) {outs : List Vout} (houts : outs.map Vout.value = vouts.map asked) :
    (outs.map fun vout => vout.value.toNat).sum + vouts.length * coin.txfee.toNat = askedSum coin vouts := by
  have hmap : (outs.map fun vout => vout.value.toNat) = (outs.map Vout.value).map UInt64.toNat := by
    rw [List.map_map]
    rfl
  rw [hmap, houts, List.map_map]
  rfl

private theorem shared_sum {outs : List Vout} (q : UInt64)
    (h : ∀ vout ∈ outs, vout.value.toNat + q.toNat < 2^64) :
    ((outs.map fun vout => { vout with value := vout.value + q }).map fun vout => vout.value.toNat).sum =
      (outs.map fun vout => vout.value.toNat).sum + outs.length * q.toNat := by
  induction outs with
  | nil => simp
  | cons vout outs ih =>
    have hfirst := h vout List.mem_cons_self
    have hrest := ih fun v hv => h v (List.mem_cons_of_mem vout hv)
    have hadd : (vout.value + q).toNat = vout.value.toNat + q.toNat := by
      rw [UInt64.toNat_add, Nat.mod_eq_of_lt hfirst]
    rw [List.map_cons, List.map_cons, List.sum_cons, hrest, List.map_cons, List.sum_cons, List.length_cons, hadd]
    ring

variable {inputs : List CointxInput} {outs : List Vout} {sharedfee : UInt64}

private theorem numvouts_word (hfew : vouts.length ≤ maxCointxOutputs) :
    (UInt64.ofNat vouts.length).toNat = vouts.length :=
  UInt64.toNat_ofNat_of_lt' (by rw [maxCointxOutputs] at hfew; change _ < 2^64; omega)

private theorem paid_asked (houts : outs.map Vout.value = vouts.map asked) :
    List.Forall₂ (fun voutstr vout => asked voutstr ≤ vout.value) vouts outs := by
  have hpaid := (paid_iff id houts).mpr fun voutstr _ => UInt64.le_refl _
  rwa [show (outs.map fun vout => { vout with value := id vout.value }) = outs from List.map_id outs] at hpaid

private theorem covered_kept_iff (hfew : vouts.length ≤ maxCointxOutputs) (houts : outs.map Vout.value = vouts.map asked) :
    Covered coin vins vouts ⟨inputs, outs⟩ ↔ askedSum coin vouts ≤ inputSum vins := by
  have hlen : outs.length = vouts.length := by simpa using congrArg List.length houts
  have hsum := asked_sum coin houts
  constructor
  · intro h
    rw [← hsum]
    exact h.sums
  · intro h
    refine ⟨by rw [hsum]; exact h, ?_, by rw [hlen]; exact hfew⟩
    rw [← hlen, List.take_length]
    exact paid_asked houts

private theorem covered_donated_iff (hroom : vouts.length < maxCointxOutputs) (houts : outs.map Vout.value = vouts.map asked)
    (hexcess : inputSum vins % 2^64 = askedSum coin vouts % 2^64 + sharedfee.toNat) :
    Covered coin vins vouts ⟨inputs, outs ++ [⟨coin.donationaddress, coin.donationscript, sharedfee⟩]⟩ ↔
      askedSum coin vouts ≤ inputSum vins := by
  obtain ⟨hcover, -⟩ := excess_words hexcess sharedfee.toNat_lt
  have hlen : outs.length = vouts.length := by simpa using congrArg List.length houts
  have hsum := asked_sum coin houts
  constructor
  · intro h
    have hsums := h.sums
    rw [List.map_append, List.sum_append, List.map_singleton, List.sum_singleton] at hsums
    omega
  · intro h
    refine ⟨?_, ?_, ?_⟩
    · rw [List.map_append, List.sum_append, List.map_singleton, List.sum_singleton]
      have := hcover h
      dsimp only
      omega
    · rw [← hlen, List.take_left]
      exact paid_asked houts
    · rw [List.length_append, List.length_singleton, hlen]
      exact hroom

private theorem covered_shared_iff (hfew : vouts.length ≤ maxCointxOutputs) (houts : outs.map Vout.value = vouts.map asked)
    (hexcess : inputSum vins % 2^64 = askedSum coin vouts % 2^64 + sharedfee.toNat) :
    Covered coin vins vouts
        ⟨inputs, outs.map fun vout => { vout with value := vout.value + sharedfee / UInt64.ofNat vouts.length }⟩ ↔
      askedSum coin vouts ≤ inputSum vins ∧
        ∀ voutstr ∈ vouts, (asked voutstr).toNat + sharedfee.toNat / vouts.length < 2^64 := by
  obtain ⟨hcover, -⟩ := excess_words hexcess sharedfee.toNat_lt
  have hlen : outs.length = vouts.length := by simpa using congrArg List.length houts
  have hsum := asked_sum coin houts
  have hquot : (sharedfee / UInt64.ofNat vouts.length).toNat = sharedfee.toNat / vouts.length := by
    rw [UInt64.toNat_div, numvouts_word hfew]
  have hiff := paid_iff (fun x => x + sharedfee / UInt64.ofNat vouts.length) houts
  simp only [le_add_iff, hquot] at hiff
  have htake : (outs.map fun vout =>
      { vout with value := vout.value + sharedfee / UInt64.ofNat vouts.length }).take vouts.length =
      outs.map fun vout => { vout with value := vout.value + sharedfee / UInt64.ofNat vouts.length } :=
    List.take_of_length_le (by rw [List.length_map, hlen])
  have hwraps : (∀ voutstr ∈ vouts, (asked voutstr).toNat + sharedfee.toNat / vouts.length < 2^64) →
      ∀ vout ∈ outs, vout.value.toNat + (sharedfee / UInt64.ofNat vouts.length).toNat < 2^64 := by
    intro h vout hvout
    obtain ⟨voutstr, hmem, heq⟩ := List.mem_map.mp (houts ▸ List.mem_map_of_mem hvout)
    rw [hquot, ← heq]
    exact h voutstr hmem
  have hshares := Nat.mul_div_le sharedfee.toNat vouts.length
  constructor
  · intro h
    have hpaid' := h.paid
    dsimp only at hpaid'
    rw [htake] at hpaid'
    have hfits := hiff.mp hpaid'
    have hsums := h.sums
    dsimp only at hsums
    rw [shared_sum _ (hwraps hfits)] at hsums
    exact ⟨by omega, hfits⟩
  · rintro ⟨h, hfits⟩
    refine ⟨?_, ?_, ?_⟩
    · dsimp only
      rw [shared_sum _ (hwraps hfits), hquot, hlen]
      have := hcover h
      omega
    · dsimp only
      rw [htake]
      exact hiff.mpr hfits
    · dsimp only
      rw [List.length_map, hlen]
      exact hfew

private theorem shareExcess_sound_iff (hfew : vouts.length ≤ maxCointxOutputs)
    (houts : outs.map Vout.value = vouts.map asked)
    (hexcess : inputSum vins % 2^64 = askedSum coin vouts % 2^64 + sharedfee.toNat) :
    (shareExcess coin (UInt64.ofNat vouts.length) sharedfee inputs outs).Sound coin vins vouts ↔
      askedSum coin vouts ≤ inputSum vins ∧ (sharedfee.toNat ≤ vouts.length ∨
        if donates coin sharedfee then vouts.length < maxCointxOutputs
        else ∀ voutstr ∈ vouts, (asked voutstr).toNat + sharedfee.toNat / vouts.length < 2^64) := by
  have hlen : outs.length = vouts.length := by simpa using congrArg List.length houts
  have hlarge : sharedfee > UInt64.ofNat vouts.length ↔ ¬ sharedfee.toNat ≤ vouts.length := by
    rw [gt_iff_lt, UInt64.lt_iff_toNat_lt, numvouts_word hfew, not_le]
  rw [shareExcess]
  by_cases hle : sharedfee.toNat ≤ vouts.length
  case pos =>
    rw [if_neg fun h => hlarge.mp h hle, and_iff_left (.inl hle)]
    exact covered_kept_iff hfew houts
  rw [if_pos (hlarge.mpr hle), or_iff_right hle]
  by_cases hdonates : donates coin sharedfee = true
  case neg =>
    rw [if_neg hdonates, if_neg hdonates]
    exact covered_shared_iff hfew houts hexcess
  rw [if_pos hdonates, if_pos hdonates, hlen]
  by_cases hfull : maxCointxOutputs ≤ vouts.length
  case pos =>
    rw [if_pos hfull]
    exact iff_of_false id fun h => absurd h.2 (Nat.not_lt_of_le hfull)
  case neg =>
    rw [if_neg hfull, and_iff_left (Nat.lt_of_not_le hfull)]
    exact covered_donated_iff (Nat.lt_of_not_le hfull) houts hexcess

private theorem readInput_none {vin : Verified} : readInput vin = none ↔ vin.value = 0 := by
  rw [readInput]
  split
  case isTrue hpos => exact ⟨fun h => (by cases h), fun h0 => absurd hpos (by rw [h0]; decide)⟩
  case isFalse hpos => exact ⟨fun _ => not_not.mp fun hne => hpos (UInt64.pos_iff_ne_zero.mpr hne), fun _ => rfl⟩

private theorem readInputs_some (h : ∀ vin ∈ vins, vin.value ≠ 0) :
    vins.map readInput = (vins.map fun vin => (vin.input, vin.value)).map some := by
  rw [List.map_map]
  refine List.map_congr_left fun vin hvin => if_pos ?_
  rw [gt_iff_lt, UInt64.lt_iff_toNat_lt]
  exact Nat.pos_of_ne_zero fun h0 => h vin hvin (UInt64.toNat_inj.mp h0)

private theorem readOutputs_some (coin : Coin) (vouts : List (List Char)) (h : ∀ voutstr ∈ vouts, decodevout coin voutstr ≠ none) :
    ∃ outs : List Vout, vouts.map (readOutput coin) = (outs.map fun vout => (vout, vout.value)).map some ∧
      outs.map Vout.value = vouts.map asked := by
  induction vouts with
  | nil => exact ⟨[], rfl, rfl⟩
  | cons voutstr vouts ih =>
    obtain ⟨outs, hread, hvalue⟩ := ih fun v hv => h v (List.mem_cons_of_mem voutstr hv)
    cases hdec : decodevout coin voutstr with
    | none => exact absurd hdec (h voutstr List.mem_cons_self)
    | some vout =>
      have hfirst : vout.value = asked voutstr := by
        rw [decodevout] at hdec
        obtain ⟨coinaddr, -, rfl⟩ := Option.map_eq_some_iff.mp hdec
        rfl
      refine ⟨vout :: outs, ?_, ?_⟩
      · rw [List.map_cons, hread, readOutput, hdec]
        rfl
      · rw [List.map_cons, List.map_cons, hvalue, hfirst]

private theorem asked_word (coin : Coin) (hfew : vouts.length ≤ maxCointxOutputs) (houts : outs.map Vout.value = vouts.map asked) :
    ((outs.map Vout.value).sum + UInt64.ofNat vouts.length * coin.txfee).toNat = askedSum coin vouts % 2^64 := by
  rw [UInt64.toNat_add, UInt64.toNat_mul, numvouts_word hfew, sum_word, houts, List.map_map, ← Nat.add_mod]
  rfl

private theorem cointx_through (hsome : vouts ≠ []) (hvins : vins.length ≤ maxCointxInputs)
    (hgood : ∀ vin ∈ vins, vin.value ≠ 0) (hfew : vouts.length ≤ maxCointxOutputs)
    (hread : vouts.map (readOutput coin) = (outs.map fun vout => (vout, vout.value)).map some) :
    cointx coin vins vouts =
      if (vins.map Verified.value).sum < (outs.map Vout.value).sum + UInt64.ofNat vouts.length * coin.txfee then .null
      else shareExcess coin (UInt64.ofNat vouts.length)
        ((vins.map Verified.value).sum - (outs.map Vout.value).sum - UInt64.ofNat vouts.length * coin.txfee)
        (vins.map Verified.input) outs := by
  have hin := fillLoop_through maxCointxInputs _ vins _ [] 0 (readInputs_some hgood) (by simpa using hvins)
  have hout := fillLoop_through maxCointxOutputs _ vouts _ [] 0 hread (by simpa using hfew)
  simp only [List.nil_append, zero_add, List.map_map] at hin hout
  rw [cointx, if_neg hsome, hin]
  dsimp only
  rw [hout]
  simp only [Function.comp_def, List.map_id']

private theorem good_of_not_zero (h : ¬ ∃ vin ∈ vins.take maxCointxInputs, vin.value = 0)
    (hvins : vins.length ≤ maxCointxInputs) : ∀ vin ∈ vins, vin.value ≠ 0 := by
  intro vin hvin h0
  exact h ⟨vin, by rwa [List.take_of_length_le hvins], h0⟩

private theorem inputs_word (vins : List Verified) : (vins.map Verified.value).sum.toNat = inputSum vins % 2^64 := by
  rw [sum_word, List.map_map]
  rfl

private theorem cointx_outputs (hsome : vouts ≠ []) (hvins : vins.length ≤ maxCointxInputs)
    (hgood : ∀ vin ∈ vins, vin.value ≠ 0) {r : Filled (List Vout × UInt64)}
    (hr : fillLoop maxCointxOutputs (readOutput coin) vouts [] 0 = r) :
    (r = .stopped → cointx coin vins vouts = .null) ∧ (r = .overflow → cointx coin vins vouts = .overflow) := by
  have hin := fillLoop_through maxCointxInputs _ vins _ [] 0 (readInputs_some hgood) (by simpa using hvins)
  rw [cointx, if_neg hsome, hin]
  dsimp only
  rw [hr]
  refine ⟨?_, ?_⟩
  · rintro rfl
    rfl
  · rintro rfl
    rfl

private theorem cointx_refused (h : Refused coin vins vouts) : cointx coin vins vouts = .null := by
  by_cases hnil : vouts = []
  case pos => exact if_pos hnil
  by_cases hzero : ∃ vin ∈ vins.take maxCointxInputs, vin.value = 0
  case pos =>
    obtain ⟨vin, hvin, hvalue⟩ := hzero
    have hstop := fillLoop_stopped maxCointxInputs _ vins [] 0 ⟨vin, hvin, readInput_none.mpr hvalue⟩
    rw [cointx, if_neg hnil, hstop]
  obtain ⟨hvins, hsums⟩ := (h.resolve_left hnil).resolve_left hzero
  have hgood := good_of_not_zero hzero hvins
  by_cases hbad : ∃ voutstr ∈ vouts.take maxCointxOutputs, decodevout coin voutstr = none
  case pos =>
    obtain ⟨voutstr, hmem, hnone⟩ := hbad
    have hstop := fillLoop_stopped maxCointxOutputs (readOutput coin) vouts [] 0
      ⟨voutstr, hmem, by rw [readOutput, hnone]; rfl⟩
    exact (cointx_outputs hnil hvins hgood hstop).1 rfl
  obtain ⟨hfew, hless⟩ := hsums.resolve_left hbad
  obtain ⟨outs, hread, houts⟩ := readOutputs_some coin vouts fun voutstr hmem hnone =>
    hbad ⟨voutstr, by rwa [List.take_of_length_le hfew], hnone⟩
  rw [cointx_through hnil hvins hgood hfew hread, if_pos]
  rw [UInt64.lt_iff_toNat_lt, inputs_word, asked_word coin hfew houts]
  exact hless

private theorem sound_iff_fits (h : ¬ Refused coin vins vouts) :
    (cointx coin vins vouts).Sound coin vins vouts ↔ Fits coin vins vouts := by
  obtain ⟨hnil, hrest⟩ := not_or.mp h
  obtain ⟨hzero, hrest⟩ := not_or.mp hrest
  by_cases hvins : vins.length ≤ maxCointxInputs
  case neg =>
    have hover := fillLoop_overflow maxCointxInputs readInput vins [] 0 (Nat.zero_le _)
      (fun vin hvin hnone => hzero ⟨vin, hvin, readInput_none.mp hnone⟩) (by simpa using hvins)
    rw [cointx, if_neg hnil, hover]
    exact iff_of_false id fun hfits => hvins hfits.1
  obtain ⟨hbad, hrest⟩ := not_or.mp (not_and.mp hrest hvins)
  have hgood := good_of_not_zero hzero hvins
  by_cases hfew : vouts.length ≤ maxCointxOutputs
  case neg =>
    have hover := fillLoop_overflow maxCointxOutputs (readOutput coin) vouts [] 0 (Nat.zero_le _)
      (fun voutstr hmem hnone => hbad ⟨voutstr, hmem, Option.map_eq_none_iff.mp hnone⟩) (by simpa using hfew)
    rw [(cointx_outputs hnil hvins hgood hover).2 rfl]
    exact iff_of_false id fun hfits => hfew hfits.2.1
  have hless := not_and.mp hrest hfew
  obtain ⟨outs, hread, houts⟩ := readOutputs_some coin vouts fun voutstr hmem hnone =>
    hbad ⟨voutstr, by rwa [List.take_of_length_le hfew], hnone⟩
  have hpaid := inputs_word vins
  have hdue := asked_word coin hfew houts
  have hexcess : inputSum vins % 2^64 = askedSum coin vouts % 2^64 + ((vins.map Verified.value).sum -
      (outs.map Vout.value).sum - UInt64.ofNat vouts.length * coin.txfee).toNat := by
    rw [sub_sub, UInt64.toNat_sub_of_le _ _ (by rw [UInt64.le_iff_toNat_le, hpaid, hdue]; omega), hpaid, hdue]
    omega
  rw [cointx_through hnil hvins hgood hfew hread, if_neg (by rw [UInt64.lt_iff_toNat_lt, hpaid, hdue]; exact hless),
    shareExcess_sound_iff hfew houts hexcess, Fits, and_iff_right hvins, and_iff_right hfew]
  refine and_congr_right fun hle => ?_
  obtain ⟨-, hshared⟩ := excess_words hexcess (UInt64.toNat_lt _)
  rw [hshared hle]
  dsimp only
  rw [UInt64.ofNat_toNat]

end sums

/-- `jumblr_cointx` overspends nothing iff one of its checks turns the lists down, or they fit their arrays, their exact
sums match and no share wraps. -/
theorem neverOverspends_iff (coin : Coin) (vins : List Verified) (vouts : List (List Char)) :
    NeverOverspends coin vins vouts ↔ Refused coin vins vouts ∨ Fits coin vins vouts := by
  rw [NeverOverspends]
  by_cases h : Refused coin vins vouts
  case pos =>
    rw [cointx_refused h]
    exact ⟨fun _ => .inl h, fun _ => trivial⟩
  case neg => rw [sound_iff_fits h, or_iff_right h]

/-- A coin with a fee of 10000 whose addresses are the hex of their bytes. -/
def hexCoin : Coin where
  convrmd160 addrtype rmd160 := some (initHexbytesNoT (addrtype :: rmd160))
  txfee := 10000
  donationaddress := []
  donationscript := []

/-- Two participants who ask for 2^63 each. -/
def halves : List (List Char) :=
  ['1', '2'].map fun c => "0000000000000080".toList ++ "3c".toList ++ List.replicate 40 c

/-- One input of the two fees pays for both, as the sum of their amounts is 0 in a word. -/
theorem halves_overspend : ¬ NeverOverspends hexCoin [⟨⟨[], 0, [], 0xffffffff⟩, 20000⟩] halves := by
  intro h
  have houtputs : ∃ tx, cointx hexCoin [⟨⟨[], 0, [], 0xffffffff⟩, 20000⟩] halves = .rawtx tx ∧
      (tx.outputs.map fun vout => vout.value.toNat).sum = 2^64 := ⟨_, rfl, by decide +kernel⟩
  obtain ⟨tx, htx, hsum⟩ := houtputs
  rw [NeverOverspends, htx] at h
  have hsums := h.sums
  rw [hsum] at hsums
  exact absurd hsums (by decide)

end SuperNet.Agents.Shuffle777Cointx
