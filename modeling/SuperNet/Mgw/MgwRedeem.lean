import SuperNet.Mgw.MgwStatus
import SuperNet.Mgw.MgwOpreturn
import SuperNet.Coins.Coin777
import Mathlib.Data.Nat.Bitwise
import Mathlib.Data.Rat.Floor

/-! Whether the chain shows that a redeem is paid: mgw_is_mgwtx and mgw_update_redeem of MGW_main.c, with
coin777_unspentmap and coin777_scriptind of coins777.c. A rounding `fl` stands for the arithmetic of doubles. -/
namespace SuperNet.Mgw.MgwRedeem
open Utils.Hex Coins.Coin777 MgwStatus MgwOpreturn

/-- What lies outside of the process: `find_msigaddr`, `validate_coinaddr`, and the rounding. -/
structure World where
  findMsigaddr : List Char → Bool
  validateCoinaddr : List Char → Bool
  fl : Rat → Rat

structure Gateway where
  coin : Coin
  readyflag : Bool
  doOpreturn : Bool
  markerAddrind : Nat
  marker2Addrind : Nat
  redeemheight : Nat
  isLimboRedeem : Nat → Bool
  withdraws : List ExtraInfo
  withdrawsum : Nat

def maxWithdraws : Nat := 512

def inputs (coin : Coin) (txidind : Nat) : List SpendInfo :=
  let first := (coin.txoffsets txidind).2
  (List.range' first ((coin.txoffsets (txidind + 1)).2 - first)).map coin.spends

def outputs (coin : Coin) (txidind : Nat) : List UnspentInfo :=
  let first := (coin.txoffsets txidind).1
  (List.range' first ((coin.txoffsets (txidind + 1)).1 - first)).map coin.unspents

def inputAddr (coin : Coin) (S : SpendInfo) : List Char :=
  (coin.addrinfos (coin.unspents S.unspentind).addrind).coinaddr

/-- The script string of an output: the one in the record of its address, when that has one. -/
def outScriptstr (coin : Coin) (U : UnspentInfo) : List Char :=
  let A := coin.addrinfos U.addrind
  if A.script ≠ [] then initHexbytesNoT A.script else coin.scriptstr 8192 U.rawindOrBlocknum U.addrind

def readScript (coin : Coin) (script : Nat → UInt8) (U : UnspentInfo) : Nat → UInt8 :=
  decodeHexInto script ((outScriptstr coin U).length / 2) (outScriptstr coin U)

def readId (coin : Coin) (script : Nat → UInt8) (U : UnspentInfo) : UInt64 :=
  mgwDecodeOpReturn (readScript coin script U) ((outScriptstr coin U).length / 2)

/-- `U.value <= value && U.value >= value*.99`. -/
def Near (fl : Rat → Rat) (value : Nat) (U : UnspentInfo) : Prop :=
  U.value.toNat ≤ value ∧ fl U.value.toNat ≥ fl (fl value * fl (99 / 100))

instance instDecidableNear (fl : Rat → Rat) (value : Nat) (U : UnspentInfo) : Decidable (Near fl value U) :=
  inferInstanceAs (Decidable (_ ∧ _))

structure Scan where
  script : Nat → UInt8
  redeemtxid : UInt64

def scanOutput (fl : Rat → Rat) (coin : Coin) (value : Nat) (s : Scan) (U : UnspentInfo) : Scan :=
  let tmp := readId coin s.script U
  { script := readScript coin s.script U
    redeemtxid := if tmp ≠ 0 then tmp else if Near fl value U then s.redeemtxid ||| 4 else s.redeemtxid }

/-- `mgw_is_mgwtx`; `stack` is what its script buffer holds before the first output. -/
def mgwIsMgwtx (w : World) (gw : Gateway) (stack : Nat → UInt8) (txidind value : Nat) : UInt64 :=
  let first := (gw.coin.unspents (gw.coin.txoffsets txidind).1).addrind
  let redeemtxid : UInt64 := if first = gw.markerAddrind ∨ first = gw.marker2Addrind then 1 else 0
  let missing := (inputs gw.coin txidind).countP fun S => !w.findMsigaddr (inputAddr gw.coin S)
  if missing ≠ 0 then redeemtxid
  else ((outputs gw.coin txidind).foldl (scanOutput w.fl gw.coin value) ⟨stack, redeemtxid ||| 2⟩).redeemtxid

/-- The loop of `coin777_unspentmap` with `n` probes to go: `none` is still searching, `some none` its
return value -1. -/
def unspentmapLoop (txoffsets : Nat → Nat × Nat) (unspentind : Nat) : Nat → Nat → Nat → Option (Option (Nat × Nat))
  | 0, _, _ => none
  | n + 1, floor, ceiling =>
    if floor = ceiling then some none
    else
      let probe := (floor + ceiling) / 2
      let firstvout := (txoffsets probe).1
      let lastvout := (txoffsets (probe + 1)).1
      if firstvout = 0 ∨ lastvout = 0 then some none
      else if unspentind < firstvout then unspentmapLoop txoffsets unspentind n floor probe
      else if unspentind ≥ lastvout then unspentmapLoop txoffsets unspentind n probe ceiling
      else some (some (probe, unspentind - firstvout))

def unspentmap (n : Nat) (coin : Coin) (unspentind : Nat) : Option (Option (Nat × Nat)) :=
  unspentmapLoop coin.txoffsets unspentind n 1 coin.latest.txidind

def coin777Addrind (coin : Coin) (coinaddr : List Char) : Nat :=
  if coinaddr = [] then 0 else (coin.addrDB coinaddr).getD 0

def coin777Scriptind (coin : Coin) (coinaddr scriptstr : List Char) : Nat :=
  if scriptstr = [] then 0xffffffff
  else
    let script := decodeScript scriptstr
    let addrind := coin777Addrind coin coinaddr
    if addrind ≠ 0 ∧ coin.script0 addrind script then 0
    else if coin.scriptDBind script = 0 then 0xffffffff
    else coin.scriptDBind script

def destEntries (coin : Coin) (extra : ExtraInfo) : List AddrtxInfo :=
  let addrind := coin777Addrind coin extra.coindata
  if addrind ≠ 0 then coin.entries addrind (coin.ledger addrind) else []

/-- The loop of `mgw_update_redeem` from the entry `i` on: whether an entry belongs to the withdraw. -/
def matchLoop (w : World) (n : Nat) (stack : Nat → Nat → UInt8) (gw : Gateway) (extra : ExtraInfo) :
    List AddrtxInfo → Nat → Option Bool
  | [], _ => some false
  | atx :: rest, i => match unspentmap n gw.coin atx.unspentind with
    | none => none
    | some none => matchLoop w n stack gw extra rest (i + 1)
    | some (some (txidind, _)) =>
      if (mgwIsMgwtx w gw (stack i) txidind extra.amount).toNat = extra.txidbits then some true
      else matchLoop w n stack gw extra rest (i + 1)

/-- A withdraw that is still to be paid. -/
def Gateway.addWithdraw (gw : Gateway) (extra : ExtraInfo) : Gateway :=
  if gw.withdraws.length < maxWithdraws then
    { gw with
      withdrawsum := (gw.withdrawsum + extra.amount) % 2^64
      withdraws := gw.withdraws ++ [extra] }
  else gw

/-- `mgw_update_redeem`; `none` is a search that has not ended after `n` probes. -/
def mgwUpdateRedeem (w : World) (n : Nat) (stack : Nat → Nat → UInt8) (gw : Gateway) (extra : ExtraInfo) :
    Option (Status × Gateway) :=
  if gw.readyflag ∧ extra.flags &&& mgwPendingredeem ≠ 0 then
    if gw.isLimboRedeem extra.txidbits then some (mgwWithdrawdone, gw)
    else
      let scriptstr := calcOpreturnScript (UInt64.ofNat extra.txidbits) gw.doOpreturn
      let scriptind := coin777Scriptind gw.coin extra.coindata scriptstr
      if 0 < scriptind ∧ scriptind < 0xffffffff then some (mgwWithdrawdone, gw)
      else match matchLoop w n stack gw extra (destEntries gw.coin extra) 0 with
        | none => none
        | some true => some (mgwWithdrawdone, gw)
        | some false =>
          if gw.redeemheight = 0 ∨ extra.height ≥ gw.redeemheight then
            if w.validateCoinaddr extra.coindata then some (0, gw.addWithdraw extra)
            else some (mgwWithdrawdone, gw)
          else some (0, gw)
  else some (0, gw)

/-- The offsets of the transactions rise, and the unspents of some entries lie between them. -/
structure Searchable (coin : Coin) (entries : List AddrtxInfo) : Prop where
  rising : ∀ t, 1 ≤ t → t < coin.latest.txidind →
    0 < (coin.txoffsets t).1 ∧ (coin.txoffsets t).1 ≤ (coin.txoffsets (t + 1)).1
  covered : ∀ atx ∈ entries, (coin.txoffsets 1).1 ≤ atx.unspentind ∧
    atx.unspentind < (coin.txoffsets coin.latest.txidind).1

/-- A transaction of the gateway on the chain that pays a pending redeem: its inputs are the gateway's own, the
address of the redeem has one of its outputs, and between `before` and `behind` stands the marker output. No id is
read from an output behind that. -/
structure Pays (w : World) (gw : Gateway) (extra : ExtraInfo) (redeemtxid : UInt64) (txidind : Nat)
    (before : List UnspentInfo) (marker : UnspentInfo) (behind : List UnspentInfo) : Prop where
  ready : gw.readyflag = true
  pending : extra.flags &&& mgwPendingredeem ≠ 0
  txidbits : extra.txidbits = redeemtxid.toNat
  own : ∀ S ∈ inputs gw.coin txidind, w.findMsigaddr (inputAddr gw.coin S) = true
  order : outputs gw.coin txidind = before ++ marker :: behind
  marked : outScriptstr gw.coin marker = calcOpreturnScript redeemtxid gw.doOpreturn
  single : ∀ stack mid U rest, behind = mid ++ U :: rest →
    readId gw.coin ((before ++ marker :: mid).foldl (readScript gw.coin) stack) U = 0
  located : 1 ≤ txidind ∧ txidind < gw.coin.latest.txidind
  listed : ∃ atx ∈ destEntries gw.coin extra, (gw.coin.txoffsets txidind).1 ≤ atx.unspentind ∧
    atx.unspentind < (gw.coin.txoffsets (txidind + 1)).1
  searchable : Searchable gw.coin (destEntries gw.coin extra)

/-- What recognising a redeem comes to. -/
structure Recognised (w : World) (gw : Gateway) (extra : ExtraInfo) (redeemtxid : UInt64) (txidind : Nat) : Prop where
  decoded : ∀ script, mgwDecodeOpReturn
    (decodeHexInto script ((calcOpreturnScript redeemtxid gw.doOpreturn).length / 2)
      (calcOpreturnScript redeemtxid gw.doOpreturn))
    ((calcOpreturnScript redeemtxid gw.doOpreturn).length / 2) = redeemtxid
  scanned : ∀ stack, mgwIsMgwtx w gw stack txidind extra.amount = redeemtxid
  done : ∀ stack, ∃ n, mgwUpdateRedeem w n stack gw extra = some (mgwWithdrawdone, gw)

private theorem readback (script : Nat → UInt8) {bs : List UInt8} {i : Nat} (hi : i < bs.length) :
    decodeHexInto script bs.length (initHexbytesNoT bs) i = bs.getD i 0 := by
  have hne : bs ≠ [] := by
    rintro rfl
    exact absurd hi (Nat.not_lt_zero i)
  rw [decodeHexInto_bytes script hne, List.getD_eq_getElem?_getD, List.getD_eq_getElem?_getD, List.getElem?_eq_getElem hi,
    Option.getD_some, Option.getD_some]

/-- Either script, read behind whatever the buffer held. -/
theorem decode_calcOpreturnScript (script : Nat → UInt8) (redeemtxid : UInt64) (doOpreturn : Bool) :
    let scriptstr := calcOpreturnScript redeemtxid doOpreturn
    mgwDecodeOpReturn (decodeHexInto script (scriptstr.length / 2) scriptstr) (scriptstr.length / 2) =
      if doOpreturn then 0 else redeemtxid := by
  intro scriptstr
  have hlen : ∀ bs : List UInt8, (initHexbytesNoT bs).length / 2 = bs.length := by
    intro bs
    rw [initHexbytesNoT_length]
    omega
  cases doOpreturn with
  | true =>
    have hscript : scriptstr = initHexbytesNoT (opReturnScript redeemtxid) := calcOpreturnScript_bytes redeemtxid true
    rw [hscript, hlen]
    exact decode_opReturnScript _ redeemtxid fun i hi => readback script hi
  | false =>
    have hscript : scriptstr = initHexbytesNoT (markerScript redeemtxid) := calcOpreturnScript_bytes redeemtxid false
    rw [hscript, hlen]
    exact decode_markerScript _ redeemtxid fun i hi => readback script hi

variable {fl : Rat → Rat} {coin : Coin} {value : Nat} {r : UInt64}

private theorem or_four_ne_zero (r : UInt64) : r ||| 4 ≠ 0 := by
  intro h
  have hbit : (r ||| 4).toNat.testBit 2 = false := by
    rw [h]
    rfl
  rw [UInt64.toNat_or, Nat.testBit_or, show (4 : UInt64).toNat.testBit 2 = true from rfl, Bool.or_true] at hbit
  cases hbit

private theorem scan_ne_zero (us : List UnspentInfo) (s : Scan) (h : s.redeemtxid ≠ 0) :
    (us.foldl (scanOutput fl coin value) s).redeemtxid ≠ 0 := by
  induction us generalizing s with
  | nil => exact h
  | cons U us ih =>
    apply ih
    rw [scanOutput]
    dsimp only
    split
    · assumption
    · split
      · exact or_four_ne_zero _
      · exact h

private theorem scan_script (us : List UnspentInfo) (s : Scan) :
    (us.foldl (scanOutput fl coin value) s).script = us.foldl (readScript coin) s.script := by
  induction us generalizing s with
  | nil => rfl
  | cons U us ih => exact ih _

private theorem scan_plain (us : List UnspentInfo) (s : Scan)
    (h : ∀ mid U rest, us = mid ++ U :: rest → readId coin (mid.foldl (readScript coin) s.script) U = 0) :
    (us.foldl (scanOutput fl coin value) s).redeemtxid =
      if ∃ U ∈ us, Near fl value U then s.redeemtxid ||| 4 else s.redeemtxid := by
  induction us generalizing s with
  | nil =>
    rw [if_neg]
    · rfl
    · rintro ⟨U, hU, -⟩
      cases hU
  | cons V us ih =>
    have hV : readId coin s.script V = 0 := h [] V us rfl
    have hstep : (scanOutput fl coin value s V).redeemtxid =
        if Near fl value V then s.redeemtxid ||| 4 else s.redeemtxid := by
      rw [scanOutput]
      dsimp only
      rw [if_neg (not_not_intro hV)]
    rw [List.foldl_cons, ih _ fun mid U rest hus => h (V :: mid) U rest (by rw [hus, List.cons_append]), hstep]
    by_cases hnear : Near fl value V
    · have hex : ∃ U ∈ V :: us, Near fl value U := ⟨V, List.mem_cons_self, hnear⟩
      rw [if_pos hnear, if_pos hex, UInt64.or_assoc, UInt64.or_self, ite_self]
    · rw [if_neg hnear]
      congr 1
      apply propext
      constructor
      · rintro ⟨U, hU, hnearU⟩
        exact ⟨U, List.mem_cons_of_mem V hU, hnearU⟩
      · rintro ⟨U, hU, hnearU⟩
        obtain rfl | hU := List.mem_cons.mp hU
        · exact absurd hnearU hnear
        · exact ⟨U, hU, hnearU⟩

private theorem scan_marker {before behind : List UnspentInfo} {U : UnspentInfo} (s : Scan) (hr : r ≠ 0)
    (hmarker : ∀ script, readId coin script U = r)
    (hsingle : ∀ mid V rest, behind = mid ++ V :: rest →
      readId coin ((before ++ U :: mid).foldl (readScript coin) s.script) V = 0) :
    ((before ++ U :: behind).foldl (scanOutput fl coin value) s).redeemtxid =
      if ∃ V ∈ behind, Near fl value V then r ||| 4 else r := by
  rw [List.foldl_append, List.foldl_cons]
  have hread : (scanOutput fl coin value (before.foldl (scanOutput fl coin value) s) U).redeemtxid = r := by
    rw [scanOutput]
    dsimp only
    rw [hmarker, if_pos hr]
  rw [scan_plain behind, hread]
  intro mid V rest hbehind
  have hV := hsingle mid V rest hbehind
  rw [List.foldl_append, List.foldl_cons] at hV
  rw [← hV]
  congr 2
  exact congrArg (readScript coin · U) (scan_script before s)

private theorem or_four_eq_self (r : UInt64) : r ||| 4 = r ↔ r &&& 4 ≠ 0 := by
  have hfour : (4 : UInt64).toNat = 2^2 := rfl
  rw [← UInt64.toNat_inj, ne_eq, ← UInt64.toNat_inj, UInt64.toNat_or, UInt64.toNat_and, hfour, Nat.and_comm,
    Nat.two_pow_and]
  constructor
  · intro h
    have hbit : r.toNat.testBit 2 = true := by
      rw [← h, Nat.testBit_or, Nat.testBit_two_pow_self, Bool.or_true]
    rw [hbit]
    decide
  · intro h
    have hbit : r.toNat.testBit 2 = true := by
      cases hr : r.toNat.testBit 2 with
      | true => rfl
      | false => exact absurd (by rw [hr]; rfl) h
    apply Nat.eq_of_testBit_eq
    intro i
    rw [Nat.testBit_or, Nat.testBit_two_pow]
    by_cases hi : 2 = i
    · rw [← hi, hbit, decide_eq_true rfl, Bool.or_true]
    · rw [decide_eq_false hi, Bool.or_false]

private theorem outScriptstr_embedded {U : UnspentInfo} {script : List UInt8}
    (h : (coin.addrinfos U.addrind).script = script) (hne : script ≠ []) :
    outScriptstr coin U = initHexbytesNoT script := by
  rw [← h] at hne ⊢
  exact if_pos hne

variable {w : World} {gw : Gateway} {extra : ExtraInfo} {txidind : Nat} {before behind : List UnspentInfo}
  {marker : UnspentInfo}

theorem Pays.scan (h : Pays w gw extra r txidind before marker behind) (stack : Nat → UInt8) :
    ∃ id : UInt64, id ≠ 0 ∧ mgwIsMgwtx w gw stack txidind extra.amount =
      ((before ++ marker :: behind).foldl (scanOutput w.fl gw.coin extra.amount) ⟨stack, id⟩).redeemtxid := by
  have hmissing : (inputs gw.coin txidind).countP (fun S => !w.findMsigaddr (inputAddr gw.coin S)) = 0 := by
    apply List.countP_eq_zero.mpr
    intro S hS
    rw [h.own S hS]
    exact Bool.false_ne_true
  let first := (gw.coin.unspents (gw.coin.txoffsets txidind).1).addrind
  refine ⟨(if first = gw.markerAddrind ∨ first = gw.marker2Addrind then 1 else 0) ||| 2, by split <;> decide, ?_⟩
  rw [mgwIsMgwtx, hmissing, if_neg (not_not_intro rfl), h.order]

/-- What the scan says of a redeem whose marker output is without OP_RETURN. -/
theorem Pays.scanned (h : Pays w gw extra r txidind before marker behind) (hplain : gw.doOpreturn = false) (hr : r ≠ 0)
    (stack : Nat → UInt8) : mgwIsMgwtx w gw stack txidind extra.amount =
      if ∃ U ∈ behind, Near w.fl extra.amount U then r ||| 4 else r := by
  obtain ⟨id, -, hscan⟩ := h.scan stack
  rw [hscan]
  apply scan_marker _ hr
  · intro script
    rw [readId, readScript, h.marked, decode_calcOpreturnScript, hplain]
    rfl
  · exact h.single stack

theorem Pays.scanned_ne_zero (h : Pays w gw extra r txidind before marker behind) (stack : Nat → UInt8) :
    mgwIsMgwtx w gw stack txidind extra.amount ≠ 0 := by
  obtain ⟨id, hid, hscan⟩ := h.scan stack
  rw [hscan]
  exact scan_ne_zero _ _ hid

section Search
variable {txoffsets : Nat → Nat × Nat} {u : Nat}

theorem rising_le {last : Nat} (h : ∀ t, 1 ≤ t → t < last → (txoffsets t).1 ≤ (txoffsets (t + 1)).1) {s : Nat}
    (hs : 1 ≤ s) : ∀ {t}, s ≤ t → t ≤ last → (txoffsets s).1 ≤ (txoffsets t).1 := by
  intro t hst
  induction t, hst using Nat.le_induction with
  | base => exact fun _ => le_refl _
  | succ t hst ih => exact fun ht => (ih (Nat.le_of_succ_le ht)).trans (h t (hs.trans hst) ht)

/-- The search ends with the transaction that an unspent belongs to. -/
theorem unspentmapLoop_found {last : Nat}
    (hrising : ∀ t, 1 ≤ t → t < last → 0 < (txoffsets t).1 ∧ (txoffsets t).1 ≤ (txoffsets (t + 1)).1) (n : Nat) :
    ∀ floor ceiling, 1 ≤ floor → floor < ceiling → ceiling ≤ last → ceiling - floor ≤ n →
      (txoffsets floor).1 ≤ u → u < (txoffsets ceiling).1 →
      ∃ t, 1 ≤ t ∧ t < last ∧ (txoffsets t).1 ≤ u ∧ u < (txoffsets (t + 1)).1 ∧
        unspentmapLoop txoffsets u n floor ceiling = some (some (t, u - (txoffsets t).1)) := by
  induction n with
  | zero =>
    intro floor ceiling _ hlt _ hn
    exact absurd hn (by omega)
  | succ n ih =>
    intro floor ceiling hfloor hlt hlast hn hlow hhigh
    have hprobe : floor ≤ (floor + ceiling) / 2 ∧ (floor + ceiling) / 2 < ceiling := by omega
    obtain ⟨hpos, hle⟩ := hrising ((floor + ceiling) / 2) (hfloor.trans hprobe.1) (hprobe.2.trans_le hlast)
    rw [unspentmapLoop, if_neg (Nat.ne_of_lt hlt)]
    dsimp only
    rw [if_neg (by omega)]
    by_cases hbelow : u < (txoffsets ((floor + ceiling) / 2)).1
    · rw [if_pos hbelow]
      have hmoved : floor ≠ (floor + ceiling) / 2 := by
        intro heq
        rw [← heq] at hbelow
        omega
      exact ih floor _ hfloor (by omega) (by omega) (by omega) hlow hbelow
    · rw [if_neg hbelow]
      by_cases habove : u ≥ (txoffsets ((floor + ceiling) / 2 + 1)).1
      · rw [if_pos habove]
        have hmoved : (floor + ceiling) / 2 ≠ floor := by
          intro heq
          have hnext : ceiling = (floor + ceiling) / 2 + 1 := by omega
          rw [← hnext] at habove
          omega
        exact ih _ ceiling (by omega) hprobe.2 hlast (by omega) (by omega) hhigh
      · rw [if_neg habove]
        exact ⟨_, by omega, by omega, by omega, by omega, rfl⟩

end Search

theorem Searchable.found {entries : List AddrtxInfo} (h : Searchable coin entries) (hlast : 1 < coin.latest.txidind)
    {atx : AddrtxInfo} (hatx : atx ∈ entries) : ∃ t, 1 ≤ t ∧ t < coin.latest.txidind ∧
      (coin.txoffsets t).1 ≤ atx.unspentind ∧ atx.unspentind < (coin.txoffsets (t + 1)).1 ∧
      unspentmap coin.latest.txidind coin atx.unspentind = some (some (t, atx.unspentind - (coin.txoffsets t).1)) := by
  obtain ⟨hlow, hhigh⟩ := h.covered atx hatx
  exact unspentmapLoop_found h.rising _ 1 _ (le_refl 1) hlast (le_refl _) (Nat.sub_le _ _) hlow hhigh

private theorem Searchable.unique {entries : List AddrtxInfo} (h : Searchable coin entries) {s t u : Nat}
    (hs' : s < coin.latest.txidind) (ht' : t < coin.latest.txidind)
    (hus : (coin.txoffsets s).1 ≤ u ∧ u < (coin.txoffsets (s + 1)).1)
    (hut : (coin.txoffsets t).1 ≤ u ∧ u < (coin.txoffsets (t + 1)).1) : s = t := by
  have hrising := fun t h1 h2 => (h.rising t h1 h2).2
  obtain hlt | heq | hgt := Nat.lt_trichotomy s t
  · have hle := rising_le hrising (Nat.le_add_left 1 s) hlt ht'.le
    omega
  · exact heq
  · have hle := rising_le hrising (Nat.le_add_left 1 t) hgt hs'.le
    omega

/-- A loop that meets an entry of the transaction ends with it, or with one before it. -/
theorem matchLoop_true (stack : Nat → Nat → UInt8) (ht : 1 ≤ txidind) (ht' : txidind < gw.coin.latest.txidind)
    (hscanned : ∀ stack, (mgwIsMgwtx w gw stack txidind extra.amount).toNat = extra.txidbits)
    (entries : List AddrtxInfo) : Searchable gw.coin entries →
    (∃ atx ∈ entries, (gw.coin.txoffsets txidind).1 ≤ atx.unspentind ∧
      atx.unspentind < (gw.coin.txoffsets (txidind + 1)).1) →
    ∀ i, matchLoop w gw.coin.latest.txidind stack gw extra entries i = some true := by
  induction entries with
  | nil =>
    rintro - ⟨atx, hatx, -⟩
    cases hatx
  | cons atx rest ih =>
    rintro hsearch ⟨entry, hentry, hspan⟩ i
    obtain ⟨t, h1, hlast, hlow, hhigh, hfound⟩ := hsearch.found (ht.trans_lt ht') List.mem_cons_self
    rw [matchLoop, hfound]
    dsimp only
    split
    case isTrue => rfl
    case isFalse hne =>
      have hrest : entry ∈ rest := by
        obtain rfl | hrest := List.mem_cons.mp hentry
        · have heq := hsearch.unique hlast ht' ⟨hlow, hhigh⟩ hspan
          rw [heq] at hne
          exact absurd (hscanned _) hne
        · exact hrest
      exact ih ⟨hsearch.rising, fun a ha => hsearch.covered a (List.mem_cons_of_mem _ ha)⟩ ⟨entry, hrest, hspan⟩ _

/-- A redeem is recognised on the chain when its marker output is without OP_RETURN, its id is not 0, and the bit
that an output near its value sets is in the id or no such output stands behind the marker. -/
theorem recognised_iff (h : Pays w gw extra r txidind before marker behind) :
    Recognised w gw extra r txidind ↔
      gw.doOpreturn = false ∧ r ≠ 0 ∧ (r &&& 4 ≠ 0 ∨ ∀ U ∈ behind, ¬ Near w.fl extra.amount U) := by
  constructor
  · intro hrec
    have hr : r ≠ 0 := by
      rintro rfl
      exact h.scanned_ne_zero (fun _ => 0) (hrec.scanned _)
    have hplain : gw.doOpreturn = false := by
      have hdecoded := hrec.decoded fun _ => 0
      rw [decode_calcOpreturnScript] at hdecoded
      cases hd : gw.doOpreturn with
      | false => rfl
      | true =>
        rw [hd] at hdecoded
        exact absurd hdecoded.symm hr
    refine ⟨hplain, hr, ?_⟩
    have hscanned := hrec.scanned fun _ => 0
    rw [h.scanned hplain hr] at hscanned
    by_cases hnear : ∃ U ∈ behind, Near w.fl extra.amount U
    · rw [if_pos hnear] at hscanned
      exact .inl ((or_four_eq_self r).mp hscanned)
    · exact .inr fun U hU hnearU => hnear ⟨U, hU, hnearU⟩
  · rintro ⟨hplain, hr, hspared⟩
    have hscanned : ∀ stack, mgwIsMgwtx w gw stack txidind extra.amount = r := by
      intro stack
      rw [h.scanned hplain hr]
      split
      case isTrue hnear =>
        obtain hbit | hnone := hspared
        · exact (or_four_eq_self r).mpr hbit
        · obtain ⟨U, hU, hnearU⟩ := hnear
          exact absurd hnearU (hnone U hU)
      case isFalse => rfl
    refine ⟨fun script => ?_, hscanned, fun stack => ⟨gw.coin.latest.txidind, ?_⟩⟩
    · rw [decode_calcOpreturnScript, hplain]
      rfl
    · have hmatch := matchLoop_true stack h.located.1 h.located.2 (fun stack => by rw [hscanned stack, h.txidbits]) _
        h.searchable h.listed 0
      rw [mgwUpdateRedeem, if_pos ⟨h.ready, h.pending⟩]
      split
      · rfl
      · dsimp only
        split
        · rfl
        · rw [hmatch]

section Example

def plainScript : List UInt8 := [0x76, 0xa9, 0x14] ++ List.replicate 20 1 ++ [0x88, 0xac]

def marker8 : UnspentInfo := ⟨1, 3, 0, false⟩
def pay8 : UnspentInfo := ⟨98, 2, 0, false⟩
def change8 (value : UInt64) : UnspentInfo := ⟨value, 1, 0, false⟩

/-- Transaction 2 spends the output of transaction 1, which is the gateway's, on the address of a redeem, the marker
and the change. -/
def chain8 (change : UInt64) : Coin := { Coin.genesis with
  addrDB := fun s => if s = ['d'] then some 2 else none
  addrinfos := fun a => match a with
    | 1 => ⟨0, 1, ['m'], plainScript, fun _ => AddrtxInfo.zero⟩
    | 2 => ⟨0, 2, ['d'], plainScript, fun _ => AddrtxInfo.zero⟩
    | 3 => ⟨0, 2, ['o'], markerScript 8, fun _ => AddrtxInfo.zero⟩
    | _ => Addrinfo.zero
  unspents := fun u => match u with
    | 1 => ⟨200, 1, 0, false⟩
    | 2 => pay8
    | 3 => marker8
    | 4 => change8 change
    | _ => ⟨0, 0, 0, false⟩
  spends := fun s => if s = 1 then ⟨1, 1, 2, 0⟩ else ⟨0, 0, 0, 0⟩
  txoffsets := fun t => match t with
    | 1 => (1, 1)
    | 2 => (2, 1)
    | 3 => (5, 2)
    | _ => (0, 0)
  ledger := fun a => if a = 2 then ⟨98, 1, 1, 16, false⟩ else ⟨0, 0, 0, 0, false⟩
  addrtx := fun i => if i = 1 then ⟨2, 0⟩ else AddrtxInfo.zero
  latest := { CoinOffsets.zero with txidind := 3 } }

def gateway8 (change : UInt64) : Gateway where
  coin := chain8 change
  readyflag := true
  doOpreturn := false
  markerAddrind := 9
  marker2Addrind := 9
  redeemheight := 0
  isLimboRedeem _ := false
  withdraws := []
  withdrawsum := 0

def redeem8 : ExtraInfo := { ExtraInfo.zero with txidbits := 8, amount := 100, flags := mgwPendingredeem, coindata := ['d'] }

def world8 : World := ⟨fun s => s = ['m'], fun _ => true, id⟩

private theorem read_change8 (change : UInt64) (script : Nat → UInt8) :
    readId (chain8 change) script (change8 change) = 0 := by
  have hscript : outScriptstr (chain8 change) (change8 change) = initHexbytesNoT plainScript :=
    outScriptstr_embedded rfl (List.cons_ne_nil _ _)
  have hread : ∀ i < 25, readScript (chain8 change) script (change8 change) i = plainScript.getD i 0 := by
    intro i hi
    rw [readScript, hscript]
    exact readback script hi
  have h0 : readScript (chain8 change) script (change8 change) 0 = 0x76 := hread 0 (by omega)
  have h11 : readScript (chain8 change) script (change8 change) 11 = 1 := hread 11 (by omega)
  rw [readId, mgwDecodeOpReturn, if_neg, if_neg]
  · intro h
    exact absurd (h0.symm.trans h.1) (by decide)
  · intro h
    exact absurd (h11.symm.trans (h.2.2.2.2 0 (by omega))) (by decide)

private theorem pays_redeem8 (change : UInt64) :
    Pays world8 (gateway8 change) redeem8 8 2 [pay8] marker8 [change8 change] where
  ready := rfl
  pending := by decide
  txidbits := rfl
  own S hS := by
    obtain rfl := List.mem_singleton.mp hS
    rfl
  order := rfl
  marked := rfl
  single stack mid U rest h := by
    cases mid with
    | nil =>
      obtain ⟨rfl, -⟩ := List.cons.inj h
      exact read_change8 change _
    | cons V mid =>
      have hnil := (List.append_eq_nil_iff.mp (List.cons.inj h).2.symm).2
      cases hnil
  located := ⟨(by decide : 1 ≤ 2), (by decide : 2 < 3)⟩
  listed := ⟨⟨2, 0⟩, List.mem_singleton_self _, (by decide : 2 ≤ 2), (by decide : 2 < 5)⟩
  searchable := by
    refine ⟨?_, ?_⟩
    · intro t h1 h3
      obtain rfl | rfl : t = 1 ∨ t = 2 := by
        have h3' : t < 3 := h3
        omega
      · exact ⟨(by decide : 0 < 1), (by decide : 1 ≤ 2)⟩
      · exact ⟨(by decide : 0 < 2), (by decide : 2 ≤ 5)⟩
    · intro atx hatx
      obtain rfl := List.mem_singleton.mp hatx
      exact ⟨(by decide : 1 ≤ 2), (by decide : 2 < 5)⟩

private theorem near_change8 (change : UInt64) : Near world8.fl redeem8.amount (change8 change) ↔
    change.toNat ≤ 100 ∧ 99 ≤ change.toNat := by
  have hfactor : ((100 : Nat) : Rat) * (99 / 100) = (99 : Nat) := by norm_num
  have hnear : Near world8.fl redeem8.amount (change8 change) ↔
      change.toNat ≤ 100 ∧ ((100 : Nat) : Rat) * (99 / 100) ≤ (change.toNat : Rat) := Iff.rfl
  rw [hnear, hfactor, Nat.cast_le]

theorem recognised_redeem8 : Pays world8 (gateway8 90) redeem8 8 2 [pay8] marker8 [change8 90] ∧
    Recognised world8 (gateway8 90) redeem8 8 2 := by
  refine ⟨pays_redeem8 90, (recognised_iff (pays_redeem8 90)).mpr ⟨rfl, by decide, .inr ?_⟩⟩
  intro U hU hnear
  obtain rfl := List.mem_singleton.mp hU
  exact absurd ((near_change8 90).mp hnear).2 (by decide)

/-- The script with OP_RETURN is not read back, and change that is near the amount hides the other one. -/
theorem redeem8_missed :
    mgwDecodeOpReturn (decodeHexInto (fun _ => 0) 13 (calcOpreturnScript 8 true)) 13 = 0 ∧
      Pays world8 (gateway8 100) redeem8 8 2 [pay8] marker8 [change8 100] ∧
      ∀ stack, mgwIsMgwtx world8 (gateway8 100) stack 2 100 = 12 := by
  refine ⟨decode_calcOpreturnScript (fun _ => 0) 8 true, pays_redeem8 100, fun stack => ?_⟩
  have hnear : ∃ U ∈ [change8 100], Near world8.fl redeem8.amount U :=
    ⟨_, List.mem_singleton_self _, (near_change8 100).mpr (by decide)⟩
  have hscan := (pays_redeem8 100).scanned rfl (by decide) stack
  rw [if_pos hnear] at hscan
  exact hscan

end Example

end SuperNet.Mgw.MgwRedeem
