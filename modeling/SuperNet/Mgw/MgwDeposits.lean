import SuperNet.Mgw.MgwStatus
import SuperNet.Utils.NXT777
import Mathlib.Data.Rat.Floor

/-! Deposits to multisig addresses and the asset transfers that credit them: MGWtransfer_asset and
mgw_unspentsfunc of MGW_main.c. A rounding `fl` stands for the arithmetic of doubles. -/
namespace SuperNet.Mgw.MgwDeposits
open Lib.Words MgwStatus
open Utils.NXT777 (NXT_ASSETID)

def satoshiden : Nat := 100000000
def maxBuynxt : Int := 10

/-- The two calls of `issue_transferAsset`: the coin's asset, then NXT for the part that is converted. -/
inductive Leg where
  | deposit
  | convert
  deriving DecidableEq, Repr

/-- What `issue_transferAsset` returns: the id, 0 for none, and the error text. -/
structure Reply where
  depositid : Nat
  errjsontxt : Option (List Char)
  deriving DecidableEq, Repr

def Reply.worked (r : Reply) : Bool := r.depositid != 0 && r.errjsontxt.isNone

/-- A call of `issue_transferAsset`. The fields from `coinaddr` on are those of the message in which the
transfer names its deposit. -/
structure Transfer where
  leg : Leg
  recipient : Nat
  assetidbits : Nat
  quantity : Int
  coinaddr : List Char
  cointxid : List Char
  coinv : Nat
  amount : Nat
  reply : Reply
  deriving DecidableEq, Repr

structure Coin where
  ap_mult : Nat
  assetidbits : Nat
  NXTconvrate : Rat
  NXTfee_equiv : Nat
  txfee : Nat
  firstunspentind : Nat
  lag : Int
  minconfirms : Int
  verified : Int
  deriving DecidableEq, Repr

/-- The conversion of a double to an integer. -/
def truncate (x : Rat) : Int := if 0 ≤ x then ⌊x⌋ else ⌈x⌉

def getCurrentRate (coin : Coin) : Rat :=
  if coin.NXTconvrate ≠ 0 then coin.NXTconvrate
  else if coin.NXTfee_equiv ≠ 0 ∧ coin.txfee ≠ 0 then (coin.NXTfee_equiv / coin.txfee : Nat)
  else 1

def convert (fl : Rat → Rat) (coin : Coin) (haspubkey : Bool) (buyNXT : Int) (value : Nat) : Nat × Int :=
  if haspubkey = false ∧ buyNXT > 0 then
    let rate := getCurrentRate coin
    if rate ≠ 0 then
      let buyNXT := if buyNXT > maxBuynxt then maxBuynxt else buyNXT
      let convamount := u64 (truncate (fl (fl ((buyNXT + 2) * satoshiden) / rate)))
      if convamount ≥ value then
        (value / 2, signed 32 (truncate (fl (fl (fl (value / 2 : Nat) * rate) / satoshiden))))
      else (convamount, buyNXT)
    else (0, buyNXT)
  else (0, 0)

/-- The variables of the loop over the two legs. -/
structure Legs where
  depositid : Nat
  buyNXT : Int
  buyNXTp : Int
  issued : List Transfer

def transferLeg (call : Leg → Int → Transfer) (leg : Leg) (s : Legs) : Legs :=
  let t := call leg s.buyNXT
  let s := { s with depositid := t.reply.depositid, issued := s.issued ++ [t] }
  if t.reply.worked ∧ leg = .convert then { s with buyNXT := 0, buyNXTp := 0 } else s

/-- `for (iter=(value==0); iter<2; iter++)`, which ends when nothing is to be bought. -/
def transferLoop (call : Leg → Int → Transfer) : List Leg → Legs → Legs
  | [], s => s
  | leg :: legs, s =>
    let s := transferLeg call leg s
    if s.buyNXT = 0 then s else transferLoop call legs s

/-- `MGWtransfer_asset`: the id that it returns is that of the last leg. -/
def mgwTransferAsset (fl : Rat → Rat) (forceflag : Int) (nxt64bits : Nat) (haspubkey : Bool) (coin : Coin)
    (value : Nat) (coinaddr txidstr : List Char) (vout : Nat) (buyNXT : Int) (reply : Leg → Reply) : Legs :=
  let (convamount, buy) := convert fl coin haspubkey buyNXT value
  let rest := u64 (value - convamount)
  let call := fun leg buy => {
    leg := leg
    recipient := nxt64bits
    assetidbits := if leg = .deposit then coin.assetidbits else NXT_ASSETID
    quantity := i64 (if leg = .deposit then (rest / coin.ap_mult : Nat) else buy * satoshiden)
    coinaddr := coinaddr
    cointxid := txidstr
    coinv := vout % 2^16
    amount := value
    reply := reply leg : Transfer }
  let s := { depositid := 0, buyNXT := buy, buyNXTp := buyNXT, issued := [] : Legs }
  if forceflag > 0 ∧ (rest > 0 ∨ convamount > 0) then
    transferLoop call (if rest = 0 then [.convert] else [.deposit, .convert]) s
  else s

structure Unspent where
  value : Nat
  unspentind : Nat
  deriving DecidableEq, Repr

/-- One of the unspents of the address, with what the ramchain and the NXT node say about it while it
is looked at. -/
structure Row where
  unspentind : Nat
  value : Nat
  unspentmap : Option (List Char × Nat)
  isinternal : Bool
  haspubkey : Bool
  reply : Leg → Reply

structure Poll where
  coin : Coin
  gatewayid : Nat
  nxt64bits : Nat
  n : Nat
  multisigaddr : List Char
  buyNXT : Int
  extras : Assettxids
  rows : List Row

/-- The gateway between polls, with the transfers it has issued. -/
structure Gateway where
  db : StatusDB
  unspents : List Unspent
  issued : List Transfer

/-- A poll on its way through the unspents. -/
structure Walk extends Gateway where
  sum : Nat
  buyNXT : Int

def mgwIsrealtime (coin : Coin) : Bool := decide (coin.lag ≥ 0 ∧ coin.lag ≤ coin.minconfirms ∧ coin.verified ≠ 0)

def Walk.mark (s : Walk) (txidstr : List Char) (vout : Nat) (status : Status) : Walk :=
  { s with db := mgwMarkunspent s.db txidstr vout status }

/-- The unspent goes into the pool for withdraws. -/
def Walk.keep (s : Walk) (row : Row) : Walk :=
  { s with sum := u64 (s.sum + row.value), unspents := s.unspents ++ [⟨row.value, row.unspentind⟩] }

def transferDeposit (fl : Rat → Rat) (p : Poll) (row : Row) (txidstr : List Char) (vout : Nat) (Ustatus : Status)
    (s : Walk) : Walk :=
  if p.nxt64bits % p.n = p.gatewayid then
    if mgwIsrealtime p.coin then
      let legs := mgwTransferAsset fl 1 p.nxt64bits row.haspubkey p.coin row.value p.multisigaddr txidstr vout
        s.buyNXT row.reply
      let s := { s with buyNXT := legs.buyNXTp, issued := s.issued ++ legs.issued }
      if legs.depositid ≠ 0 then s.mark txidstr vout (Ustatus ||| mgwPendingxfer) else s
    else s
  else s.mark txidstr vout (Ustatus ||| mgwPendingxfer)

def visit (fl : Rat → Rat) (p : Poll) (s : Walk) (row : Row) : Walk :=
  match row.unspentmap with
  | none => s
  | some (txidstr, vout) =>
    let Ustatus := mgwUnspentstatus s.db txidstr vout
    if Ustatus &&& mgwAlreadyspent ≠ 0 then s
    else if Ustatus &&& (mgwDepositdone ||| mgwIsinternal ||| mgwIgnore) = 0 then
      if row.isinternal then s.mark txidstr vout (Ustatus ||| mgwIsinternal)
      else
        let status := mgwDepositstatus p.extras txidstr vout
        if status &&& mgwDepositdone ≠ 0 then s.mark txidstr vout (Ustatus ||| status)
        else if status &&& mgwIgnore ≠ 0 then s.mark txidstr vout (Ustatus ||| status)
        else s
    else if Ustatus &&& mgwIsinternal ≠ 0 then s.keep row
    else if Ustatus &&& mgwDepositdone = 0 then
      if Ustatus &&& mgwPendingxfer ≠ 0 then
        if mgwDepositstatus p.extras txidstr vout = mgwDepositdone then
          s.mark txidstr vout (Ustatus ||| mgwDepositdone)
        else s
      else if row.value ≥ p.coin.txfee ∧ (p.coin.firstunspentind = 0 ∨ row.unspentind ≥ p.coin.firstunspentind) then
        transferDeposit fl p row txidstr vout Ustatus s
      else (s.keep row).mark txidstr vout (Ustatus ||| mgwDepositdone)
    else s.keep row

def Poll.start (p : Poll) (s : Gateway) : Walk := { s with sum := 0, buyNXT := p.buyNXT }

/-- `mgw_unspentsfunc`: the gateway after the poll and the sum that is returned. -/
def mgwUnspentsfunc (fl : Rat → Rat) (p : Poll) (s : Gateway) : Gateway × Nat :=
  let w := p.rows.foldl (visit fl p) (p.start s)
  (w.toGateway, w.sum)

/-- The gateway polls an address, or marks an unspent elsewhere: when a transfer is seen on the NXT
chain, or on an operator's demand. -/
inductive Step where
  | poll (p : Poll)
  | mark (txidstr : List Char) (vout : Nat) (status : Status)

def step (fl : Rat → Rat) (s : Gateway) : Step → Gateway
  | .poll p => (mgwUnspentsfunc fl p s).1
  | .mark txidstr vout status => { s with db := mgwMarkunspent s.db txidstr vout status }

def run (fl : Rat → Rat) (steps : List Step) : Gateway := steps.foldl (step fl) ⟨fun _ => none, [], []⟩

def Transfer.credits (txidstr : List Char) (vout : Nat) (t : Transfer) : Bool :=
  t.leg == .deposit && t.reply.worked && t.cointxid == txidstr && t.coinv == vout % 2^16

/-- Each deposit is credited at most once, and the unspent of a credited one is marked. -/
structure CreditedOnce (s : Gateway) : Prop where
  once : ∀ txidstr vout, s.issued.countP (Transfer.credits txidstr vout) ≤ 1
  marked : ∀ txidstr vout, s.issued.any (Transfer.credits txidstr vout) →
    mgwUnspentstatus s.db txidstr vout &&& (mgwPendingxfer ||| mgwDepositdone) ≠ 0

/-- When a deposit is credited, no conversion is to follow, or the call for it returns an id. -/
def Answered (fl : Rat → Rat) (p : Poll) (s : Walk) (row : Row) : Prop :=
  (row.reply .deposit).worked → (convert fl p.coin row.haspubkey s.buyNXT row.value).2 = 0 ∨
    (row.reply .convert).depositid ≠ 0

/-- The condition at each unspent that the poll looks at, in the state in which it does. -/
def WalkAnswered (fl : Rat → Rat) (p : Poll) : Walk → List Row → Prop
  | _, [] => True
  | s, row :: rows => Answered fl p s row ∧ WalkAnswered fl p (visit fl p s row) rows

def StepAnswered (fl : Rat → Rat) (s : Gateway) : Step → Prop
  | .poll p => WalkAnswered fl p (p.start s) p.rows
  | .mark _ _ _ => True

/-- What holds of a run: no status is negative, and the deposits are credited once. -/
structure Sound (s : Gateway) : Prop extends CreditedOnce s where
  nonneg : Nonneg s.db

variable {fl : Rat → Rat} {p : Poll} {s : Walk} {row : Row}

theorem transferLeg_issued (call : Leg → Int → Transfer) (leg : Leg) (s : Legs) :
    (transferLeg call leg s).issued = s.issued ++ [call leg s.buyNXT] := by
  rw [transferLeg]
  split <;> rfl

theorem transferLeg_depositid (call : Leg → Int → Transfer) (leg : Leg) (s : Legs) :
    (transferLeg call leg s).depositid = (call leg s.buyNXT).reply.depositid := by
  rw [transferLeg]
  split <;> rfl

theorem transferLeg_buyNXT (call : Leg → Int → Transfer) (s : Legs) :
    (transferLeg call .deposit s).buyNXT = s.buyNXT := by
  rw [transferLeg, if_neg fun h => Leg.noConfusion h.2]

theorem transferLoop_last (call : Leg → Int → Transfer) (leg : Leg) (s : Legs) :
    transferLoop call [leg] s = transferLeg call leg s := by
  rw [transferLoop, transferLoop, ite_self]

/-- The transfers of one deposit: none, one leg, or both, of which the last one's id is returned. -/
theorem transferAsset_legs (fl : Rat → Rat) (nxt64bits : Nat) (haspubkey : Bool) (coin : Coin) (value : Nat)
    (coinaddr txidstr : List Char) (vout : Nat) (buyNXT : Int) (reply : Leg → Reply) :
    let legs := mgwTransferAsset fl 1 nxt64bits haspubkey coin value coinaddr txidstr vout buyNXT reply
    ∃ call : Leg → Transfer, (∀ leg, (call leg).leg = leg ∧ (call leg).cointxid = txidstr ∧
      (call leg).coinv = vout % 2^16 ∧ (call leg).reply = reply leg) ∧
      (legs.issued = [] ∨ legs.issued = [call .convert] ∨
        (legs.issued = [call .deposit] ∧ legs.depositid = (reply .deposit).depositid) ∨
        (legs.issued = [call .deposit, call .convert] ∧ legs.depositid = (reply .convert).depositid ∧
          (convert fl coin haspubkey buyNXT value).2 ≠ 0)) := by
  rw [mgwTransferAsset]
  generalize convert fl coin haspubkey buyNXT value = c
  obtain ⟨convamount, buy⟩ := c
  dsimp only
  generalize hcall : (fun leg buy => Transfer.mk _ _ _ _ _ _ _ _ _) = call
  have hfields : ∀ leg, (call leg buy).leg = leg ∧ (call leg buy).cointxid = txidstr ∧
      (call leg buy).coinv = vout % 2^16 ∧ (call leg buy).reply = reply leg := by
    intro leg
    rw [← hcall]
    exact ⟨rfl, rfl, rfl, rfl⟩
  refine ⟨fun leg => call leg buy, hfields, ?_⟩
  split
  case isFalse => exact Or.inl rfl
  case isTrue =>
    split
    case isTrue => exact Or.inr (Or.inl (by rw [transferLoop_last, transferLeg_issued, List.nil_append]))
    case isFalse =>
      rw [transferLoop, transferLeg_buyNXT]
      split
      case isTrue hbuy =>
        refine Or.inr (Or.inr (Or.inl ⟨?_, ?_⟩))
        · rw [transferLeg_issued, List.nil_append]
        · rw [transferLeg_depositid, (hfields .deposit).2.2.2]
      case isFalse hbuy =>
        refine Or.inr (Or.inr (Or.inr ⟨?_, ?_, hbuy⟩))
        · rw [transferLoop_last, transferLeg_issued, transferLeg_issued, transferLeg_buyNXT, List.nil_append,
            List.singleton_append]
        · rw [transferLoop_last, transferLeg_depositid, transferLeg_buyNXT, (hfields .convert).2.2.2]

/-- The transfers of a deposit credit it at most once and credit no other. When they credit it without an
id, a conversion was called for and returned none. -/
theorem transferAsset_credits (fl : Rat → Rat) (nxt64bits : Nat) (haspubkey : Bool) (coin : Coin) (value : Nat)
    (coinaddr txidstr txidstr' : List Char) (vout vout' : Nat) (buyNXT : Int) (reply : Leg → Reply) :
    let legs := mgwTransferAsset fl 1 nxt64bits haspubkey coin value coinaddr txidstr vout buyNXT reply
    legs.issued.countP (Transfer.credits txidstr' vout') ≤ 1 ∧
      (legs.issued.any (Transfer.credits txidstr' vout') →
        txidstr = txidstr' ∧ vout % 2^16 = vout' % 2^16 ∧ (reply .deposit).worked ∧
          (legs.depositid = 0 → (convert fl coin haspubkey buyNXT value).2 ≠ 0 ∧ (reply .convert).depositid = 0)) := by
  intro legs
  obtain ⟨call, hfields, hlegs⟩ := transferAsset_legs fl nxt64bits haspubkey coin value coinaddr txidstr vout buyNXT reply
  have hconvert : Transfer.credits txidstr' vout' (call .convert) = false := by
    rw [Transfer.credits, (hfields .convert).1]
    rfl
  have hdeposit : Transfer.credits txidstr' vout' (call .deposit) = true →
      txidstr = txidstr' ∧ vout % 2^16 = vout' % 2^16 ∧ (reply .deposit).worked := by
    obtain ⟨hleg, htxid, hcoinv, hreply⟩ := hfields .deposit
    rw [Transfer.credits, hleg, htxid, hcoinv, hreply]
    simp only [Bool.and_eq_true, beq_iff_eq]
    rintro ⟨⟨⟨-, hworked⟩, rfl⟩, hvout⟩
    exact ⟨rfl, hvout, hworked⟩
  have hid : (reply .deposit).worked → (reply .deposit).depositid ≠ 0 := by
    rw [Reply.worked, Bool.and_eq_true, bne_iff_ne]
    exact And.left
  rcases hlegs with hnone | hone | ⟨hone, hreturn⟩ | ⟨htwo, hreturn, hbuy⟩
  · rw [hnone]
    exact ⟨Nat.zero_le 1, fun h => absurd h Bool.false_ne_true⟩
  · rw [hone, List.countP_singleton, List.any_cons, hconvert]
    exact ⟨Nat.zero_le 1, fun h => absurd h Bool.false_ne_true⟩
  · rw [hone, List.countP_singleton, List.any_cons, List.any_nil, Bool.or_false]
    refine ⟨by split <;> omega, fun h => ?_⟩
    obtain ⟨htxid, hvout, hok⟩ := hdeposit h
    exact ⟨htxid, hvout, hok, fun hzero => absurd (hreturn.symm.trans hzero) (hid hok)⟩
  · rw [htwo, List.countP_cons, List.countP_singleton, List.any_cons, List.any_cons, List.any_nil, hconvert,
      if_neg Bool.false_ne_true, Nat.zero_add, Bool.or_false, Bool.or_false]
    refine ⟨by split <;> omega, fun h => ?_⟩
    obtain ⟨htxid, hvout, hok⟩ := hdeposit h
    exact ⟨htxid, hvout, hok, fun hzero => ⟨hbuy, hreturn.symm.trans hzero⟩⟩

/-- What a visit can do. A deposit is transferred only when it is neither pending nor done. -/
theorem visit_cases {motive : Walk → Prop} (hsame : motive s) (hkeep : motive (s.keep row))
    (hmark : ∀ txidstr vout status, motive (s.mark txidstr vout status))
    (hkeepmark : ∀ txidstr vout status, motive ((s.keep row).mark txidstr vout status))
    (htransfer : ∀ txidstr vout, mgwUnspentstatus s.db txidstr vout &&& (mgwPendingxfer ||| mgwDepositdone) = 0 →
      motive (transferDeposit fl p row txidstr vout (mgwUnspentstatus s.db txidstr vout) s)) :
    motive (visit fl p s row) := by
  rw [visit]
  split
  · exact hsame
  · next txidstr vout _ =>
    dsimp only
    split
    · exact hsame
    · split
      · split
        · exact hmark _ _ _
        · split
          · exact hmark _ _ _
          · split
            · exact hmark _ _ _
            · exact hsame
      · split
        · exact hkeep
        · split
          · next hdone =>
            split
            · split
              · exact hmark _ _ _
              · exact hsame
            · next hpending =>
              split
              · refine htransfer txidstr vout ?_
                rw [BitVec.and_or_distrib_left, hdone, not_not.mp hpending]
                rfl
              · exact hkeepmark _ _ _
          · exact hkeep

theorem Transfer.credits_mod (txidstr : List Char) {vout vout' : Nat} (h : vout % 2^16 = vout' % 2^16) :
    Transfer.credits txidstr vout = Transfer.credits txidstr vout' := by
  funext t
  rw [Transfer.credits, Transfer.credits, h]

theorem Sound.mark {g : Gateway} (h : Sound g) (txidstr : List Char) (vout : Nat) (status : Status) :
    Sound { g with db := mgwMarkunspent g.db txidstr vout status } where
  once := h.once
  marked txidstr' vout' hany := markunspent_keeps (h.marked txidstr' vout' hany) _ _ _
  nonneg := markunspent_nonneg h.nonneg _ _ _

/-- A deposit whose unspent is neither pending nor done has not been credited. -/
theorem Sound.uncredited {g : Gateway} (h : Sound g) {txidstr : List Char} {vout : Nat}
    (hopen : mgwUnspentstatus g.db txidstr vout &&& (mgwPendingxfer ||| mgwDepositdone) = 0) :
    g.issued.countP (Transfer.credits txidstr vout) = 0 := by
  by_contra hcount
  refine h.marked txidstr vout ?_ hopen
  obtain ⟨t, ht, hcredits⟩ := List.countP_pos_iff.mp (Nat.pos_of_ne_zero hcount)
  exact List.any_eq_true.mpr ⟨t, ht, hcredits⟩

/-- Equal keys make equal statuses. -/
theorem status_mod (db : StatusDB) (txidstr : List Char) {vout vout' : Nat} (h : vout % 2^16 = vout' % 2^16) :
    mgwUnspentstatus db txidstr vout = mgwUnspentstatus db txidstr vout' := by
  rw [mgwUnspentstatus, ← mgwUnspentkey_mod, h, mgwUnspentkey_mod, mgwUnspentstatus]

theorem mark_pending {db : StatusDB} (h : Nonneg db) (txidstr : List Char) (vout : Nat) :
    mgwUnspentstatus (mgwMarkunspent db txidstr vout (mgwUnspentstatus db txidstr vout ||| mgwPendingxfer)) txidstr vout &&&
      (mgwPendingxfer ||| mgwDepositdone) ≠ 0 := by
  have hsign : (mgwUnspentstatus db txidstr vout ||| mgwPendingxfer).msb = false := by
    rw [BitVec.msb_or, status_nonneg h]
    rfl
  rw [markunspent_status, if_pos rfl, hsign, if_neg Bool.false_ne_true]
  intro hzero
  have hbit := congrArg (fun x => x.getLsbD 1) hzero
  simp [mgwPendingxfer, mgwDepositdone] at hbit

theorem transfer_sound {txidstr : List Char} {vout : Nat} (h : Sound s.toGateway) (hrow : Answered fl p s row)
    (hopen : mgwUnspentstatus s.db txidstr vout &&& (mgwPendingxfer ||| mgwDepositdone) = 0) :
    Sound (transferDeposit fl p row txidstr vout (mgwUnspentstatus s.db txidstr vout) s).toGateway := by
  rw [transferDeposit]
  split
  case isFalse => exact h.mark _ _ _
  case isTrue =>
    split
    case isFalse => exact h
    case isTrue =>
      have hcredits := fun txidstr' vout' => transferAsset_credits fl p.nxt64bits row.haspubkey p.coin row.value
        p.multisigaddr txidstr txidstr' vout vout' s.buyNXT row.reply
      dsimp only at hcredits ⊢
      generalize mgwTransferAsset fl 1 p.nxt64bits row.haspubkey p.coin row.value p.multisigaddr txidstr vout
        s.buyNXT row.reply = legs at hcredits ⊢
      have honce : ∀ txidstr' vout', (s.issued ++ legs.issued).countP (Transfer.credits txidstr' vout') ≤ 1 := by
        intro txidstr' vout'
        obtain ⟨hle, hnew⟩ := hcredits txidstr' vout'
        rw [List.countP_append]
        by_cases hany : legs.issued.any (Transfer.credits txidstr' vout') = true
        · obtain ⟨rfl, hvout, -⟩ := hnew hany
          rw [← Transfer.credits_mod txidstr hvout] at hle ⊢
          rw [h.uncredited hopen]
          omega
        · have hnone : legs.issued.countP (Transfer.credits txidstr' vout') = 0 :=
            List.countP_eq_zero.mpr fun t ht hc => hany (List.any_eq_true.mpr ⟨t, ht, hc⟩)
          rw [hnone]
          exact h.once txidstr' vout'
      split
      case isTrue hid =>
        refine ⟨⟨honce, fun txidstr' vout' hany => ?_⟩, markunspent_nonneg h.nonneg _ _ _⟩
        rcases Bool.or_eq_true_iff.mp (List.any_append.symm.trans hany) with hold | hnew
        · exact markunspent_keeps (h.marked txidstr' vout' hold) _ _ _
        · obtain ⟨rfl, hvout, -⟩ := (hcredits txidstr' vout').2 hnew
          rw [← status_mod _ txidstr hvout]
          exact mark_pending h.nonneg txidstr vout
      case isFalse hid =>
        refine ⟨⟨honce, fun txidstr' vout' hany => ?_⟩, h.nonneg⟩
        rcases Bool.or_eq_true_iff.mp (List.any_append.symm.trans hany) with hold | hnew
        · exact h.marked txidstr' vout' hold
        · obtain ⟨-, -, hworked, hlost⟩ := (hcredits txidstr' vout').2 hnew
          obtain ⟨hbuy, hconvert⟩ := hlost (not_not.mp hid)
          rcases hrow hworked with hnobuy | hanswered
          · exact absurd hnobuy hbuy
          · exact absurd hconvert hanswered

theorem visit_sound (h : Sound s.toGateway) (hrow : Answered fl p s row) : Sound (visit fl p s row).toGateway := by
  apply visit_cases (motive := fun t => Sound t.toGateway)
  case hsame => exact h
  case hkeep => exact ⟨⟨h.once, h.marked⟩, h.nonneg⟩
  case hmark => exact fun txidstr vout status => h.mark txidstr vout status
  case hkeepmark =>
    intro txidstr vout status
    have hkept : Sound (s.keep row).toGateway := ⟨⟨h.once, h.marked⟩, h.nonneg⟩
    exact hkept.mark txidstr vout status
  case htransfer => exact fun txidstr vout hopen => transfer_sound h hrow hopen

theorem poll_sound {rows : List Row} (h : Sound s.toGateway) (hrows : WalkAnswered fl p s rows) :
    Sound (rows.foldl (visit fl p) s).toGateway := by
  induction rows generalizing s with
  | nil => exact h
  | cons row rows ih => exact ih (visit_sound h hrows.1) hrows.2

theorem transferDeposit_unspents (txidstr : List Char) (vout : Nat) (Ustatus : Status) :
    (transferDeposit fl p row txidstr vout Ustatus s).unspents = s.unspents := by
  rw [transferDeposit]
  split
  · split
    · dsimp only
      split <;> rfl
    · rfl
  · rfl

/-- The unspents that a poll puts into the pool, behind those that are there. -/
theorem poll_unspents (fl : Rat → Rat) (p : Poll) (s : Walk) (rows : List Row) : ∃ kept : List Row, kept.Sublist rows ∧
    (rows.foldl (visit fl p) s).unspents = s.unspents ++ kept.map fun row => ⟨row.value, row.unspentind⟩ := by
  induction rows generalizing s with
  | nil => exact ⟨[], .slnil, (List.append_nil _).symm⟩
  | cons row rows ih =>
    obtain ⟨kept, hsub, hkept⟩ := ih (visit fl p s row)
    have hvisit : (visit fl p s row).unspents = s.unspents ∨
        (visit fl p s row).unspents = s.unspents ++ [⟨row.value, row.unspentind⟩] := by
      apply visit_cases (motive := fun t => t.unspents = s.unspents ∨ t.unspents = s.unspents ++ [_])
      case hsame => exact .inl rfl
      case hkeep => exact .inr rfl
      case hmark => exact fun _ _ _ => .inl rfl
      case hkeepmark => exact fun _ _ _ => .inr rfl
      case htransfer => exact fun txidstr vout _ => .inl (transferDeposit_unspents txidstr vout _)
    rcases hvisit with hvisit | hvisit
    · exact ⟨kept, hsub.cons row, hkept.trans (by rw [hvisit])⟩
    · exact ⟨row :: kept, hsub.cons_cons row, hkept.trans (by rw [hvisit, List.append_assoc]; rfl)⟩

theorem step_sound {g : Gateway} (h : Sound g) (st : Step) (hst : StepAnswered fl g st) : Sound (step fl g st) := by
  cases st with
  | poll p => exact poll_sound (s := p.start g) ⟨⟨h.once, h.marked⟩, h.nonneg⟩ hst
  | mark txidstr vout status => exact h.mark txidstr vout status

theorem run_sound (steps : List Step)
    (h : ∀ before st, before ++ [st] <+: steps → StepAnswered fl (run fl before) st) : Sound (run fl steps) := by
  induction steps using List.reverseRecOn with
  | nil =>
    refine ⟨⟨fun _ _ => Nat.zero_le 1, fun _ _ hany => absurd hany Bool.false_ne_true⟩, fun _ _ hnone => ?_⟩
    exact absurd hnone (Option.some_ne_none _).symm
  | append_singleton before st ih =>
    rw [run, List.foldl_append]
    exact step_sound (ih fun before' st' hpre => h before' st' (hpre.trans (List.prefix_append _ _))) st
      (h before st (List.prefix_refl _))

/-- In every run in which a conversion that follows a credit returns an id, each deposit is credited at most
once and stays marked from the poll on that credited it. -/
theorem deposits_credited_once (fl : Rat → Rat) (steps : List Step)
    (h : ∀ before st, before ++ [st] <+: steps → StepAnswered fl (run fl before) st) : CreditedOnce (run fl steps) :=
  (run_sound steps h).toCreditedOnce

/-- A deposit of ten coins to an address that buys NXT for an account without a public key. The transfer
of the asset works and the one of NXT fails. -/
def refusedConversion : Poll where
  coin := ⟨1, 77, 1, 0, 10000, 0, 0, 5, 1⟩
  gatewayid := 0
  nxt64bits := 3
  n := 3
  multisigaddr := ['3', 'M']
  buyNXT := 1
  extras := fun i => if i = 0 then some { ExtraInfo.zero with ind := 1 }
    else if i = 1 then some { ExtraInfo.zero with flags := mgwIgnore } else none
  rows := [⟨9, 1000000000, some (['a', 'b'], 1), false, false,
    fun leg => if leg = .deposit then ⟨55, none⟩ else ⟨0, some ['n', 'o']⟩⟩]

/-- The first poll marks the unspent as one to be looked at, each later one credits it again. -/
theorem deposit_credited_twice :
    ¬ CreditedOnce (run id [.poll refusedConversion, .poll refusedConversion, .poll refusedConversion]) := by
  intro h
  have htwice : (run id [.poll refusedConversion, .poll refusedConversion, .poll refusedConversion]).issued.countP
      (Transfer.credits ['a', 'b'] 1) = 2 := by decide +kernel
  have honce := h.once ['a', 'b'] 1
  omega

/-- The same deposit when the node answers both calls. -/
def paidConversion : Poll where
  coin := refusedConversion.coin
  gatewayid := refusedConversion.gatewayid
  nxt64bits := refusedConversion.nxt64bits
  n := refusedConversion.n
  multisigaddr := refusedConversion.multisigaddr
  buyNXT := refusedConversion.buyNXT
  extras := refusedConversion.extras
  rows := [⟨9, 1000000000, some (['a', 'b'], 1), false, false,
    fun leg => if leg = .deposit then ⟨55, none⟩ else ⟨56, none⟩⟩]

theorem paidConversion_credited_once :
    (run id [.poll paidConversion, .poll paidConversion]).issued.length = 2 ∧
      CreditedOnce (run id [.poll paidConversion, .poll paidConversion]) := by
  refine ⟨by decide +kernel, deposits_credited_once id _ ?_⟩
  intro before st hpre
  have hst : st = .poll paidConversion := by
    have hmem := hpre.subset (List.mem_append_right before List.mem_cons_self)
    simpa using hmem
  rw [hst]
  exact ⟨fun _ => Or.inr (by decide), trivial⟩

end SuperNet.Mgw.MgwDeposits
