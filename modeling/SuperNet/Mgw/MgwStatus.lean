import SuperNet.Lib.Bytes
import SuperNet.Lib.Words
import SuperNet.Utils.Hex

/-! The status words that the gateway keeps for its unspents in DB_MGW, and the asset transfers
it knows: MGW_main.c. -/
namespace SuperNet.Mgw.MgwStatus
open Lib.Bytes Utils.Hex

/-- The `int32_t` status of an unspent, and the flags of a transfer. -/
abbrev Status := BitVec 32

def mgwIsinternal : Status := 1
def mgwPendingxfer : Status := 2
def mgwDepositdone : Status := 4
def mgwPendingredeem : Status := 8
def mgwWithdrawdone : Status := 16
def mgwAlreadyspent : Status := 32
def mgwIgnore : Status := 128
def mgwErrorstatus : Status := 0x8000

structure ExtraInfo where
  assetidbits : Nat
  txidbits : Nat
  senderbits : Nat
  receiverbits : Nat
  amount : Nat
  ind : Int
  vout : Int
  flags : Status
  height : Nat
  coindata : List Char
  deriving DecidableEq, Repr

/-- What `memset` leaves in a `struct extra_info`. -/
def ExtraInfo.zero : ExtraInfo := ⟨0, 0, 0, 0, 0, 0, 0, 0, 0, []⟩

/-- `DB_MGW`, a map from the bytes of the key to the status. -/
abbrev StatusDB := List UInt8 → Option Status

/-- `DB_NXTtxids` under the keys `assetidbits, ind`. -/
abbrev Assettxids := Nat → Option ExtraInfo

/-- `NXT_revassettxid`; the length it returns tells whether the entry is there. -/
def nxtRevassettxid (db : Assettxids) (ind : Nat) : ExtraInfo := (db ind).getD ExtraInfo.zero

def mgwUnspentkey (txidstr : List Char) (vout : Nat) : List UInt8 :=
  let slen := txidstr.length >>> 1
  leBytes 2 vout ++ (decodeHex slen txidstr).take slen

def mgwUnspentstatus (db : StatusDB) (txidstr : List Char) (vout : Nat) : Status :=
  (db (mgwUnspentkey txidstr vout)).getD 0

def mgwMarkunspent (db : StatusDB) (txidstr : List Char) (vout : Nat) (status : Status) : StatusDB :=
  let status := if status.msb then mgwErrorstatus else status
  Function.update db (mgwUnspentkey txidstr vout) (some (status ||| mgwUnspentstatus db txidstr vout))

def depositstatusLoop (db : Assettxids) (txidstr : List Char) (vout : Nat) : Nat → Nat → Status → Status
  | 0, _, flag => flag
  | n + 1, i, flag => match db i with
    | none => depositstatusLoop db txidstr vout n (i + 1) flag
    | some extra =>
      if extra.flags &&& mgwDepositdone ≠ 0 then
        if extra.vout = vout ∧ txidstr = extra.coindata then mgwDepositdone
        else depositstatusLoop db txidstr vout n (i + 1) flag
      else if extra.flags &&& mgwIgnore ≠ 0 then depositstatusLoop db txidstr vout n (i + 1) mgwIgnore
      else depositstatusLoop db txidstr vout n (i + 1) flag

def mgwDepositstatus (db : Assettxids) (txidstr : List Char) (vout : Nat) : Status :=
  depositstatusLoop db txidstr vout (nxtRevassettxid db 0).ind.toNat 1 0

/-- No status is negative: `mgw_markunspent` never stores one. -/
def Nonneg (db : StatusDB) : Prop := ∀ key status, db key = some status → status.msb = false

/-- `vout` is cut to the 16 bits of the key. -/
theorem mgwUnspentkey_mod (txidstr : List Char) (vout : Nat) :
    mgwUnspentkey txidstr (vout % 2^16) = mgwUnspentkey txidstr vout := by
  have hlow : UInt8.ofNat (vout % 2^16) = UInt8.ofNat vout := by
    apply UInt8.toNat_inj.mp
    rw [UInt8.toNat_ofNat', UInt8.toNat_ofNat']
    omega
  have hhigh : UInt8.ofNat (vout % 2^16 / 256) = UInt8.ofNat (vout / 256) := by
    apply UInt8.toNat_inj.mp
    rw [UInt8.toNat_ofNat', UInt8.toNat_ofNat']
    omega
  rw [mgwUnspentkey, mgwUnspentkey, leBytes, leBytes, leBytes, leBytes, hlow, hhigh]
  rfl

theorem status_nonneg {db : StatusDB} (h : Nonneg db) (txidstr : List Char) (vout : Nat) :
    (mgwUnspentstatus db txidstr vout).msb = false := by
  rw [mgwUnspentstatus]
  cases hdb : db (mgwUnspentkey txidstr vout) with
  | none => rfl
  | some status => exact h _ status hdb

theorem markunspent_nonneg {db : StatusDB} (h : Nonneg db) (txidstr : List Char) (vout : Nat) (status : Status) :
    Nonneg (mgwMarkunspent db txidstr vout status) := by
  intro key found hfound
  by_cases hkey : key = mgwUnspentkey txidstr vout
  · rw [mgwMarkunspent, hkey, Function.update_self] at hfound
    obtain rfl := Option.some.inj hfound
    rw [BitVec.msb_or, status_nonneg h, Bool.or_false]
    split
    · rfl
    · next hsign => exact Bool.eq_false_iff.mpr hsign
  · rw [mgwMarkunspent, Function.update_of_ne hkey] at hfound
    exact h key found hfound

/-- A mark adds its bits to the unspent it is for and leaves the bits of all others. -/
theorem markunspent_status (db : StatusDB) (txidstr txidstr' : List Char) (vout vout' : Nat) (status : Status) :
    mgwUnspentstatus (mgwMarkunspent db txidstr vout status) txidstr' vout' =
      if mgwUnspentkey txidstr' vout' = mgwUnspentkey txidstr vout then
        (if status.msb then mgwErrorstatus else status) ||| mgwUnspentstatus db txidstr' vout'
      else mgwUnspentstatus db txidstr' vout' := by
  rw [mgwUnspentstatus, mgwMarkunspent]
  by_cases hkey : mgwUnspentkey txidstr' vout' = mgwUnspentkey txidstr vout
  · rw [if_pos hkey, hkey, Function.update_self, Option.getD_some, mgwUnspentstatus, mgwUnspentstatus, hkey]
  · rw [if_neg hkey, Function.update_of_ne hkey, mgwUnspentstatus]

theorem markunspent_keeps {db : StatusDB} {mask : Status} {txidstr : List Char} {vout : Nat}
    (h : mgwUnspentstatus db txidstr vout &&& mask ≠ 0) (txidstr' : List Char) (vout' : Nat) (status : Status) :
    mgwUnspentstatus (mgwMarkunspent db txidstr' vout' status) txidstr vout &&& mask ≠ 0 := by
  rw [markunspent_status]
  split
  · intro hzero
    rw [BitVec.and_or_distrib_right] at hzero
    exact h (BitVec.or_eq_zero_iff.mp hzero).2
  · exact h

end SuperNet.Mgw.MgwStatus
