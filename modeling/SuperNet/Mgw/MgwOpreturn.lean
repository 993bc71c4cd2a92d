import SuperNet.Lib.Bytes
import SuperNet.Utils.Hex

/-! The scripts that carry a redeem: mgw_encode_OP_RETURN, mgw_decode_OP_RETURN and
calc_opreturn_script of MGW_main.c. -/
namespace SuperNet.Mgw.MgwOpreturn
open Lib.Bytes Utils.Hex

def opReturnOpcode : UInt8 := 0x6a

def opReturnScript (redeemtxid : UInt64) : List UInt8 :=
  [opReturnOpcode, 8 + 3, 0x4d, 0x47, 0x57] ++ leBytes 4 redeemtxid.toUInt32.toNat ++
    leBytes 4 (redeemtxid >>> 32).toUInt32.toNat

def mgwEncodeOpReturn (redeemtxid : UInt64) : List Char := initHexbytesNoT (opReturnScript redeemtxid)

/-- The loop of `mgw_decode_OP_RETURN`. -/
def decodeRedeemtxid (scriptptr : Nat → UInt8) : UInt64 :=
  (List.range 8).foldl (fun redeemtxid j => redeemtxid <<< 8 ||| (scriptptr (7 - j)).toUInt64) 0

/-- `mgw_decode_OP_RETURN` on the bytes of a buffer. The second layout is looked for at any length. -/
def mgwDecodeOpReturn (script : Nat → UInt8) (scriptlen : Nat) : UInt64 :=
  if scriptlen ≥ 23 ∧ script 0 = 0x76 ∧ script 1 = 0xa9 ∧ script 2 = 0x14 ∧ ∀ j < 12, script (11 + j) = 0 then
    decodeRedeemtxid fun j => script (3 + j)
  else if script 0 = opReturnOpcode ∧ script 1 = 0x4d ∧ script 2 = 0x47 ∧ script 3 = 0x57 then
    decodeRedeemtxid fun j => script (4 + j)
  else 0

def calcOpreturnScript (redeemtxid : UInt64) (doOpreturn : Bool) : List Char :=
  if doOpreturn then mgwEncodeOpReturn redeemtxid
  else
    let str40 := initHexbytesNoT (leBytes 8 redeemtxid.toNat)
    "76a914".toList ++ (str40 ++ List.replicate (40 - str40.length) '0') ++ "88ac".toList

/-- `decode_hex` into a buffer, which keeps its bytes behind the `n` that are written. -/
def decodeHexInto (script : Nat → UInt8) (n : Nat) (scriptstr : List Char) : Nat → UInt8 :=
  fun i => (decodeHex n scriptstr).getD i (script i)

def markerScript (redeemtxid : UInt64) : List UInt8 :=
  [0x76, 0xa9, 0x14] ++ leBytes 8 redeemtxid.toNat ++ List.replicate 12 0 ++ [0x88, 0xac]

theorem calcOpreturnScript_bytes (redeemtxid : UInt64) (doOpreturn : Bool) :
    calcOpreturnScript redeemtxid doOpreturn =
      initHexbytesNoT (if doOpreturn then opReturnScript redeemtxid else markerScript redeemtxid) := by
  cases doOpreturn with
  | true => rfl
  | false =>
    have hzeros : List.replicate 24 '0' = initHexbytesNoT (List.replicate 12 0) := by decide
    have hlen : 40 - (initHexbytesNoT (leBytes 8 redeemtxid.toNat)).length = 24 := by
      rw [initHexbytesNoT_length, leBytes_length]
    have hhead : initHexbytesNoT [0x76, 0xa9, 0x14] = "76a914".toList := by decide
    have htail : initHexbytesNoT [0x88, 0xac] = "88ac".toList := by decide
    rw [calcOpreturnScript, if_neg Bool.false_ne_true, if_neg Bool.false_ne_true, markerScript,
      initHexbytesNoT_append, initHexbytesNoT_append, initHexbytesNoT_append, hhead, htail, ← hzeros]
    dsimp only
    rw [hlen, List.append_assoc, List.append_assoc, List.append_assoc, List.append_assoc]

theorem decodeRedeemtxid_leBytes {scriptptr : Nat → UInt8} {redeemtxid : UInt64}
    (h : (List.range 8).map scriptptr = leBytes 8 redeemtxid.toNat) : decodeRedeemtxid scriptptr = redeemtxid := by
  have hloop : decodeRedeemtxid scriptptr =
      ((List.range 8).map scriptptr).reverse.foldl (fun (r : UInt64) (b : UInt8) => r <<< 8 ||| b.toUInt64) 0 := rfl
  apply UInt64.toNat_inj.mp
  have hlt := UInt64.toNat_lt redeemtxid
  rw [hloop, h, toNat_shiftBytes, leValue_leBytes_of_lt (by omega), Nat.mod_eq_of_lt hlt]

/-- A script is read back from the buffer that it was written to. -/
theorem decodeHexInto_bytes (script : Nat → UInt8) {bs : List UInt8} (hbs : bs ≠ []) (i : Nat) :
    decodeHexInto script bs.length (initHexbytesNoT bs) i = bs.getD i (script i) := by
  rw [decodeHexInto, decodeHex_even (isHexstr_initHexbytesNoT hbs) (initHexbytesNoT_length bs), hexLoop_initHexbytesNoT]

theorem decode_markerScript (script : Nat → UInt8) (redeemtxid : UInt64) (hscript : ∀ i < 25,
    script i = (markerScript redeemtxid).getD i 0) : mgwDecodeOpReturn script 25 = redeemtxid := by
  have hhead : ∀ i < 3, script i = (markerScript redeemtxid).getD i 0 := fun i hi => hscript i (by omega)
  rw [mgwDecodeOpReturn, if_pos]
  · apply decodeRedeemtxid_leBytes
    rw [List.map_congr_left fun j hj => hscript (3 + j) (by have := List.mem_range.mp hj; omega)]
    rfl
  · refine ⟨by omega, hhead 0 (by omega), hhead 1 (by omega), hhead 2 (by omega), fun j hj => ?_⟩
    rw [hscript (11 + j) (by omega)]
    interval_cases j <;> rfl

/-- The layout with OP_RETURN is not: behind the opcode stands the length of what follows it. -/
theorem decode_opReturnScript (script : Nat → UInt8) (redeemtxid : UInt64) (hscript : ∀ i < 13,
    script i = (opReturnScript redeemtxid).getD i 0) : mgwDecodeOpReturn script 13 = 0 := by
  have hlength : script 1 = 11 := hscript 1 (by omega)
  rw [mgwDecodeOpReturn, if_neg fun h => absurd h.1 (by omega), if_neg fun h => ?_]
  have hM := hlength.symm.trans h.2.1
  exact absurd hM (by decide)

end SuperNet.Mgw.MgwOpreturn
