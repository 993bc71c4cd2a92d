import SuperNet.Coins.CointxScan

/-! Decoding an emitted transaction returns it and consumes all its bytes. -/
namespace SuperNet.Coins.Cointx
open Lib.AccessLog Lib.Bytes Utils.Hex

structure CointxInput.Fits (vin : CointxInput) : Prop where
  txid : HexPairs vin.txidstr
  txid_length : vin.txidstr.length = 64
  sigs : HexPairs vin.sigs
  sigs_length : vin.sigs.length < sizeofSigs

structure Rawvout.Fits (vout : Rawvout) : Prop where
  script : HexPairs vout.script
  script_length : vout.script.length < sizeofScript

structure CointxInfo.Fits (cointx : CointxInfo) : Prop where
  numinputs : cointx.inputs.length ≤ maxCointxInputs
  numoutputs : cointx.outputs.length ≤ maxCointxOutputs
  inputs : ∀ vin ∈ cointx.inputs, vin.Fits
  outputs : ∀ vout ∈ cointx.outputs, vout.Fits

def CointxInfo.wire (cointx : CointxInfo) (oldtx : Int) : List UInt8 :=
  emitUint32 cointx.version ++ ((if oldtx = 0 then emitUint32 cointx.timestamp else []) ++
    (hcalcVarint cointx.inputs.length ++ ((cointx.inputs.map emitCointxInput).flatten ++
      (hcalcVarint cointx.outputs.length ++ ((cointx.outputs.map emitCointxOutput).flatten ++
        emitUint32 cointx.nlocktime)))))

theorem scanUint32_emit (x : UInt32) (rest : List UInt8) : scanUint32 (emitUint32 x ++ rest) = .item x rest := by
  have hl : (emitUint32 x).length = 4 := leBytes_length 4 _
  have hx : UInt32.ofNat (leValue (emitUint32 x)) = x := by
    rw [emitUint32, leValue_leBytes_of_lt (UInt32.toNat_lt x), UInt32.ofNat_toNat]
  rw [scanUint32, if_pos (by rw [List.length_append]; omega), List.take_left' hl, List.drop_left' hl, hx]

private theorem scanFixed_emit {w x : Nat} (h : x < 256^w) (rest : List UInt8) :
    scanFixed w (leBytes w x ++ rest) = some (x, rest) := by
  have hl := leBytes_length w x
  rw [scanFixed, if_pos (by rw [List.length_append]; omega), List.take_left' hl, List.drop_left' hl,
    leValue_leBytes_of_lt h]

theorem scanVarint_emit {x : Nat} (h : x < 2^64) (rest : List UInt8) :
    scanVarint (hcalcVarint x ++ rest) = some (x, rest) := by
  rw [hcalcVarint]
  split
  · rename_i hx
    have hmask : x &&& 0xff = x := by
      rw [show (0xff : Nat) = 2^8 - 1 from rfl, Nat.and_two_pow_sub_one_eq_mod]
      omega
    have hval : (UInt8.ofNat x).toNat = x := by
      rw [UInt8.toNat_ofNat', Nat.mod_eq_of_lt (by omega)]
    have hne : ∀ c : UInt8, 0xfd ≤ c.toNat → UInt8.ofNat x ≠ c := by
      rintro c hc rfl
      omega
    rw [hmask, List.cons_append, scanVarint, if_neg (hne 0xfd (by decide)), if_neg (hne 0xfe (by decide)),
      if_neg (hne 0xff (by decide)), hval]
    rfl
  · split
    · rename_i hx
      exact scanFixed_emit (show x < 256^2 by omega) rest
    · split
      · rename_i hx
        exact scanFixed_emit (show x < 256^4 by omega) rest
      · exact scanFixed_emit (show x < 256^8 by omega) rest

private theorem scanHex_emit {limit : Nat} {s : List Char} (hs : HexPairs s) (hl : s.length < limit)
    (hlimit : limit < 2^64) (rest : List UInt8) :
    scanHex limit (hcalcVarint (s.length >>> 1) ++
      ((if s.length >>> 1 ≠ 0 then (decodeHex (s.length >>> 1) s).take (s.length >>> 1) else []) ++ rest)) =
        .item s rest := by
  have heven := hs.even
  obtain ⟨n, hn⟩ : ∃ n, s.length >>> 1 = n := ⟨_, rfl⟩
  have hlen : s.length = 2 * n := by
    rw [Nat.shiftRight_eq_div_pow] at hn
    omega
  have hbody : (if n ≠ 0 then (decodeHex n s).take n else []) = hexLoop n s := by
    split
    · rename_i h0
      have hne : s ≠ [] := by
        rintro rfl
        rw [List.length_nil] at hlen
        omega
      rw [decodeHex_even (hs.isHexstr hne) hlen, List.take_of_length_le (hexLoop_length n s).le]
    · rename_i h0
      rw [not_not] at h0
      rw [h0]
      rfl
  have hcount := hexLoop_length n s
  rw [hn, hbody, scanHex, scanVarint_emit (by omega)]
  dsimp only
  rw [if_neg (by omega), if_pos ⟨by rw [List.length_append]; omega, by omega⟩, List.take_left' hcount,
    List.drop_left' hcount, initHexbytesNoT_hexLoop hs.digits hlen]

theorem scanVin_emit {vin : CointxInput} (h : vin.Fits) (rest : List UInt8) :
    scanVin (emitCointxInput vin ++ rest) = .item vin rest := by
  have hne : vin.txidstr ≠ [] := by
    intro h0
    have hl := h.txid_length
    rw [h0] at hl
    exact absurd hl (by decide)
  have htxid : (decodeHex 32 vin.txidstr).take 32 = hexLoop 32 vin.txidstr := by
    rw [decodeHex_even (h.txid.isHexstr hne) h.txid_length, List.take_of_length_le (hexLoop_length 32 _).le]
  have hlen : (hexLoop 32 vin.txidstr).reverse.length = 32 := by
    rw [List.length_reverse, hexLoop_length]
  have hvout : vin.vout.toUInt32.toUInt16 = vin.vout := by simp
  rw [emitCointxInput, scanVin, htxid]
  simp only [List.append_assoc]
  rw [if_pos (by rw [List.length_append]; omega), List.drop_left' hlen, List.take_left' hlen, List.reverse_reverse,
    initHexbytesNoT_hexLoop h.txid.digits h.txid_length, scanUint32_emit, Scan.andThen,
    scanHex_emit h.sigs h.sigs_length (by decide), Scan.andThen, scanUint32_emit, Scan.andThen, hvout]

private theorem split_value (v : UInt64) :
    (v >>> 32).toUInt32.toUInt64 <<< 32 ||| v.toUInt32.toUInt64 = v := by
  have hv := UInt64.toNat_lt v
  have hlow : v.toNat % 2^32 < 2^32 := Nat.mod_lt _ (by decide)
  apply UInt64.toNat_inj.mp
  simp only [UInt64.toNat_or, UInt64.toNat_shiftLeft, UInt32.toNat_toUInt64, UInt64.toNat_toUInt32,
    UInt64.toNat_shiftRight]
  have h32 : (32 : UInt64).toNat % 64 = 32 := by decide
  rw [h32, Nat.shiftRight_eq_div_pow, Nat.mod_eq_of_lt (show v.toNat / 2^32 < 2^32 by omega),
    Nat.mod_eq_of_lt (show (v.toNat / 2^32) <<< 32 < 2^64 by rw [Nat.shiftLeft_eq]; omega),
    ← Nat.shiftLeft_add_eq_or_of_lt hlow, Nat.shiftLeft_eq]
  omega

theorem scanVout_emit {vout : Rawvout} (h : vout.Fits) (rest : List UInt8) :
    scanVout (emitCointxOutput vout ++ rest) = .item vout rest := by
  rw [emitCointxOutput, scanVout]
  simp only [List.append_assoc]
  rw [scanUint32_emit, Scan.andThen, scanUint32_emit, Scan.andThen,
    scanHex_emit h.script h.script_length (by decide), Scan.andThen, split_value]

theorem scanItems_emit {α : Type} {emit : α → List UInt8} {scan : List UInt8 → Scan α} {items : List α}
    (h : ∀ a ∈ items, ∀ rest, scan (emit a ++ rest) = .item a rest) (rest : List UInt8) :
    scanItems scan items.length ((items.map emit).flatten ++ rest) = .item items rest := by
  induction items with
  | nil => rfl
  | cons a items ih =>
    rw [List.map_cons, List.flatten_cons, List.append_assoc, List.length_cons, scanItems,
      h a (List.mem_cons_self ..), Scan.andThen, ih fun b hb => h b (List.mem_cons_of_mem a hb), Scan.andThen]

theorem scanTx_wire {cointx : CointxInfo} (h : cointx.Fits) (oldtx : Int) :
    scanTx oldtx (cointx.wire oldtx) =
      .item { cointx with timestamp := if oldtx = 0 then cointx.timestamp else 0 } [] := by
  have hin := h.numinputs
  have hout := h.numoutputs
  rw [maxCointxInputs] at hin
  rw [maxCointxOutputs] at hout
  have hlast := scanUint32_emit cointx.nlocktime []
  rw [List.append_nil] at hlast
  have hinputs : ∀ timestamp, (scanItems scanVin cointx.inputs.length
      ((cointx.inputs.map emitCointxInput).flatten ++ (hcalcVarint cointx.outputs.length ++
        ((cointx.outputs.map emitCointxOutput).flatten ++ emitUint32 cointx.nlocktime)))).andThen
          (scanRest cointx.version timestamp) = .item { cointx with timestamp := timestamp } [] := by
    intro timestamp
    rw [scanItems_emit (fun vin hv rest => scanVin_emit (h.inputs vin hv) rest), Scan.andThen, scanRest,
      scanVarint_emit (by omega)]
    dsimp only
    rw [if_neg (by rw [maxCointxOutputs]; omega),
      scanItems_emit (fun vout hv rest => scanVout_emit (h.outputs vout hv) rest), Scan.andThen, hlast, Scan.andThen]
  rw [CointxInfo.wire, scanTx, scanUint32_emit, Scan.andThen]
  by_cases hold : oldtx = 0
  · rw [if_pos hold, if_pos hold, if_pos hold, scanUint32_emit, Scan.andThen, scanVarint_emit (by omega)]
    dsimp only
    rw [if_neg (by rw [maxCointxInputs]; omega), hinputs]
  · rw [if_neg hold, if_neg hold, if_neg hold, List.nil_append, Scan.andThen, scanVarint_emit (by omega)]
    dsimp only
    rw [if_neg (by rw [maxCointxInputs]; omega), hinputs]

private theorem emitItems_eq {α : Type} {emit : α → List UInt8} {maxlen : Nat} {items : List α} {data : List UInt8}
    (h : (data ++ (items.map emit).flatten).length ≤ maxlen) :
    emitItems emit maxlen items data = some (data ++ (items.map emit).flatten) := by
  induction items generalizing data with
  | nil => rw [emitItems, List.map_nil, List.flatten_nil, List.append_nil]
  | cons a items ih =>
    rw [List.map_cons, List.flatten_cons, ← List.append_assoc] at h ⊢
    have hle : (data ++ emit a).length ≤ maxlen := by
      rw [List.length_append] at h
      omega
    rw [emitItems, if_neg (not_lt.mpr hle), ih h]

theorem emitCointxdata_eq {cointx : CointxInfo} {oldtx : Int} {maxlen : Nat}
    (h : (cointx.wire oldtx).length ≤ maxlen) : emitCointxdata maxlen cointx oldtx = some (cointx.wire oldtx) := by
  have hwire : cointx.wire oldtx = ((((emitUint32 cointx.version ++
      if oldtx = 0 then emitUint32 cointx.timestamp else []) ++ hcalcVarint cointx.inputs.length) ++
      (cointx.inputs.map emitCointxInput).flatten) ++ hcalcVarint cointx.outputs.length ++
      (cointx.outputs.map emitCointxOutput).flatten) ++ emitUint32 cointx.nlocktime := by
    simp only [CointxInfo.wire, List.append_assoc]
  rw [hwire, List.length_append] at h
  have hout : (((emitUint32 cointx.version ++ if oldtx = 0 then emitUint32 cointx.timestamp else []) ++
      hcalcVarint cointx.inputs.length ++ (cointx.inputs.map emitCointxInput).flatten) ++
      hcalcVarint cointx.outputs.length ++ (cointx.outputs.map emitCointxOutput).flatten).length ≤ maxlen := by
    omega
  have hin := hout
  rw [List.length_append, List.length_append] at hin
  rw [emitCointxdata, emitItems_eq (by omega : _ ≤ maxlen)]
  change (emitItems emitCointxOutput maxlen cointx.outputs _ >>= _) = _
  rw [emitItems_eq hout, hwire]
  rfl

/-- A string that passes the first test holds one byte for each two characters. -/
theorem decodeHex_accepted {hexstr : List Char} (h : refused hexstr = false) :
    decodeHex (hexstr.length >>> 1) hexstr = hexLoop (hexstr.length >>> 1) hexstr ∧
      hexstr.length = 2 * (hexstr.length >>> 1) := by
  rw [refused, Bool.or_eq_false_iff, Bool.or_eq_false_iff] at h
  obtain ⟨⟨-, hhex⟩, hodd⟩ := h
  have heven : hexstr.length = 2 * (hexstr.length >>> 1) := by
    have hbit := of_decide_eq_false hodd
    rw [not_not, Nat.and_one_is_mod] at hbit
    rw [Nat.shiftRight_eq_div_pow]
    omega
  rw [Bool.not_eq_false'] at hhex
  exact ⟨decodeHex_even hhex heven, heven⟩

private theorem accepted_hex {data : List UInt8} (hne : data ≠ []) (hl : data.length < sizeofData) :
    refused (initHexbytesNoT data) = false ∧ (initHexbytesNoT data).length >>> 1 = data.length := by
  have hlen := initHexbytesNoT_length data
  rw [sizeofData] at hl
  refine ⟨?_, ?_⟩
  · rw [refused, isHexstr_initHexbytesNoT hne, hlen, Nat.and_one_is_mod, sizeofData]
    simp
    omega
  · rw [hlen, Nat.shiftRight_eq_div_pow]
    omega

/-- `_decode_rawtransaction` undoes `_emit_cointx`: it reads only the emitted bytes,
returns the transaction and stands at their end. -/
theorem decodeRawtransaction_emitCointx (cointx : CointxInfo) (h : cointx.Fits) (oldtx : Int) (len : Nat)
    (hsmall : (cointx.wire oldtx).length < sizeofData) (hlen : (cointx.wire oldtx).length + 1 < len / 2)
    (junk : Memory) :
    ∃ hexstr decoded, emitCointx len cointx oldtx = some hexstr ∧
      (decodeRawtransaction junk hexstr oldtx).value = some decoded ∧
      decoded.cointx = { cointx with timestamp := if oldtx = 0 then cointx.timestamp else 0 } ∧
      2 * decoded.offset = hexstr.length := by
  have hdata : emitCointxdata len cointx oldtx = some (cointx.wire oldtx) := emitCointxdata_eq (by omega)
  have hne : cointx.wire oldtx ≠ [] := by
    intro h0
    have hv : (emitUint32 cointx.version).length = 4 := leBytes_length 4 _
    rw [CointxInfo.wire, List.append_eq_nil_iff] at h0
    rw [h0.1] at hv
    exact absurd hv (by decide)
  obtain ⟨hopen, hhalf⟩ := accepted_hex hne hsmall
  have hbytes : decodeHex (cointx.wire oldtx).length (initHexbytesNoT (cointx.wire oldtx)) = cointx.wire oldtx := by
    have hdec := (decodeHex_accepted hopen).1
    rw [hhalf] at hdec
    rw [hdec, hexLoop_initHexbytesNoT]
  have hfollow := decodeData_follows junk (initHexbytesNoT (cointx.wire oldtx)) oldtx (cointx.wire oldtx)
  rw [scanTx_wire h oldtx] at hfollow
  obtain ⟨-, pos, ht, hv⟩ := hfollow
  have hpos := ht.length
  rw [List.length_nil, Nat.add_zero] at hpos
  have hemit : emitCointx len cointx oldtx = some (initHexbytesNoT (cointx.wire oldtx)) := by
    rw [emitCointx, hdata]
    dsimp only
    rw [if_pos (by omega)]
  have hdecode : (decodeRawtransaction junk (initHexbytesNoT (cointx.wire oldtx)) oldtx).value =
      returned (initHexbytesNoT (cointx.wire oldtx)) oldtx
        { cointx with timestamp := if oldtx = 0 then cointx.timestamp else 0 } pos := by
    rw [decodeRawtransaction, hopen, if_neg Bool.false_ne_true, hhalf]
    dsimp only
    rw [hbytes]
    exact hv
  have hoffset : 2 * (pos : Int) = (initHexbytesNoT (cointx.wire oldtx)).length := by
    rw [initHexbytesNoT_length, hpos, Nat.cast_mul]
    rfl
  exact ⟨_, _, hemit, hdecode, rfl, hoffset⟩

/-- One input spending output 1 of the transaction 11..11, one output of 5 units. -/
def sampleTx : CointxInfo where
  version := 1
  timestamp := 7
  inputs := [⟨List.replicate 64 '1', 1, ['a', 'b', '0', '9'], 0xffffffff⟩]
  outputs := [⟨5, ['5', '1']⟩]
  nlocktime := 3

theorem decodeRawtransaction_emitCointx_sampleTx :
    ∃ hexstr decoded, emitCointx 1000 sampleTx 0 = some hexstr ∧
      (decodeRawtransaction (fun _ => 0xee) hexstr 0).value = some decoded ∧ decoded.cointx = sampleTx ∧
      2 * decoded.offset = hexstr.length := by
  have hfits : sampleTx.Fits := by
    refine ⟨by decide, by decide, ?_, ?_⟩
    · intro vin hvin
      obtain rfl := List.mem_singleton.mp hvin
      exact ⟨⟨List.all_eq_true.mp (by decide), by decide⟩, by decide, ⟨List.all_eq_true.mp (by decide), by decide⟩, by decide⟩
    · intro vout hvout
      obtain rfl := List.mem_singleton.mp hvout
      exact ⟨⟨List.all_eq_true.mp (by decide), by decide⟩, by decide⟩
  have hwire : (sampleTx.wire 0).length = 67 := by decide +kernel
  exact decodeRawtransaction_emitCointx sampleTx hfits 0 1000 (by rw [hwire]; decide) (by rw [hwire]; decide) _

end SuperNet.Coins.Cointx
