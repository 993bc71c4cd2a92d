import SuperNet.Coins.CointxRoundTrip
import SuperNet.InstantDEX.Subatomic

/-! What the refund of `subatomic_fundingtx` and the signed one of `subatomic_validate` say when they are decoded. -/
namespace SuperNet.InstantDEX.Subatomic
open Lib.AccessLog Lib.Bytes Utils.Hex Coins.Cointx

/-- One input, and one output that pays to the hash of a key. -/
structure PaysBack (T : CointxInfo) (vin : CointxInput) : Prop where
  inputs : T.inputs = [vin]
  txid : HexPairs vin.txidstr
  txid_length : vin.txidstr.length = 64
  outputs : ∃ vout : Rawvout, T.outputs = [vout] ∧ HexPairs vout.script ∧ vout.script.length = 50

section Decoding
variable {oldtx : Int} {T : CointxInfo} {vin : CointxInput}

private theorem hcalcVarint_length {x : Nat} (h : x ≤ 0xffff) : (hcalcVarint x).length ≤ 3 := by
  rw [hcalcVarint]
  split
  · exact Nat.le_of_ble_eq_true rfl
  · rw [List.length_cons, leBytes_length]

private theorem emitUint32_length (x : UInt32) : (emitUint32 x).length = 4 := leBytes_length 4 _

private theorem emitCointxInput_length (htxid : HexPairs vin.txidstr) (hlen : vin.txidstr.length = 64)
    (hsigs : vin.sigs.length ≤ 838) : (emitCointxInput vin).length ≤ 43 + vin.sigs.length / 2 := by
  have hne : vin.txidstr ≠ [] := List.ne_nil_of_length_pos (by omega)
  have hbytes : ((decodeHex 32 vin.txidstr).take 32).length = 32 := by
    rw [decodeHex_even (htxid.isHexstr hne) hlen, List.length_take, hexLoop_length, Nat.min_self]
  have hhalf : vin.sigs.length >>> 1 = vin.sigs.length / 2 := Nat.shiftRight_eq_div_pow _ 1
  have hcount := hcalcVarint_length (x := vin.sigs.length / 2) (by omega)
  have hbody : (if vin.sigs.length / 2 ≠ 0 then
      (decodeHex (vin.sigs.length / 2) vin.sigs).take (vin.sigs.length / 2) else []).length ≤ vin.sigs.length / 2 := by
    split
    · exact List.length_take_le _ _
    · exact Nat.zero_le _
  rw [emitCointxInput, hhalf]
  simp only [List.length_append, List.length_reverse, emitUint32_length]
  omega

private theorem emitCointxOutput_length {vout : Rawvout} (hlen : vout.script.length = 50) :
    (emitCointxOutput vout).length ≤ 34 := by
  have hhalf : vout.script.length >>> 1 = 25 := by rw [hlen]; rfl
  have hbody := List.length_take_le 25 (decodeHex 25 vout.script)
  rw [emitCointxOutput, hhalf, if_pos (by decide)]
  simp only [List.length_append, emitUint32_length, show (hcalcVarint 25).length = 1 from rfl]
  omega

/-- Such a transaction comes back from the string that it is emitted into. -/
theorem PaysBack.decodes (h : PaysBack T vin) (oldtx : Int) (hsigs : HexPairs vin.sigs) (hlen : vin.sigs.length ≤ 838) :
    ∃ hexstr, emitCointx 1024 T oldtx = some hexstr ∧
      ∀ junk, (decodeRawtransaction junk hexstr oldtx).value.map Decoded.cointx =
        some { T with timestamp := if oldtx = 0 then T.timestamp else 0 } := by
  obtain ⟨vout, houtputs, hscript, hvout⟩ := h.outputs
  have hfits : T.Fits := by
    refine ⟨by rw [h.inputs]; exact Nat.le_of_ble_eq_true rfl, by rw [houtputs]; exact Nat.le_of_ble_eq_true rfl,
      fun v hv => ?_, fun v hv => ?_⟩
    · rw [h.inputs, List.mem_singleton] at hv
      subst hv
      exact ⟨h.txid, h.txid_length, hsigs, lt_of_le_of_lt hlen (by decide)⟩
    · rw [houtputs, List.mem_singleton] at hv
      subst hv
      exact ⟨hscript, by rw [hvout]; decide⟩
  have hwire : (T.wire oldtx).length ≤ 91 + vin.sigs.length / 2 := by
    have hinput := emitCointxInput_length h.txid h.txid_length hlen
    have houtput := emitCointxOutput_length hvout
    have htime : (if oldtx = 0 then emitUint32 T.timestamp else []).length ≤ 4 := by
      split
      · exact (emitUint32_length _).le
      · exact Nat.zero_le _
    rw [CointxInfo.wire, h.inputs, houtputs]
    simp only [List.length_append, emitUint32_length, List.map_cons, List.map_nil, List.flatten_cons, List.flatten_nil,
      List.append_nil, List.length_cons, List.length_nil, Nat.zero_add, show (hcalcVarint 1).length = 1 from rfl]
    omega
  have hdata : (T.wire oldtx).length < sizeofData := by
    rw [sizeofData]
    omega
  have hroom : (T.wire oldtx).length + 1 < 1024 / 2 := by omega
  obtain ⟨hexstr, -, hemit, -⟩ := decodeRawtransaction_emitCointx T hfits oldtx 1024 hdata hroom fun _ => 0
  refine ⟨hexstr, hemit, fun junk => ?_⟩
  obtain ⟨hexstr', decoded, hemit', hvalue, hcointx, -⟩ := decodeRawtransaction_emitCointx T hfits oldtx 1024 hdata hroom junk
  cases hemit.symm.trans hemit'
  rw [hvalue, Option.map_some, hcointx]

end Decoding

section Signing
variable {η κ ρ : Type} {L : Library η κ ρ} {node : Node} {oldtx : Int} {refT T : CointxInfo} {vin : CointxInput}

private theorem le_decodeHex_length (n : Nat) (hex : Text) : n ≤ (decodeHex n hex).length := by
  rw [decodeHex]
  split
  · rw [List.length_replicate]
  · split
    · rw [List.length_cons, hexLoop_length]
      exact Nat.le_succ n
    · rw [hexLoop_length]

theorem decodeInto_length {room n : Nat} {hex : Text} {bytes : List UInt8} (h : decodeInto room n hex = some bytes) :
    bytes.length = n := by
  rw [decodeInto] at h
  split at h
  · cases h
  · rw [← Option.some.inj h, List.length_take, Nat.min_eq_left (le_decodeHex_length n hex)]

theorem createAtomictxScripts_bytes {pubkeyA pubkeyB hash160str redeemscript : Text}
    (h : createAtomictxScripts pubkeyA pubkeyB hash160str = some redeemscript) :
    ∃ script, redeemscript = initHexbytesNoT script ∧ script.length = 99 := by
  simp only [createAtomictxScripts, Option.bind_eq_bind, Option.bind_eq_some_iff] at h
  obtain ⟨a, ha, b, hb, c, hc, h⟩ := h
  refine ⟨_, (Option.some.inj h).symm, ?_⟩
  simp only [atomicScript, List.length_append, List.length_cons, List.length_nil, decodeInto_length ha,
    decodeInto_length hb, decodeInto_length hc]

theorem hexPairs_initHexbytesNoT (bytes : List UInt8) : HexPairs (initHexbytesNoT bytes) := by
  refine ⟨fun c hc => ?_, by rw [initHexbytesNoT_length]; omega⟩
  have hne : bytes ≠ [] := by
    rintro rfl
    cases hc
  have hall := isHexstr_initHexbytesNoT hne
  rw [isHexstr, Bool.and_eq_true, List.all_eq_true] at hall
  exact hall.2 c hc

/-- What is signed: the script stands in the input, which gets a sequence number, and the lock may be set. -/
theorem toSign_paysBack {lockblocks : UInt32} {redeemscript : Text} (h : PaysBack refT vin)
    (hT : toSign node refT true lockblocks 0 redeemscript = some T) :
    ∃ sequence, PaysBack T { vin with sigs := redeemscript, sequence } := by
  have hinputs := h.inputs
  unfold toSign at hT
  rw [hinputs] at hT
  simp only [Bool.not_true, Bool.false_eq_true, if_false, List.getD_cons_zero, List.map_cons, List.map_nil,
    List.set_cons_zero] at hT
  refine ⟨if vin.sequence = 0 then node.time else vin.sequence, ?_⟩
  split at hT
  · split at hT
    · cases hT
    · cases hT
      exact ⟨rfl, h.txid, h.txid_length, h.outputs⟩
  · cases hT
    exact ⟨rfl, h.txid, h.txid_length, h.outputs⟩

/-- The way through `subatomic_signp2sh` for a refund: what is hashed, the signatures, and the string. -/
theorem subatomicSignp2sh_some {lockblocks : UInt32} {redeemscript hexstr : Text} {p2shflag : Bool}
    {privkeystr : Option Text} {privkeyind : Nat} {other : Option (Text × Text)}
    (h : subatomicSignp2sh L node oldtx refT true lockblocks 0 redeemscript p2shflag privkeystr privkeyind other =
      some (some hexstr)) :
    ∃ T hash2 sigs, toSign node refT true lockblocks 0 redeemscript = some T ∧ sighash L T oldtx = some hash2 ∧
      refundSigs L hash2 node.stray privkeystr privkeyind other = some (some sigs) ∧
      emitCointx 1024 { T with inputs := T.inputs.modify 0 fun vin => { vin with
        sigs := if sigs = [] then [] else
          sigs ++ (if p2shflag then ['4', 'c'] ++ hex02 (redeemscript.length / 2) else []) ++ redeemscript } } oldtx =
        some hexstr := by
  unfold subatomicSignp2sh at h
  cases hT : toSign node refT true lockblocks 0 redeemscript with
  | none =>
    rw [hT] at h
    cases h
  | some T =>
    rw [hT] at h
    simp only [Option.bind_eq_bind, Option.bind_eq_some_iff, if_true] at h
    obtain ⟨hash2, hhash, sigs, hsigs, h⟩ := h
    cases sigs with
    | none => cases h
    | some sigs =>
      obtain ⟨-, h⟩ := Option.ite_none_left_eq_some.mp h
      obtain ⟨hexstr', hemit, h⟩ := Option.bind_eq_some_iff.mp h
      cases h
      exact ⟨T, hash2, sigs, rfl, hhash, hsigs, hemit⟩

/-- A coin whose transactions have no time hashes none. -/
theorem sighash_timestamp (T : CointxInfo) :
    sighash L { T with timestamp := if oldtx = 0 then T.timestamp else 0 } oldtx = sighash L T oldtx := by
  by_cases hold : oldtx = 0
  · rw [if_pos hold]
  · simp only [sighash, emitCointxdata, if_neg hold]

end Signing

section Funding
variable {η κ ρ : Type}

/-- What is documented of the libraries: the sizes of a hash and of a signature, and the txid in hex. -/
structure Library.Documented (L : Library η κ ρ) : Prop where
  hash160 : ∀ hex, (L.calcOpHash160 hex).length = 20
  sign : ∀ key hash2 sig, L.bpSign key hash2 = some sig → sig.length ≤ 72
  txid : ∀ tx txid, L.decodetxid tx = some txid → HexPairs txid ∧ txid.length = 64
  empty : L.decodetxid [] = none

/-- No signed transaction fills its field to the last character, where the txid would take the place of the end mark. -/
def Node.Ends (node : Node) : Prop :=
  ∀ inputs rawbytes deststr, node.signrawtransaction inputs rawbytes = some deststr → deststr.length ≠ 1024

def Spends (L : Library η κ ρ) (oldtx : Int) (signedtransaction refundtx : Text) : Prop :=
  ∃ T vin, (∀ junk, (decodeRawtransaction junk refundtx oldtx).value.map Decoded.cointx = some T) ∧ PaysBack T vin ∧
    L.decodetxid signedtransaction = some vin.txidstr ∧ vin.vout = 0

variable {L : Library η κ ρ} {node : Node} {coin coin' : Coin777}

private theorem subatomicSigntx_txid (hL : L.Documented) (hends : node.Ends) {rp rp' : Rawtransaction}
    {rawbytes txid : Text} (h : subatomicSigntx L node rp rawbytes = (rp', some txid)) :
    L.decodetxid rp'.signedtransaction = some txid := by
  unfold subatomicSigntx at h
  dsimp only at h
  cases hsign : node.signrawtransaction rp.inputs rawbytes with
  | none =>
    rw [hsign] at h
    cases h
  | some deststr =>
    rw [hsign] at h
    dsimp only at h
    split at h
    · cases h
    · cases htxid : L.decodetxid deststr with
      | none =>
        rw [htxid] at h
        cases h
      | some id =>
        have hlen := (hL.txid deststr id htxid).2
        rw [htxid] at h
        dsimp only at h
        rw [if_neg (hends _ _ _ hsign), List.take_of_length_le (by omega)] at h
        cases h
        exact htxid

private theorem subatomicGenRawtransaction_txid (hL : L.Documented) (hends : node.Ends) {rp rp' : Rawtransaction}
    {locktime vin0sequenceid : UInt32} {redeem0script : Option Text} {txid : Text}
    (h : subatomicGenRawtransaction L node coin rp locktime vin0sequenceid redeem0script = (rp', some txid)) :
    L.decodetxid rp'.signedtransaction = some txid := by
  unfold subatomicGenRawtransaction at h
  split at h
  · cases h
  · cases h
  · dsimp only at h
    split at h
    · cases h
    · exact subatomicSigntx_txid hL hends h

private theorem refundTemplate_paysBack (hL : L.Documented) {tx txid : Text} (htxid : L.decodetxid tx = some txid)
    (funding : Rawtransaction) (mypubkey : Text) :
    PaysBack (refundTemplate L node coin funding txid mypubkey) ⟨txid, 0, [], 0⟩ := by
  obtain ⟨hhex, hlen⟩ := hL.txid tx txid htxid
  have hscript : (['7', '6', 'a', '9', '1', '4'] ++ initHexbytesNoT (L.calcOpHash160 mypubkey) ++ ['8', '8', 'a', 'c'] :
      Text) = initHexbytesNoT ([0x76, 0xa9, 0x14] ++ L.calcOpHash160 mypubkey ++ [0x88, 0xac]) := by
    rw [initHexbytesNoT_append, initHexbytesNoT_append]
    rfl
  refine ⟨rfl, hhex, hlen, _, rfl, ?_, ?_⟩
  · dsimp only
    rw [hscript]
    exact hexPairs_initHexbytesNoT _
  · dsimp only
    rw [hscript, initHexbytesNoT_length, List.length_append, List.length_append, hL.hash160]
    rfl

private theorem subatomicSignp2sh_refund (hL : L.Documented) {oldtx : Int} {tx txid : Text}
    (htxid : L.decodetxid tx = some txid) {funding : Rawtransaction} {mypubkey redeemscript refundtx : Text}
    {lockblocks : UInt32} {p2shflag : Bool}
    (h : subatomicSignp2sh L node oldtx (refundTemplate L node coin funding txid mypubkey) true lockblocks 0 redeemscript
      p2shflag none 0 none = some (some refundtx)) : Spends L oldtx tx refundtx := by
  obtain ⟨T, hash2, sigs, hT, -, hsigs, hemit⟩ := subatomicSignp2sh_some h
  obtain ⟨sequence, hback⟩ := toSign_paysBack (refundTemplate_paysBack hL htxid funding mypubkey) hT
  cases hsigs
  have hempty : PaysBack { T with inputs := T.inputs.modify 0 fun vin => { vin with sigs := [] } }
      ⟨txid, 0, [], sequence⟩ := by
    refine ⟨?_, hback.txid, hback.txid_length, hback.outputs⟩
    dsimp only
    rw [hback.inputs]
    rfl
  obtain ⟨hexstr, hemit', hdecode⟩ := hempty.decodes oldtx ⟨by simp, rfl⟩ (Nat.zero_le _)
  cases hemit.symm.trans hemit'
  exact ⟨_, ⟨txid, 0, [], sequence⟩, hdecode, ⟨hempty.inputs, hempty.txid, hempty.txid_length, hempty.outputs⟩, htxid, rfl⟩

@[simp] theorem gatherUnspents_refundtx (node : Node) (coin : Coin777) :
    (gatherUnspents node coin).refundtx = coin.refundtx := by
  unfold gatherUnspents
  split
  · split <;> rfl
  · rfl

@[simp] theorem gatherUnspents_oldtxFormat (node : Node) (coin : Coin777) :
    (gatherUnspents node coin).oldtxFormat = coin.oldtxFormat := by
  unfold gatherUnspents
  split
  · split <;> rfl
  · rfl

/-- What `subatomic_fundingtx` leaves as it is, and the refund that it returns. -/
theorem subatomicFundingtx_some (hL : L.Documented) (hends : node.Ends)
    {mypubkey otherpubkey pkhash redeemscript : Text} {amount : UInt64} {lockblocks : UInt32} {refundtx : Option Text}
    (h : subatomicFundingtx L node coin mypubkey otherpubkey pkhash amount lockblocks =
      some (coin', redeemscript, refundtx)) :
    coin'.oldtxFormat = coin.oldtxFormat ∧ coin'.refundtx = coin.refundtx ∧ ∀ refund, refundtx = some refund →
      createAtomictxScripts mypubkey otherpubkey pkhash = some redeemscript ∧
        Spends L coin.oldtxFormat coin'.funding.signedtransaction refund := by
  simp only [subatomicFundingtx, Option.bind_eq_bind, Option.bind_eq_some_iff] at h
  obtain ⟨script, hscript, h⟩ := h
  have hkept := gatherUnspents_refundtx node { coin with funding := .clear }
  have hformat := gatherUnspents_oldtxFormat node { coin with funding := .clear }
  split at h
  · cases h
    exact ⟨rfl, rfl, fun _ hrefund => nomatch hrefund⟩
  split at h
  · cases h
    exact ⟨hformat, hkept, fun _ hrefund => nomatch hrefund⟩
  split at h
  · cases h
    exact ⟨hformat, hkept, fun _ hrefund => nomatch hrefund⟩
  split at h
  · cases h
    exact ⟨hformat, hkept, fun _ hrefund => nomatch hrefund⟩
  split at h
  · cases h
    exact ⟨hformat, hkept, fun _ hrefund => nomatch hrefund⟩
  · rename_i txid htxid
    split at h
    · cases h
      exact ⟨hformat, hkept, fun _ hrefund => nomatch hrefund⟩
    · split at h
      · cases h
      · obtain ⟨refund, hsign, h⟩ := Option.bind_eq_some_iff.mp h
        cases h
        refine ⟨hformat, hkept, fun refund hrefund => ?_⟩
        subst hrefund
        rw [hformat] at hsign
        exact ⟨hscript, subatomicSignp2sh_refund hL
          (subatomicGenRawtransaction_txid hL hends (Prod.ext rfl htxid)) hsign⟩

end Funding

section Release
variable {η κ ρ : Type} (L : Library η κ ρ)

/-- What a refund has to be: its input spends output 0 of the funding transaction with the redeem script of that
transaction, and the second signature in it verifies under the second key of the script. -/
structure Refunds (oldtx : Int) (signedtransaction redeemscript pubB signedrefund : Text) : Prop where
  spends : ∃ T vin own sig pubkey keyV hash2,
    (∀ junk, (decodeRawtransaction junk signedrefund oldtx).value.map Decoded.cointx = some T) ∧
    T.inputs = [vin] ∧ L.decodetxid signedtransaction = some vin.txidstr ∧ vin.vout = 0 ∧
    vin.sigs = ['0', '0'] ++ hex02 own.length ++ initHexbytesNoT own ++ hex02 (sig.length + 1) ++
      initHexbytesNoT (sig ++ [SIGHASH_ALL]) ++ ['5', '1', '4', 'c'] ++ hex02 (redeemscript.length / 2) ++ redeemscript ∧
    decodeInto 33 33 pubB = some pubkey ∧ L.bpPubkeySet pubkey = some keyV ∧
    sighash L { T with inputs := [{ vin with sigs := redeemscript }] } oldtx = some hash2 ∧
    L.bpVerify keyV hash2 sig = true

/-- The way to `bp_verify` in `subatomic_validate`: no address was written, the node has a key for what lies in the
array, and the signature of the other side is one of type `SIGHASH_ALL`. -/
structure Tested (node : Node) (coin : Coin777) (pubA pubB pkhash refundtx refundsig : Text) (own : List UInt8)
    (verified : Bool) : Prop where
  unwritten : node.base58EncodeCheck coin.addrtype (L.calcOpHash160 pubA) = none
  tested : ∃ refundT privkeystr redeemscript T hash2,
    (decodeRawtransaction node.memory refundtx coin.oldtxFormat).value = some refundT ∧
    node.dumpprivkey node.mycoinaddr = some privkeystr ∧ createAtomictxScripts pubA pubB pkhash = some redeemscript ∧
    toSign node refundT.cointx true 0 0 redeemscript = some T ∧ sighash L T coin.oldtxFormat = some hash2 ∧
    checkOthersig L hash2 node.stray refundsig pubB = some (some verified) ∧
    L.bpSign (L.btcSetprivkey privkeystr) hash2 = some own

/-- What is asked of a signature there: it verifies, under a key of 33 bytes, and the refund has room for both. -/
structure Sound (pubB refundsig : Text) (own : List UInt8) (verified : Bool) : Prop where
  verified : verified = true
  key : pubB.length >>> 1 = 33
  even : refundsig.length % 2 = 0
  short : refundsig.length / 2 < 256
  room : own.length + refundsig.length / 2 ≤ 313

variable {L}

theorem Refunds.ofKey {oldtx : Int} {signedtransaction redeemscript pubB pubB' signedrefund : Text}
    (hkey : decodeHex 33 pubB = decodeHex 33 pubB') (h : Refunds L oldtx signedtransaction redeemscript pubB signedrefund) :
    Refunds L oldtx signedtransaction redeemscript pubB' signedrefund := by
  obtain ⟨T, vin, own, sig, pubkey, keyV, hash2, hdecode, hinputs, htxid, hvout, hsigs, hpub, hset, hhash, hverify⟩ := h
  rw [decodeInto, hkey] at hpub
  exact ⟨T, vin, own, sig, pubkey, keyV, hash2, hdecode, hinputs, htxid, hvout, hsigs, hpub, hset, hhash, hverify⟩

theorem checkOthersig_verified {hash2 : η} {stray : UInt8} {othersig otherpubkey : Text}
    (h : checkOthersig L hash2 stray othersig otherpubkey = some (some true)) (heven : othersig.length % 2 = 0) :
    ∃ key keyV sig, decodeInto 4096 (otherpubkey.length >>> 1) otherpubkey = some key ∧ L.bpPubkeySet key = some keyV ∧
      othersig = initHexbytesNoT (sig ++ [SIGHASH_ALL]) ∧ L.bpVerify keyV hash2 sig = true := by
  simp only [checkOthersig, Option.bind_eq_bind, Option.bind_eq_some_iff] at h
  obtain ⟨key, hkey, h⟩ := h
  cases hset : L.bpPubkeySet key with
  | none =>
    rw [hset] at h
    cases h
  | some keyV =>
    rw [hset] at h
    obtain ⟨data, hdata, h⟩ := Option.bind_eq_some_iff.mp h
    have hlen := decodeInto_length hdata
    generalize hn : othersig.length >>> 1 = n at h hdata hlen
    rw [Nat.shiftRight_eq_div_pow] at hn
    split at h
    · cases h
    · rename_i htype
      rw [not_not] at htype
      simp only [Option.some.injEq, Bool.and_eq_true, decide_eq_true_eq, ne_eq] at h
      obtain ⟨hpos, hverify⟩ := h
      obtain ⟨m, rfl⟩ := Nat.exists_eq_succ_of_ne_zero hpos
      rw [List.getD_cons_succ] at htype
      have hbytes : data = (decodeHex (m + 1) othersig).take (m + 1) := by
        rw [decodeInto] at hdata
        split at hdata
        · cases hdata
        · exact (Option.some.inj hdata).symm
      -- of anything but hex digits `decode_hex` makes zeroes, and 0 is not the type of a signature
      have hhex : isHexstr othersig = true := by
        by_contra hnot
        rw [decodeHex, if_pos (by rw [Bool.not_eq_true] at hnot; rw [hnot]; rfl), List.take_of_length_le (by simp)] at hbytes
        rw [hbytes, List.getD_eq_getElem?_getD, List.getElem?_replicate] at htype
        split at htype <;> cases htype
      have hdigits : ∀ c ∈ othersig, (unhex? c).isSome := by
        rw [isHexstr, Bool.and_eq_true, List.all_eq_true] at hhex
        exact hhex.2
      have htwice : othersig.length = 2 * (m + 1) := by omega
      rw [decodeHex_even hhex htwice, List.take_of_length_le (hexLoop_length _ _).le] at hbytes
      refine ⟨key, keyV, data.take m, hkey, hset, ?_, hverify⟩
      have hlast : data = data.take m ++ [SIGHASH_ALL] := by
        have hm : m < data.length := by omega
        have hget : data[m] = SIGHASH_ALL := by
          rwa [List.getD_eq_getElem?_getD, List.getElem?_eq_getElem hm, Option.getD_some] at htype
        rw [← hget, List.take_append_getElem, List.take_of_length_le hlen.le]
      rw [← hlast, hbytes, initHexbytesNoT_hexLoop hdigits htwice]

/-- The signatures that `subatomic_validate` puts in front of the script. -/
theorem refundSigs_some {hash2 : η} {stray : UInt8} {privkeystr othersig otherpubkey sigs : Text}
    (h : refundSigs L hash2 stray (some privkeystr) 0 (some (othersig, otherpubkey)) = some (some sigs)) :
    ∃ verified own, checkOthersig L hash2 stray othersig otherpubkey = some (some verified) ∧
      L.bpSign (L.btcSetprivkey privkeystr) hash2 = some own ∧
      sigs = ['0', '0'] ++ hex02 ((initHexbytesNoT (own ++ [SIGHASH_ALL])).length >>> 1) ++
        initHexbytesNoT (own ++ [SIGHASH_ALL]) ++ hex02 (othersig.length >>> 1) ++ othersig ++ ['5', '1'] := by
  simp only [refundSigs, Option.bind_eq_bind, Option.bind_eq_some_iff] at h
  obtain ⟨checked, hchecked, h⟩ := h
  cases checked with
  | none => cases h
  | some verified =>
    dsimp only at h
    cases hsign : L.bpSign (L.btcSetprivkey privkeystr) hash2 with
    | none =>
      rw [hsign] at h
      cases h
    | some own =>
      rw [hsign] at h
      exact ⟨verified, own, hchecked, rfl, (Option.some.inj (Option.some.inj h)).symm⟩

private theorem subatomicValidate_some {node : Node} {coin : Coin777} {pubA pubB pkhash refundtx refundsig signedrefund : Text}
    (h : subatomicValidate L node coin pubA pubB pkhash refundtx refundsig = some (some signedrefund)) :
    ∃ refundT privkeystr redeemscript,
      (decodeRawtransaction node.memory refundtx coin.oldtxFormat).value = some refundT ∧
      node.base58EncodeCheck coin.addrtype (L.calcOpHash160 pubA) = none ∧
      node.dumpprivkey node.mycoinaddr = some privkeystr ∧ createAtomictxScripts pubA pubB pkhash = some redeemscript ∧
      subatomicSignp2sh L node coin.oldtxFormat refundT.cointx true 0 0 redeemscript true (some privkeystr) 0
        (some (refundsig, pubB)) = some (some signedrefund) := by
  unfold subatomicValidate at h
  split at h
  · cases h
  · rename_i refundT hdecode
    rw [btcCoinaddr, btcConvrmd160] at h
    cases hbase : node.base58EncodeCheck coin.addrtype (L.calcOpHash160 pubA) with
    | some addr =>
      rw [hbase] at h
      cases h
    | none =>
      rw [hbase] at h
      dsimp only at h
      rw [if_neg (by decide)] at h
      obtain ⟨-, h⟩ := Option.ite_none_left_eq_some.mp h
      split at h
      · cases h
      · rename_i privkeystr hkey
        obtain ⟨redeemscript, hscript, h⟩ := Option.bind_eq_some_iff.mp h
        exact ⟨refundT, privkeystr, redeemscript, hdecode, rfl, hkey, hscript, h⟩

private theorem sigs_hexPairs (own sig script : List UInt8) (hown : own.length < 255) (hsig : sig.length < 255)
    (hscript : script.length = 99) (hroom : own.length + sig.length ≤ 312) :
    HexPairs (['0', '0'] ++ hex02 (own.length + 1) ++ initHexbytesNoT (own ++ [SIGHASH_ALL]) ++ hex02 (sig.length + 1) ++
      initHexbytesNoT (sig ++ [SIGHASH_ALL]) ++ ['5', '1'] ++ (['4', 'c'] ++ hex02 99) ++ initHexbytesNoT script) ∧
    (['0', '0'] ++ hex02 (own.length + 1) ++ initHexbytesNoT (own ++ [SIGHASH_ALL]) ++ hex02 (sig.length + 1) ++
      initHexbytesNoT (sig ++ [SIGHASH_ALL]) ++ ['5', '1'] ++ (['4', 'c'] ++ hex02 99) ++
      initHexbytesNoT script).length ≤ 838 := by
  have hbytes : (['0', '0'] ++ hex02 (own.length + 1) ++ initHexbytesNoT (own ++ [SIGHASH_ALL]) ++
      hex02 (sig.length + 1) ++ initHexbytesNoT (sig ++ [SIGHASH_ALL]) ++ ['5', '1'] ++ (['4', 'c'] ++ hex02 99) ++
      initHexbytesNoT script : Text) =
      initHexbytesNoT ([0] ++ [UInt8.ofNat (own.length + 1)] ++ (own ++ [SIGHASH_ALL]) ++ [UInt8.ofNat (sig.length + 1)] ++
        (sig ++ [SIGHASH_ALL]) ++ [0x51] ++ ([0x4c] ++ [99]) ++ script) := by
    rw [hex02_byte (by omega), hex02_byte (by omega), hex02_byte (by decide)]
    simp only [initHexbytesNoT_append]
    rfl
  rw [hbytes]
  refine ⟨hexPairs_initHexbytesNoT _, ?_⟩
  simp only [initHexbytesNoT_length, List.length_append, List.length_cons, List.length_nil, hscript]
  omega

/-- Behind a sound signature the refund is one for the funding transaction. -/
theorem subatomicValidate_refunds (hL : L.Documented) {node : Node} {coin : Coin777}
    {signedtransaction pubA pubB pkhash refundtx refundsig signedrefund : Text}
    (hspends : Spends L coin.oldtxFormat signedtransaction refundtx)
    (hsound : ∀ own verified, Tested L node coin pubA pubB pkhash refundtx refundsig own verified →
      Sound pubB refundsig own verified)
    (h : subatomicValidate L node coin pubA pubB pkhash refundtx refundsig = some (some signedrefund)) :
    ∃ own verified redeemscript, Tested L node coin pubA pubB pkhash refundtx refundsig own verified ∧
      createAtomictxScripts pubA pubB pkhash = some redeemscript ∧
      Refunds L coin.oldtxFormat signedtransaction redeemscript pubB signedrefund := by
  obtain ⟨refundT, privkeystr, redeemscript, hdecode, hbase, hkey, hscript, hsigned⟩ := subatomicValidate_some h
  obtain ⟨T, hash2, sigs, hT, hhash, hsigs, hemit⟩ := subatomicSignp2sh_some hsigned
  obtain ⟨verified, own, hcheck, hown, rfl⟩ := refundSigs_some hsigs
  have htested : Tested L node coin pubA pubB pkhash refundtx refundsig own verified :=
    ⟨hbase, refundT, privkeystr, redeemscript, T, hash2, hdecode, hkey, hscript, hT, hhash, hcheck, hown⟩
  refine ⟨own, verified, redeemscript, htested, hscript, ?_⟩
  obtain ⟨hverified, hpubB, heven, hshort, hroom⟩ := hsound own verified htested
  subst hverified
  obtain ⟨key, keyV, sig, hdata, hset, rfl, hverify⟩ := checkOthersig_verified hcheck heven
  obtain ⟨script, rfl, hlen⟩ := createAtomictxScripts_bytes hscript
  obtain ⟨refT, vin, hrefT, hback, htxid, hvout⟩ := hspends
  have hsame : refundT.cointx = refT := by
    have hmem := hrefT node.memory
    rw [hdecode] at hmem
    exact Option.some.inj hmem
  rw [hsame] at hT
  obtain ⟨sequence, hsign⟩ := toSign_paysBack hback hT
  have hsiglen : (sig ++ [SIGHASH_ALL]).length = sig.length + 1 := List.length_append
  have hownlen : (own ++ [SIGHASH_ALL]).length = own.length + 1 := List.length_append
  have hownsmall := hL.sign _ _ _ hown
  rw [initHexbytesNoT_length, hsiglen] at heven hshort hroom
  obtain ⟨hpairs, hfits⟩ := sigs_hexPairs own sig script (by omega) (by omega) hlen (by omega)
  have hhalf : ∀ bytes : List UInt8, (initHexbytesNoT bytes).length >>> 1 = bytes.length := fun bytes => by
    rw [initHexbytesNoT_length, Nat.shiftRight_eq_div_pow]
    omega
  have hscriptlen : (initHexbytesNoT script).length / 2 = 99 := by
    rw [initHexbytesNoT_length, hlen]
  rw [if_neg (by simp), if_pos rfl, hhalf, hhalf, hownlen, hsiglen, hscriptlen] at hemit
  generalize hfull : (['0', '0'] ++ hex02 (own.length + 1) ++ initHexbytesNoT (own ++ [SIGHASH_ALL]) ++
    hex02 (sig.length + 1) ++ initHexbytesNoT (sig ++ [SIGHASH_ALL]) ++ ['5', '1'] ++ (['4', 'c'] ++ hex02 99) ++
    initHexbytesNoT script : Text) = full at hemit hpairs hfits
  have hinputs : T.inputs = [{ vin with sigs := initHexbytesNoT script, sequence }] := hsign.inputs
  have hfinal : PaysBack { T with inputs := T.inputs.modify 0 fun vin => { vin with sigs := full } }
      { vin with sigs := full, sequence } := by
    refine ⟨?_, hsign.txid, hsign.txid_length, hsign.outputs⟩
    dsimp only
    rw [hinputs]
    rfl
  obtain ⟨hexstr, hemit', hdecoded⟩ := hfinal.decodes coin.oldtxFormat hpairs hfits
  cases hemit.symm.trans hemit'
  have hpubkey : decodeInto 33 33 pubB = some key := by
    simp only [createAtomictxScripts, Option.bind_eq_bind, Option.bind_eq_some_iff] at hscript
    obtain ⟨-, -, b, hb, -⟩ := hscript
    rw [hpubB] at hdata
    rw [decodeInto] at hb hdata
    split at hb
    · cases hb
    · split at hdata
      · cases hdata
      · rw [decodeInto, if_neg ‹_›]
        exact hdata
  have hsighash : sighash L { T with timestamp := if coin.oldtxFormat = 0 then T.timestamp else 0
                                     inputs := [{ vin with sigs := initHexbytesNoT script, sequence }] } coin.oldtxFormat =
      some hash2 := by
    rw [← hinputs, ← hhash]
    exact sighash_timestamp T
  refine ⟨_, { vin with sigs := full, sequence }, own ++ [SIGHASH_ALL], sig, key, keyV, hash2, hdecoded, hfinal.inputs,
    htxid, hvout, ?_, hpubkey, hset, hsighash, hverify⟩
  rw [hownlen, hscriptlen, ← hfull]
  simp only [List.append_assoc]
  rfl

end Release

end SuperNet.InstantDEX.Subatomic
