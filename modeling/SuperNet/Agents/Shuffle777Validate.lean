import SuperNet.Coins.Cointx

/-! What a jumblr participant checks before it signs the joint transaction: `jumblr_validate` of
shuffle777.c up to the call of `jumblr_signvin`. -/
namespace SuperNet.Agents.Shuffle777
open SuperNet.Lib.AccessLog SuperNet.Lib.Bytes SuperNet.Utils.Hex SuperNet.Coins.Cointx

structure JumblrInfo where
  destaddr : List Char
  changeaddr : List Char
  inputtxid : List Char
  vin : Int
  amount : UInt64
  change : UInt64

/-- The coin of a shuffle: `btc_convrmd160` for its type of addresses, and the form of its transactions. -/
structure Coin where
  convrmd160 : List UInt8 → List Char
  oldtxFormat : Int

section
variable (coin : Coin) (sp : JumblrInfo)

/-- The address that `jumblr_validate` finds in an output: of the 20 bytes behind the third one, whatever
the script is. -/
def outputAddr (out : Rawvout) : List Char := coin.convrmd160 (decodeHex 20 (out.script.drop 6))

def isDest (out : Rawvout) : Bool := outputAddr coin out = sp.destaddr ∧ sp.amount ≤ out.value

def isChange (out : Rawvout) : Bool := sp.change ≠ 0 ∧ outputAddr coin out = sp.changeaddr ∧ sp.change ≤ out.value

def isOwn (input : CointxInput) : Bool := input.txidstr = sp.inputtxid ∧ (input.vout.toNat : Int) = sp.vin

def outAt (outputs : List Rawvout) (i : Nat) : Rawvout := outputs.getD i ⟨0, []⟩

def inAt (inputs : List CointxInput) (i : Nat) : CointxInput := inputs.getD i ⟨[], 0, [], 0⟩

def sameOutpoint (a b : CointxInput) : Prop := a.txidstr = b.txidstr ∧ a.vout = b.vout

instance (a b : CointxInput) : Decidable (sameOutpoint a b) := inferInstanceAs (Decidable (_ ∧ _))

def duplicateOutput (outputs : List Rawvout) (i : Nat) : Bool :=
  (List.range outputs.length).any fun j => i ≠ j ∧ (outAt outputs i).script = (outAt outputs j).script

def duplicateInput (inputs : List CointxInput) (i : Nat) : Bool :=
  (List.range inputs.length).any fun j => i ≠ j ∧ sameOutpoint (inAt inputs i) (inAt inputs j)

/-- The test after which the outputs need not be looked at any more. -/
def found (vout changeout : Option Nat) : Bool := (sp.change = 0 ∨ changeout.isSome) ∧ vout.isSome

/-- The loop over the outputs, with those still to come; `none` after a duplicate. -/
def scanOutputs (outputs : List Rawvout) : List Nat → Option Nat → Option Nat → Option (Option Nat × Option Nat)
  | [], vout, changeout => some (vout, changeout)
  | i :: is, vout, changeout =>
    if duplicateOutput outputs i then none
    else
      let vout := if vout.isNone ∧ isDest coin sp (outAt outputs i) then some i else vout
      let changeout := if changeout.isNone ∧ isChange coin sp (outAt outputs i) then some i else changeout
      if found sp vout changeout then some (vout, changeout) else scanOutputs outputs is vout changeout

/-- The loop over the inputs; `none` after a duplicate or without the own input. -/
def scanInputs (inputs : List CointxInput) : List Nat → Option Nat
  | [] => none
  | i :: is =>
    if duplicateInput inputs i then none
    else if isOwn sp (inAt inputs i) then some i else scanInputs inputs is

/-- An output as it lies in memory. The characters of a script that has no room in `script` and the NUL are
stored over `value`, and the string goes on into what lies `behind` the output. -/
def overrun (behind : List Char) (out : Rawvout) : Rawvout :=
  if out.script.length < sizeofScript then out
  else
    let rest := (out.script.drop sizeofScript).map (fun c => UInt8.ofNat c.toNat) ++ [0]
    let value := (rest ++ (leBytes 8 out.value.toNat).drop rest.length).take 8
    ⟨UInt64.ofNat (leValue value),
      if rest.length ≤ 8 then out.script else out.script.take (sizeofScript + 8) ++ behind⟩

/-- The outputs as the decoder leaves them. The next output clears what a script has stored in it, so the
memory behind each is not that of the script. -/
def laid (behind : Nat → List Char) (tx : CointxInfo) : CointxInfo :=
  { tx with outputs := tx.outputs.mapIdx fun i out => overrun (behind i) out }

/-- The input that `jumblr_validate` goes on to sign in a decoded transaction. -/
def validated (tx : CointxInfo) : Option Nat :=
  match scanOutputs coin sp tx.outputs (List.range tx.outputs.length) none none with
  | some (vout, changeout) => if found sp vout changeout then scanInputs sp tx.inputs (List.range tx.inputs.length) else none
  | none => none

/-- `jumblr_validate` of a raw transaction, with whatever `junk` lies around it in the decoder and `behind`
an output that a script overruns: the transaction that was received and the input that is given to
`jumblr_signvin`. -/
def jumblrValidate (junk : Memory) (behind : Nat → List Char) (rawtx : List Char) : Option (CointxInfo × Nat) :=
  match (decodeRawtransaction junk rawtx coin.oldtxFormat).value with
  | some decoded => (validated coin sp (laid behind decoded.cointx)).map fun vin => (decoded.cointx, vin)
  | none => none

/-- The standard script that pays to the hash of a public key. -/
def p2pkh (rmd160 : List UInt8) : List Char :=
  ['7', '6', 'a', '9', '1', '4'] ++ initHexbytesNoT rmd160 ++ ['8', '8', 'a', 'c']

def PaysTo (tx : CointxInfo) (addr : List Char) (amount : UInt64) (i : Nat) : Prop :=
  i < tx.outputs.length ∧ amount ≤ (outAt tx.outputs i).value ∧
    ∃ rmd160 : List UInt8, rmd160.length = 20 ∧ coin.convrmd160 rmd160 = addr ∧ (outAt tx.outputs i).script = p2pkh rmd160

/-- A transaction that the participant may sign at input `vin`. -/
structure PaysHim (tx : CointxInfo) (vin : Nat) : Prop where
  paid : ∃ i, PaysTo coin tx sp.destaddr sp.amount i ∧
    (sp.change ≠ 0 → ∃ j, j ≠ i ∧ PaysTo coin tx sp.changeaddr sp.change j)
  outputs : ∀ i < tx.outputs.length, ∀ j < tx.outputs.length, i ≠ j →
    (outAt tx.outputs i).script ≠ (outAt tx.outputs j).script
  inputs : ∀ i < tx.inputs.length, ∀ j < tx.inputs.length, i ≠ j → ¬ sameOutpoint (inAt tx.inputs i) (inAt tx.inputs j)
  own : vin < tx.inputs.length ∧ (inAt tx.inputs vin).txidstr = sp.inputtxid ∧ ((inAt tx.inputs vin).vout.toNat : Int) = sp.vin

def standardForm (script : List Char) : Bool :=
  script.length = 50 ∧ script.take 6 = ['7', '6', 'a', '9', '1', '4'] ∧ script.drop 46 = ['8', '8', 'a', 'c']

/-- Output `i` comes behind one that passes the test for the destination and, if there is change, one that
passes the test for the change. -/
def OutputBehind (tx : CointxInfo) (i : Nat) : Prop :=
  (∃ j < i, isDest coin sp (outAt tx.outputs j)) ∧ (sp.change ≠ 0 → ∃ j < i, isChange coin sp (outAt tx.outputs j))

def InputBehind (tx : CointxInfo) (i : Nat) : Prop := ∃ j < i, isOwn sp (inAt tx.inputs j)

def Overruns (tx : CointxInfo) (i : Nat) : Prop := sizeofScript ≤ (outAt tx.outputs i).script.length

/-- What the tests leave open: duplicates among the outputs and inputs where the loops have ended and among
the scripts that are too long, one address for both purposes, and the form of the scripts. -/
structure Harmless (behind : Nat → List Char) (tx : CointxInfo) : Prop where
  outputs : ∀ i < tx.outputs.length, ∀ j < tx.outputs.length,
    (OutputBehind coin sp (laid behind tx) i ∧ OutputBehind coin sp (laid behind tx) j) ∨ (Overruns tx i ∧ Overruns tx j) →
    i ≠ j → (outAt tx.outputs i).script ≠ (outAt tx.outputs j).script
  inputs : ∀ i < tx.inputs.length, ∀ j < tx.inputs.length, InputBehind sp tx i → InputBehind sp tx j →
    i ≠ j → ¬ sameOutpoint (inAt tx.inputs i) (inAt tx.inputs j)
  addresses : sp.change = 0 ∨ sp.destaddr ≠ sp.changeaddr
  dest : ∃ i < tx.outputs.length, isDest coin sp (outAt tx.outputs i) ∧ standardForm (outAt tx.outputs i).script
  change : sp.change ≠ 0 → ∃ i < tx.outputs.length, isChange coin sp (outAt tx.outputs i) ∧
    standardForm (outAt tx.outputs i).script

end

variable {coin : Coin} {sp : JumblrInfo} {tx : CointxInfo} {behind : Nat → List Char}

theorem laid_length : (laid behind tx).outputs.length = tx.outputs.length := List.length_mapIdx

/-- A script that has room leaves its output as it is. -/
theorem laid_outAt {i : Nat} (hfits : ¬ Overruns tx i) : outAt (laid behind tx).outputs i = outAt tx.outputs i := by
  rw [Overruns, outAt, List.getD_eq_getElem?_getD, Nat.not_le] at hfits
  rw [outAt, outAt, laid, List.getD_eq_getElem?_getD, List.getD_eq_getElem?_getD, List.getElem?_mapIdx]
  cases hout : tx.outputs[i]? with
  | none => rfl
  | some out =>
    rw [hout] at hfits
    exact if_pos hfits

theorem duplicateOutput_iff {outputs : List Rawvout} {i : Nat} : duplicateOutput outputs i ↔
    ∃ j < outputs.length, i ≠ j ∧ (outAt outputs i).script = (outAt outputs j).script := by
  simp [duplicateOutput]

theorem duplicateInput_iff {inputs : List CointxInput} {i : Nat} : duplicateInput inputs i ↔
    ∃ j < inputs.length, i ≠ j ∧ sameOutpoint (inAt inputs i) (inAt inputs j) := by
  simp [duplicateInput]

private theorem found_iff {vout changeout : Option Nat} :
    found sp vout changeout ↔ (sp.change = 0 ∨ changeout.isSome) ∧ vout.isSome := by
  rw [found, decide_eq_true_iff]

private theorem pick_isSome {p : Nat → Bool} {i : Nat} {pick : Option Nat} (h : pick.isSome ↔ ∃ j < i, p j) :
    (if pick.isNone ∧ p i then some i else pick).isSome ↔ ∃ j < i + 1, p j := by
  have hsucc : (∃ j < i + 1, p j) ↔ (∃ j < i, p j) ∨ p i := by
    simp only [Nat.lt_succ_iff_lt_or_eq, or_and_right, exists_or, exists_eq_left]
  rw [hsucc, ← h]
  cases pick <;> cases hp : p i <;> simp

/-- The outputs that the loop has looked at before output `i`, none of them a duplicate. -/
structure Looked (coin : Coin) (sp : JumblrInfo) (outputs : List Rawvout) (i : Nat) (vout changeout : Option Nat) : Prop where
  dest : vout.isSome ↔ ∃ j < i, isDest coin sp (outAt outputs j)
  change : changeout.isSome ↔ ∃ j < i, isChange coin sp (outAt outputs j)
  single : ∀ j < i, ¬ duplicateOutput outputs j

/-- Where the loop ends without a duplicate, everything before has been looked at. -/
theorem scanOutputs_spec {outputs : List Rawvout} (k : Nat) : ∀ {i : Nat} {vout changeout vout' changeout' : Option Nat},
    Looked coin sp outputs i vout changeout →
    scanOutputs coin sp outputs (List.range' i k) vout changeout = some (vout', changeout') →
    ∃ stop ≤ i + k, Looked coin sp outputs stop vout' changeout' := by
  induction k with
  | zero =>
    rintro i vout changeout _ _ hlooked ⟨⟩
    exact ⟨i, le_rfl, hlooked⟩
  | succ k ih =>
    intro i vout changeout vout' changeout' hlooked hscan
    rw [List.range'_succ, scanOutputs] at hscan
    split at hscan
    case isTrue => cases hscan
    case isFalse hsingle =>
      have hnext : Looked coin sp outputs (i + 1)
          (if vout.isNone ∧ isDest coin sp (outAt outputs i) then some i else vout)
          (if changeout.isNone ∧ isChange coin sp (outAt outputs i) then some i else changeout) := by
        refine ⟨pick_isSome hlooked.dest, pick_isSome hlooked.change, fun j hj => ?_⟩
        rcases Nat.lt_succ_iff_lt_or_eq.mp hj with hj | rfl
        · exact hlooked.single j hj
        · exact hsingle
      dsimp only at hscan
      generalize (if vout.isNone ∧ isDest coin sp (outAt outputs i) then some i else vout) = v at hnext hscan
      generalize (if changeout.isNone ∧ isChange coin sp (outAt outputs i) then some i else changeout) = c at hnext hscan
      split at hscan
      case isTrue =>
        cases hscan
        exact ⟨i + 1, by omega, hnext⟩
      case isFalse =>
        obtain ⟨stop, hle, hstop⟩ := ih hnext hscan
        exact ⟨stop, by omega, hstop⟩

theorem scanInputs_spec {inputs : List CointxInput} (k : Nat) : ∀ {i vin : Nat}, (∀ j < i, ¬ duplicateInput inputs j) →
    scanInputs sp inputs (List.range' i k) = some vin →
    vin < i + k ∧ isOwn sp (inAt inputs vin) ∧ ∀ j ≤ vin, ¬ duplicateInput inputs j := by
  induction k with
  | zero =>
    intro i vin _ hscan
    cases hscan
  | succ k ih =>
    intro i vin hlooked hscan
    rw [List.range'_succ, scanInputs] at hscan
    split at hscan
    case isTrue => cases hscan
    case isFalse hsingle =>
      have hnext : ∀ j < i + 1, ¬ duplicateInput inputs j := by
        intro j hj
        rcases Nat.lt_succ_iff_lt_or_eq.mp hj with hj | rfl
        · exact hlooked j hj
        · exact hsingle
      split at hscan
      case isTrue hown =>
        obtain rfl := Option.some.inj hscan
        exact ⟨by omega, hown, fun j hj => hnext j (Nat.lt_succ_of_le hj)⟩
      case isFalse =>
        obtain ⟨hlt, hown, hsingle⟩ := ih hnext hscan
        exact ⟨by omega, hown, hsingle⟩

/-- What `jumblr_validate` knows of a transaction that it signs. -/
structure Checked (coin : Coin) (sp : JumblrInfo) (tx : CointxInfo) (vin : Nat) : Prop where
  outputs : ∀ i < tx.outputs.length, ¬ OutputBehind coin sp tx i → ¬ duplicateOutput tx.outputs i
  inputs : ∀ i < tx.inputs.length, ¬ InputBehind sp tx i → ¬ duplicateInput tx.inputs i
  own : vin < tx.inputs.length ∧ isOwn sp (inAt tx.inputs vin)

theorem validated_checked {vin : Nat} (h : validated coin sp tx = some vin) : Checked coin sp tx vin := by
  rw [validated] at h
  split at h
  case h_2 => cases h
  case h_1 vout changeout hscan =>
    split at h
    case isFalse => cases h
    case isTrue hfound =>
      rw [List.range_eq_range'] at hscan h
      obtain ⟨hchange, hvout⟩ := found_iff.mp hfound
      obtain ⟨stop, hstop, hlooked⟩ := scanOutputs_spec tx.outputs.length
        (⟨by simp, by simp, by simp⟩ : Looked coin sp tx.outputs 0 none none) hscan
      obtain ⟨hvin, hown, hsingle⟩ := scanInputs_spec tx.inputs.length (by simp) h
      rw [Nat.zero_add] at hvin
      refine ⟨fun i hi hbehind => ?_, fun i hi hbehind => ?_, hvin, hown⟩
      · refine hlooked.single i (lt_of_not_ge fun hge => hbehind ⟨?_, fun hne => ?_⟩)
        · obtain ⟨j, hj, hdest⟩ := hlooked.dest.mp hvout
          exact ⟨j, hj.trans_le hge, hdest⟩
        · obtain ⟨j, hj, hmatch⟩ := hlooked.change.mp (hchange.resolve_left hne)
          exact ⟨j, hj.trans_le hge, hmatch⟩
      · exact hsingle i (le_of_not_gt fun hgt => hbehind ⟨vin, hgt, hown⟩)

theorem decodeVout_hex {data : Memory} {offset len : Int} {out : Rawvout} {next : Int}
    (h : (decodeVout data offset len).value = some (out, next)) : ∃ bytes, out.script = initHexbytesNoT bytes := by
  simp only [decodeVout, value_bind] at h
  split at h
  · cases h
  · simp only [value_bind] at h
    split at h
    · cases h
    · simp only [value_bind] at h
      split at h
      · cases h
      · simp only [value_bind, value_pure, storeHex] at h
        cases h
        exact ⟨_, rfl⟩

private theorem decodeItems_all {α : Type} {decode : Int → Logged (Option (α × Int))} {p : α → Prop}
    (hdecode : ∀ offset item next, (decode offset).value = some (item, next) → p item) (n : Nat) :
    ∀ {offset next : Int} {items : List α}, (decodeItems decode n offset).value = some (items, next) → ∀ item ∈ items, p item := by
  induction n with
  | zero =>
    rintro offset next items ⟨⟩ item hitem
    cases hitem
  | succ n ih =>
    intro offset next items h
    simp only [decodeItems, value_bind] at h
    split at h
    · cases h
    · next item tail hitem =>
      simp only [value_bind] at h
      split at h
      · cases h
      · next rest last hrest =>
        cases h
        intro x hx
        rcases List.mem_cons.mp hx with rfl | hx
        · exact hdecode _ _ _ hitem
        · exact ih hrest x hx

private theorem decodeRest_hex {data : Memory} {len : Nat} {hexstr : List Char} {oldtx : Int} {version timestamp : UInt32}
    {inputs : List CointxInput} {offset : Int} {decoded : Decoded}
    (h : (decodeRest data len hexstr oldtx version timestamp inputs offset).value = some decoded) :
    ∀ out ∈ decoded.cointx.outputs, ∃ bytes, out.script = initHexbytesNoT bytes := by
  simp only [decodeRest, value_bind] at h
  split at h
  · cases h
  · simp only [value_bind] at h
    split at h
    · cases h
    · next outputs last houtputs =>
      cases h
      exact decodeItems_all (fun _ _ _ => decodeVout_hex) _ houtputs

theorem decoded_hex {junk : Memory} {rawtx : List Char} {oldtx : Int} {decoded : Decoded}
    (h : (decodeRawtransaction junk rawtx oldtx).value = some decoded) :
    ∀ out ∈ decoded.cointx.outputs, ∃ bytes, out.script = initHexbytesNoT bytes := by
  rw [decodeRawtransaction] at h
  split at h
  · cases h
  · simp only [decodeData, value_bind] at h
    -- the timestamp is there or not, the rest is the same
    split at h
    all_goals
      simp only [value_bind] at h
      split at h
      · cases h
      · simp only [value_bind] at h
        split at h
        · cases h
        · exact decodeRest_hex h

theorem p2pkh_iff {addr : List Char} {script : List Char} (hhex : ∃ bytes, script = initHexbytesNoT bytes) :
    (∃ rmd160 : List UInt8, rmd160.length = 20 ∧ coin.convrmd160 rmd160 = addr ∧ script = p2pkh rmd160) ↔
      coin.convrmd160 (decodeHex 20 (script.drop 6)) = addr ∧ standardForm script := by
  constructor
  · rintro ⟨rmd160, hlength, rfl, rfl⟩
    have hdecode : decodeHex 20 ((p2pkh rmd160).drop 6) = rmd160 := by
      have hrest : (p2pkh rmd160).drop 6 = initHexbytesNoT (rmd160 ++ [0x88, 0xac]) := by
        rw [initHexbytesNoT_append]
        rfl
      rw [hrest, ← hlength]
      exact decodeHex_prefix (List.ne_nil_of_length_pos (by omega)) (List.cons_ne_nil _ _)
    have hhexlength : (initHexbytesNoT rmd160).length = 40 := by rw [initHexbytesNoT_length, hlength]
    refine ⟨by rw [hdecode], ?_⟩
    rw [standardForm, decide_eq_true_iff, p2pkh]
    refine ⟨by simp [hhexlength], rfl, ?_⟩
    rw [List.drop_append, List.drop_of_length_le (by simp [hhexlength])]
    simp [hhexlength]
  · rintro ⟨rfl, hform⟩
    obtain ⟨bytes, rfl⟩ := hhex
    rw [standardForm, decide_eq_true_iff, initHexbytesNoT_length] at hform
    obtain ⟨hlength, hfront, hback⟩ := hform
    have hbytes : bytes.drop 3 = (bytes.drop 3).take 20 ++ bytes.drop 23 := by
      rw [show 23 = 3 + 20 from rfl, ← List.drop_drop, List.take_append_drop]
    have hhash : ((bytes.drop 3).take 20).length = 20 := by
      rw [List.length_take, List.length_drop]
      omega
    have hdecode : decodeHex 20 ((initHexbytesNoT bytes).drop 6) = (bytes.drop 3).take 20 := by
      have hprefix := decodeHex_prefix (List.ne_nil_of_length_pos (by rw [hhash]; decide))
        (List.ne_nil_of_length_pos (by rw [List.length_drop]; omega) : bytes.drop 23 ≠ [])
      rw [hhash, ← hbytes] at hprefix
      rw [show 6 = 2 * 3 from rfl, initHexbytesNoT_drop, hprefix]
    refine ⟨(bytes.drop 3).take 20, hhash, by rw [hdecode], ?_⟩
    rw [p2pkh, ← hfront, ← hback, show 6 = 2 * 3 from rfl, show 46 = 2 * 23 from rfl, initHexbytesNoT_take,
      initHexbytesNoT_drop, ← initHexbytesNoT_append, ← initHexbytesNoT_append, List.append_assoc, ← hbytes,
      List.take_append_drop]

/-- The test for an address and the standard form make a payment. -/
theorem paysTo_iff {addr : List Char} {amount : UInt64} {i : Nat}
    (hhex : ∀ out ∈ tx.outputs, ∃ bytes, out.script = initHexbytesNoT bytes) :
    PaysTo coin tx addr amount i ↔ i < tx.outputs.length ∧ amount ≤ (outAt tx.outputs i).value ∧
      outputAddr coin (outAt tx.outputs i) = addr ∧ standardForm (outAt tx.outputs i).script := by
  rw [PaysTo]
  refine and_congr_right fun hi => and_congr_right fun _ => p2pkh_iff (hhex _ ?_)
  rw [outAt, List.getD_eq_getElem?_getD, List.getElem?_eq_getElem hi]
  exact List.getElem_mem hi

private theorem isDest_iff {out : Rawvout} :
    isDest coin sp out ↔ outputAddr coin out = sp.destaddr ∧ sp.amount ≤ out.value := by
  rw [isDest, decide_eq_true_iff]

private theorem isChange_iff {out : Rawvout} :
    isChange coin sp out ↔ sp.change ≠ 0 ∧ outputAddr coin out = sp.changeaddr ∧ sp.change ≤ out.value := by
  rw [isChange, decide_eq_true_iff]

/-- Two outputs with one script that has room cannot both come before the end of the loop. -/
theorem Checked.single {vin i j : Nat} (h : Checked coin sp (laid behind tx) vin) (hi : i < tx.outputs.length)
    (hj : j < tx.outputs.length) (hne : i ≠ j) (hfits : ¬ Overruns tx i)
    (heq : (outAt tx.outputs i).script = (outAt tx.outputs j).script) : OutputBehind coin sp (laid behind tx) i := by
  by_contra hbehind
  have hfits' : ¬ Overruns tx j := by rwa [Overruns, ← heq]
  refine h.outputs i (by rwa [laid_length]) hbehind (duplicateOutput_iff.mpr ⟨j, by rwa [laid_length], hne, ?_⟩)
  rw [laid_outAt hfits, laid_outAt hfits', heq]

/-- The checks make the transaction one that may be signed if what they leave open is harmless. -/
theorem Checked.paysHim {vin : Nat} (h : Checked coin sp (laid behind tx) vin)
    (hhex : ∀ out ∈ tx.outputs, ∃ bytes, out.script = initHexbytesNoT bytes) (hharmless : Harmless coin sp behind tx) :
    PaysHim coin sp tx vin := by
  refine ⟨?_, fun i hi j hj hne heq => ?_, fun i hi j hj hne heq => ?_, h.own.1, ?_⟩
  · obtain ⟨i, hi, hdest, hform⟩ := hharmless.dest
    obtain ⟨haddr, hvalue⟩ := isDest_iff.mp hdest
    refine ⟨i, (paysTo_iff hhex).mpr ⟨hi, hvalue, haddr, hform⟩, fun hne => ?_⟩
    obtain ⟨j, hj, hchange, hform'⟩ := hharmless.change hne
    obtain ⟨-, haddr', hvalue'⟩ := isChange_iff.mp hchange
    refine ⟨j, ?_, (paysTo_iff hhex).mpr ⟨hj, hvalue', haddr', hform'⟩⟩
    rintro rfl
    exact hharmless.addresses.resolve_left hne (haddr.symm.trans haddr')
  · by_cases hover : Overruns tx i
    · exact hharmless.outputs i hi j hj (.inr ⟨hover, by rwa [Overruns, ← heq]⟩) hne heq
    · have hbi := h.single hi hj hne hover heq
      have hbj := h.single hj hi hne.symm (by rwa [Overruns, ← heq]) heq.symm
      exact hharmless.outputs i hi j hj (.inl ⟨hbi, hbj⟩) hne heq
  · by_cases hbi : InputBehind sp tx i
    · by_cases hbj : InputBehind sp tx j
      · exact hharmless.inputs i hi j hj hbi hbj hne heq
      · exact h.inputs j hj hbj (duplicateInput_iff.mpr ⟨i, hi, hne.symm, heq.1.symm, heq.2.symm⟩)
    · exact h.inputs i hi hbi (duplicateInput_iff.mpr ⟨j, hj, hne, heq⟩)
  · exact of_decide_eq_true h.own.2

/-- A transaction that pays him leaves nothing open. -/
theorem PaysHim.harmless {vin : Nat} (h : PaysHim coin sp tx vin) (hinj : Function.Injective coin.convrmd160)
    (hhex : ∀ out ∈ tx.outputs, ∃ bytes, out.script = initHexbytesNoT bytes) : Harmless coin sp behind tx := by
  obtain ⟨i, hpaid, hchange⟩ := h.paid
  obtain ⟨hi, hvalue, haddr, hform⟩ := (paysTo_iff hhex).mp hpaid
  refine ⟨fun i hi j hj _ => h.outputs i hi j hj, fun i hi j hj _ _ => h.inputs i hi j hj, ?_,
    ⟨i, hi, isDest_iff.mpr ⟨haddr, hvalue⟩, hform⟩, fun hne => ?_⟩
  · by_contra hsame
    rw [not_or, not_not] at hsame
    obtain ⟨j, hij, hpaid'⟩ := hchange hsame.1
    obtain ⟨-, -, rmd160, -, hhash, hscript⟩ := hpaid
    obtain ⟨hj, -, rmd160', -, hhash', hscript'⟩ := hpaid'
    have hequal : rmd160 = rmd160' := hinj (by rw [hhash, hhash', hsame.2])
    exact h.outputs j hj i hi hij (by rw [hscript, hscript', hequal])
  · obtain ⟨j, -, hpaid'⟩ := hchange hne
    obtain ⟨hj, hvalue', haddr', hform'⟩ := (paysTo_iff hhex).mp hpaid'
    exact ⟨j, hj, isChange_iff.mpr ⟨hne, haddr', hvalue'⟩, hform'⟩

private def destHash : List UInt8 := [1, 2, 3, 4, 5, 6, 7, 8, 9, 10, 11, 12, 13, 14, 15, 16, 17, 18, 19, 20]
private def changeHash : List UInt8 := [21, 22, 23, 24, 25, 26, 27, 28, 29, 30, 31, 32, 33, 34, 35, 36, 37, 38, 39, 40]

/-- The addresses of two hashes, and for the other ones a string that is no address. -/
def sampleCoin : Coin where
  convrmd160 rmd160 :=
    if rmd160 = destHash then "16L5yRNPTuciSgXGHqYwn9N6NeoKqopAu".toList
    else if rmd160 = changeHash then "12vVetEDTqCWTy5uGQJ5xr8Kz92SZYDZxM".toList
    else '?' :: initHexbytesNoT rmd160
  oldtxFormat := 1

private theorem initHexbytesNoT_injective : Function.Injective initHexbytesNoT := by
  intro a b hab
  have hlength := congrArg List.length hab
  rw [initHexbytesNoT_length, initHexbytesNoT_length] at hlength
  rw [← hexLoop_initHexbytesNoT a, ← hexLoop_initHexbytesNoT b, hab, show a.length = b.length by omega]

private theorem sampleCoin_injective : Function.Injective sampleCoin.convrmd160 := by
  intro a b hab
  simp only [sampleCoin] at hab
  split_ifs at hab with ha hb hb' ha' hb hb' hb hb'
  · rw [ha, hb]
  · simp at hab
  · simp at hab
  · simp at hab
  · rw [ha', hb']
  · simp at hab
  · simp at hab
  · simp at hab
  · exact initHexbytesNoT_injective (List.cons.inj hab).2

/-- The participant of input aa..aa/0, with 4000 for the destination and 300 of change. -/
def sampleInfo : JumblrInfo where
  destaddr := "16L5yRNPTuciSgXGHqYwn9N6NeoKqopAu".toList
  changeaddr := "12vVetEDTqCWTy5uGQJ5xr8Kz92SZYDZxM".toList
  inputtxid := List.replicate 64 'a'
  vin := 0
  amount := 4000
  change := 300

private def sampleInput (b vout : UInt8) : List UInt8 :=
  List.replicate 32 b ++ [vout, 0, 0, 0] ++ [0] ++ [0xff, 0xff, 0xff, 0xff]

private def sampleOutput (low high : UInt8) (rmd160 : List UInt8) : List UInt8 :=
  [low, high, 0, 0, 0, 0, 0, 0] ++ [25] ++ [0x76, 0xa9, 20] ++ rmd160 ++ [0x88, 0xac]

/-- Two inputs, 5000 to the destination and 300 of change. -/
def fairTx : List Char :=
  initHexbytesNoT ([1, 0, 0, 0] ++ [2] ++ sampleInput 0xaa 0 ++ sampleInput 0xbb 1 ++
    [2] ++ sampleOutput 0x88 0x13 destHash ++ sampleOutput 0x2c 0x01 changeHash ++ [0, 0, 0, 0])

/-- One output that nobody can spend, with the hash of the destination in its data. -/
def burnTx : List Char :=
  initHexbytesNoT ([1, 0, 0, 0] ++ [1] ++ sampleInput 0xaa 0 ++
    [1] ++ [0x88, 0x13, 0, 0, 0, 0, 0, 0] ++ [23] ++ [0x6a, 0x4c, 20] ++ destHash ++ [0, 0, 0, 0])

end SuperNet.Agents.Shuffle777
