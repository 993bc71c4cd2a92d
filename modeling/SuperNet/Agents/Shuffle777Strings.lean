import SuperNet.Agents.Shuffle777Cointx
import SuperNet.Agents.Shuffle777Ring

/-! The strings in which a jumblr participant describes his input and his outputs, before they are layered. -/
namespace SuperNet.Agents.Shuffle777Cointx
open SuperNet.Lib.Bytes SuperNet.Utils.Hex SuperNet.Coins.Cointx

/-- `jumblr_encodevin` up to the layers: the change and the string. `jumblr_next` leaves no negative `vout`. -/
def encodevin (unspent amount : UInt64) (vout : Nat) (scriptPubKey vintxid : List Char) : Option (UInt64 × List Char) :=
  if amount ≤ unspent then
    if 0xfd <<< 1 ≤ scriptPubKey.length ∨ scriptPubKey.length % 2 ≠ 0 then none
    else some (unspent - amount, hex02 vout ++ (hex02 (scriptPubKey.length >>> 1) ++ (scriptPubKey ++ vintxid)))
  else none

def decodeByte (hex : List Char) : UInt8 := (decodeHex 1 hex).headD 0

def decodevin (vinstr : List Char) : CointxInput :=
  let scriptlen := decodeByte (vinstr.drop 2)
  let scriptPubKey := vinstr.drop 4
  { txidstr := (scriptPubKey.drop (scriptlen.toNat <<< 1)).take 128
    vout := (decodeByte vinstr).toUInt16
    sigs := scriptPubKey.take (scriptlen.toNat <<< 1)
    sequence := 0xffffffff }

/-- `jumblr_encodevout` up to the layers. -/
def encodevout (hexaddress : List Char) (amount : UInt64) : Option (List Char) :=
  if hexaddress = [] then none else some (initHexbytesNoT (leBytes 8 amount.toNat) ++ hexaddress)

/-- The plain string is the one that the ring wraps. -/
theorem encodevin_ring (unspent amount : UInt64) (vout : Nat) (scriptPubKey vintxid : List Char) :
    (encodevin unspent amount vout scriptPubKey vintxid).map Prod.snd =
      if amount ≤ unspent then Shuffle777Ring.encodevin vintxid vout scriptPubKey else none := by
  rw [encodevin, Shuffle777Ring.encodevin]
  split
  · split
    · rfl
    · rw [Option.map_some, List.append_assoc, List.append_assoc]
  · rfl

private theorem leBytes_range (w x : Nat) : leBytes w x = (List.range w).map fun j => UInt8.ofNat (x / 256 ^ j) := by
  induction w generalizing x with
  | zero => rfl
  | succ w ih =>
    rw [leBytes, ih, List.range_succ_eq_map, List.map_cons, List.map_map, pow_zero, Nat.div_one]
    congr 1
    refine List.map_congr_left fun j _ => ?_
    rw [Function.comp_apply, Nat.div_div_eq_div_mul, ← Nat.pow_succ']

theorem encodevout_ring {hexaddress : List Char} (h : hexaddress ≠ []) (amount : UInt64) :
    encodevout hexaddress amount = some (Shuffle777Ring.encodevout hexaddress amount) := by
  rw [encodevout, if_neg h, Shuffle777Ring.encodevout, leBytes_range]
  congr 3
  refine List.map_congr_left fun j hj => UInt8.toNat_inj.mp ?_
  have hj8 : j < 8 := List.mem_range.mp hj
  have hshift : (8 * j).toUInt64.toNat % 64 = 8 * j := by
    have hcast : (8 * j).toUInt64.toNat = 8 * j := Nat.mod_eq_of_lt (by omega)
    omega
  rw [UInt8.toNat_ofNat', UInt64.toNat_toUInt8, UInt64.toNat_shiftRight, hshift, Nat.shiftRight_eq_div_pow, Nat.pow_mul]

structure ReadsVin (vinstr txid : List Char) (vout : Nat) (script : List Char) : Prop where
  txidstr : (decodevin vinstr).txidstr = txid
  vout : (decodevin vinstr).vout.toNat = vout
  sigs : (decodevin vinstr).sigs = script

/-- The amount is read back, with the script that pays to the hash in the address. -/
def ReadsVout (coin : Coin) (voutstr hexaddress : List Char) (amount : UInt64) : Prop :=
  ∃ coinaddr, decodevout coin voutstr =
    some ⟨coinaddr, "76a914".toList ++ hexaddress.drop 2 ++ "88ac".toList, amount⟩

theorem isHexstr_append {a b : List Char} (ha : isHexstr a = true) (hb : b ≠ []) : isHexstr (a ++ b) = isHexstr b := by
  simp only [isHexstr, Bool.and_eq_true] at ha ⊢
  cases b with
  | nil => exact absurd rfl hb
  | cons c b => simp [ha.2]

section
variable {b : UInt8} {s : List Char}

theorem isHexstr_byte (hs : s ≠ []) : isHexstr (initHexbytesNoT [b] ++ s) = isHexstr s :=
  isHexstr_append (isHexstr_initHexbytesNoT (List.cons_ne_nil b [])) hs

/-- In front of more pairs of digits, the first pair is read. -/
theorem decodeByte_hex (hs : isHexstr s = true) (heven : s.length % 2 = 0) : decodeByte (initHexbytesNoT [b] ++ s) = b := by
  have hdigits : ∀ c ∈ s, (unhex? c).isSome = true := by
    rw [isHexstr, Bool.and_eq_true, List.all_eq_true] at hs
    exact hs.2
  have hbytes := initHexbytesNoT_hexLoop hdigits (n := s.length / 2) (by omega)
  have hrest : hexLoop (s.length / 2) s ≠ [] := by
    intro hnil
    rw [hnil] at hbytes
    rw [← hbytes] at hs
    exact absurd hs (by decide)
  have hprefix := decodeHex_prefix (List.cons_ne_nil b []) hrest
  rw [initHexbytesNoT_append, hbytes] at hprefix
  rw [decodeByte]
  exact congrArg (List.headD · 0) hprefix

theorem decodeByte_not_hex (hs : isHexstr s = false) : decodeByte s = 0 := by
  rw [decodeByte, decodeHex, hs]
  rfl

variable (a n : UInt8)

theorem decodevin_hex (hs : isHexstr s = true) (heven : s.length % 2 = 0) :
    decodevin (initHexbytesNoT [a] ++ (initHexbytesNoT [n] ++ s)) =
      ⟨(s.drop (n.toNat <<< 1)).take 128, a.toUInt16, s.take (n.toNat <<< 1), 0xffffffff⟩ := by
  have hne : s ≠ [] := by
    rintro rfl
    exact absurd hs (by decide)
  have hbehind : isHexstr (initHexbytesNoT [n] ++ s) = true := (isHexstr_byte hne).trans hs
  have hpair : (initHexbytesNoT [n]).length = 2 := rfl
  have hfirst := decodeByte_hex (b := a) hbehind (by rw [List.length_append, hpair]; omega)
  have hsecond : decodeByte ((initHexbytesNoT [a] ++ (initHexbytesNoT [n] ++ s)).drop 2) = n := decodeByte_hex hs heven
  rw [decodevin, hfirst, hsecond]
  rfl

/-- One character that is no digit makes the length of the script zero, so that all of it is taken for the txid. -/
theorem decodevin_not_hex (hs : isHexstr s = false) (hne : s ≠ []) :
    decodevin (initHexbytesNoT [a] ++ (initHexbytesNoT [n] ++ s)) = ⟨s.take 128, 0, [], 0xffffffff⟩ := by
  have hbehind : isHexstr (initHexbytesNoT [n] ++ s) = false := (isHexstr_byte hne).trans hs
  have hfirst : decodeByte (initHexbytesNoT [a] ++ (initHexbytesNoT [n] ++ s)) = 0 := by
    apply decodeByte_not_hex
    exact (isHexstr_byte (List.cons_ne_nil _ _)).trans hbehind
  have hsecond : decodeByte ((initHexbytesNoT [a] ++ (initHexbytesNoT [n] ++ s)).drop 2) = 0 := decodeByte_not_hex hbehind
  rw [decodevin, hfirst, hsecond]
  rfl

end

section
variable {unspent amount change : UInt64} {vout : Nat} {script txid vinstr : List Char}

theorem encodevin_some (h : encodevin unspent amount vout script txid = some (change, vinstr)) :
    script.length < 506 ∧ script.length % 2 = 0 ∧
      vinstr = hex02 vout ++ (hex02 (script.length >>> 1) ++ (script ++ txid)) := by
  rw [encodevin] at h
  split at h
  case isFalse => cases h
  case isTrue =>
    split at h
    case isTrue => cases h
    case isFalse hlen =>
      obtain ⟨-, rfl⟩ := Prod.mk.inj (Option.some.inj h)
      rw [not_or] at hlen
      exact ⟨by omega, by omega, rfl⟩

/-- Both bytes are read from a string of digits, and are zero otherwise. -/
theorem readsVin_iff (htxid : txid.length = 64) (h : encodevin unspent amount vout script txid = some (change, vinstr)) :
    ReadsVin vinstr txid vout script ↔ vout < 256 ∧ (isHexstr (script ++ txid) = true ∨ vout = 0 ∧ script = []) := by
  obtain ⟨hlen, heven, rfl⟩ := encodevin_some h
  by_cases hvout : vout < 256
  · have hhalf : (UInt8.ofNat (script.length >>> 1)).toNat <<< 1 = script.length := by
      rw [UInt8.toNat_ofNat', Nat.shiftRight_eq_div_pow, Nat.shiftLeft_eq]
      omega
    have hbyte : (UInt8.ofNat vout).toNat = vout := by rw [UInt8.toNat_ofNat', Nat.mod_eq_of_lt hvout]
    have hboth : (script ++ txid).length = script.length + 64 := by rw [List.length_append, htxid]
    rw [hex02_byte hvout, hex02_byte (by rw [Nat.shiftRight_eq_div_pow]; omega)]
    cases hhex : isHexstr (script ++ txid) with
    | true =>
      have hread := decodevin_hex (UInt8.ofNat vout) (UInt8.ofNat (script.length >>> 1)) hhex (by omega)
      rw [hhalf, List.drop_left, List.take_left, List.take_of_length_le (by omega)] at hread
      refine iff_of_true ?_ ⟨hvout, .inl rfl⟩
      constructor <;> rw [hread]
      rw [UInt8.toNat_toUInt16, hbyte]
    | false =>
      have hne : script ++ txid ≠ [] := List.ne_nil_of_length_pos (by omega)
      have hread := decodevin_not_hex (UInt8.ofNat vout) (UInt8.ofNat (script.length >>> 1)) hhex hne
      constructor
      · intro hreads
        have hzero := hreads.vout
        have hempty := hreads.sigs
        rw [hread] at hzero hempty
        exact ⟨hvout, .inr ⟨hzero.symm, hempty.symm⟩⟩
      · rintro ⟨-, hdigits | ⟨rfl, rfl⟩⟩
        · cases hdigits
        · constructor <;> rw [hread]
          · rw [List.nil_append, List.take_of_length_le (by omega)]
          · rfl
  · refine iff_of_false (fun hreads => ?_) (fun hcond => hvout hcond.1)
    have hbyte := UInt8.toNat_lt (decodeByte (hex02 vout ++ (hex02 (script.length >>> 1) ++ (script ++ txid))))
    have hread := hreads.vout
    rw [decodevin, UInt8.toNat_toUInt16] at hread
    omega

end

/-- The amount goes in little end first, and the address follows without its type. -/
theorem readsVout_of_digits {coin : Coin} {amount : UInt64} {hexaddress voutstr : List Char}
    (hconv : ∀ addrtype rmd160, (coin.convrmd160 addrtype rmd160).isSome = true)
    (hdigits : ∀ c ∈ hexaddress, (unhex? c).isSome = true) (hlen : hexaddress.length = 42)
    (h : encodevout hexaddress amount = some voutstr) : ReadsVout coin voutstr hexaddress amount := by
  rw [encodevout] at h
  split at h
  case isTrue => cases h
  case isFalse =>
    obtain rfl := Option.some.inj h
    obtain ⟨coinaddr, hcoinaddr⟩ := Option.isSome_iff_exists.mp (hconv
      ((decodeHex 21 ((initHexbytesNoT (leBytes 8 amount.toNat) ++ hexaddress).drop 16)).headD 0)
      ((decodeHex 21 ((initHexbytesNoT (leBytes 8 amount.toNat) ++ hexaddress).drop 16)).tail.take 20))
    have hbytes : initHexbytesNoT (hexLoop 21 hexaddress) = hexaddress := initHexbytesNoT_hexLoop hdigits hlen
    have hamount : (initHexbytesNoT (leBytes 8 amount.toNat)).length = 16 := by
      rw [initHexbytesNoT_length, leBytes_length]
    have hdecoded : decodeHex 8 (initHexbytesNoT (leBytes 8 amount.toNat) ++ hexaddress) = leBytes 8 amount.toNat := by
      have hprefix : decodeHex (leBytes 8 amount.toNat).length
          (initHexbytesNoT (leBytes 8 amount.toNat ++ hexLoop 21 hexaddress)) = leBytes 8 amount.toNat :=
        decodeHex_prefix (List.cons_ne_nil _ _) (List.cons_ne_nil _ _)
      rwa [leBytes_length, initHexbytesNoT_append, hbytes] at hprefix
    have hasked : asked (initHexbytesNoT (leBytes 8 amount.toNat) ++ hexaddress) = amount := by
      rw [asked, hdecoded, List.take_of_length_le (leBytes_length 8 _).le,
        leValue_leBytes_of_lt (UInt64.toNat_lt amount), UInt64.ofNat_toNat]
    have hscript : (initHexbytesNoT (leBytes 8 amount.toNat) ++ hexaddress).drop 18 = hexaddress.drop 2 := by
      rw [List.drop_append, hamount, List.drop_of_length_le (by omega), List.nil_append]
    refine ⟨coinaddr, ?_⟩
    rw [decodevout, hcoinaddr, Option.map_some, hasked, hscript]

/-- Both strings are read back when the index has two digits and everything is written in lower case hex digits. -/
theorem jumblr_reads_iff {coin : Coin} {unspent amount change value : UInt64} {vout : Nat}
    {script txid vinstr hexaddress voutstr : List Char} (htxid : txid.length = 64)
    (hvin : encodevin unspent amount vout script txid = some (change, vinstr))
    (hconv : ∀ addrtype rmd160, (coin.convrmd160 addrtype rmd160).isSome = true)
    (hdigits : ∀ c ∈ hexaddress, (unhex? c).isSome = true) (hlen : hexaddress.length = 42)
    (hvout : encodevout hexaddress value = some voutstr) :
    ReadsVin vinstr txid vout script ∧ ReadsVout coin voutstr hexaddress value ↔
      vout < 256 ∧ (isHexstr (script ++ txid) = true ∨ vout = 0 ∧ script = []) := by
  rw [readsVin_iff htxid hvin]
  exact and_iff_left (readsVout_of_digits hconv hdigits hlen hvout)

def zeroAddress : Coin where
  convrmd160 _ _ := some "1111111111111111111114oLvT2".toList
  txfee := 10000
  donationaddress := []
  donationscript := []

def sampleTxid : List Char := List.replicate 64 'a'

def sampleScript : List Char := "76a914".toList ++ List.replicate 40 '0' ++ "88ac".toList

theorem jumblr_reads_sample : ∃ change vinstr voutstr,
    encodevin 30000 10000 1 sampleScript sampleTxid = some (change, vinstr) ∧
      encodevout (List.replicate 42 '0') 10000 = some voutstr ∧
      ReadsVin vinstr sampleTxid 1 sampleScript ∧ ReadsVout zeroAddress voutstr (List.replicate 42 '0') 10000 := by
  have hvin : encodevin 30000 10000 1 sampleScript sampleTxid = some (20000, _) := rfl
  refine ⟨_, _, _, hvin, rfl, (jumblr_reads_iff rfl hvin (fun _ _ => rfl) ?_ rfl rfl).mpr ⟨by decide, .inl (by decide)⟩⟩
  intro c hc
  rw [List.eq_of_mem_replicate hc]
  rfl

/-- Output 256 of a transaction is read back as its output 16. -/
theorem jumblr_reads_shifted : ∃ change vinstr,
    encodevin 30000 10000 256 sampleScript sampleTxid = some (change, vinstr) ∧ (decodevin vinstr).vout = 16 ∧
      ¬ ∀ (unspent amount change : UInt64) (vout : Nat) (script txid vinstr : List Char), vout < 2^16 → txid.length = 64 →
        (∀ c ∈ txid, (unhex? c).isSome = true) → encodevin unspent amount vout script txid = some (change, vinstr) →
          ReadsVin vinstr txid vout script := by
  have hvin : encodevin 30000 10000 256 sampleScript sampleTxid = some (20000, _) := rfl
  refine ⟨_, _, hvin, by decide +kernel, fun h => ?_⟩
  have hdigits : ∀ c ∈ sampleTxid, (unhex? c).isSome = true := by
    intro c hc
    rw [List.eq_of_mem_replicate hc]
    rfl
  have hreads := h _ _ _ _ _ sampleTxid _ (by decide) rfl hdigits hvin
  exact absurd ((readsVin_iff rfl hvin).mp hreads).1 (by decide)

end SuperNet.Agents.Shuffle777Cointx
