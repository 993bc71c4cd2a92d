import SuperNet.Lib.Runs
import SuperNet.Utils.Hex

/-! The ring of a jumblr shuffle: each participant wraps its strings in a layer for every later one, takes
its own layer off the strings that come in and mixes the lists. -/
namespace SuperNet.Agents.Shuffle777Ring
open SuperNet.Lib.Runs SuperNet.Utils.Hex

/-- `jumblr_encrypt` to an account, with the one time key it draws, and `jumblr_decrypt`. -/
structure Cipher (R : Type) where
  encrypt : Nat → R → List UInt8 → List UInt8
  decrypt : Nat → List UInt8 → List UInt8

/-- A participant: its account, its plain strings, the keys drawn for the layers of each of them, and the
bytes drawn for each of the two lists in each of three rounds. -/
structure Player (R : Type) where
  account : Nat
  vin : List Char
  vout : List Char
  change : Option (List Char)
  keys : Nat → Nat → R
  bytes : Nat → Nat → Nat → UInt8

/-- The lists that go around. -/
structure Message where
  vins : List (List Char)
  vouts : List (List Char)

def sizeofDest : Nat := 8192

def sizeofChangestr : Nat := 2048

/-- The room in the lists of `jumblr_incoming` but for two places. -/
def maxStrs : Nat := 1022

/-- The room for the accounts in `jumblr_start` and `jumblr_incoming`. -/
def maxAddrs : Nat := 64

/-- The bytes that `decode_hex` leaves of a string for half as many bytes as it has characters. -/
def unhexStr (str : List Char) : List UInt8 := (decodeHex (str.length >>> 1) str).take (str.length >>> 1)

/-- The plain string of an input, as `jumblr_encodevin` prints it. -/
def encodevin (vintxid : List Char) (vout : Nat) (scriptPubKey : List Char) : Option (List Char) :=
  if 0xfd <<< 1 ≤ scriptPubKey.length ∨ scriptPubKey.length % 2 ≠ 0 then none
  else some (hex02 vout ++ hex02 (scriptPubKey.length >>> 1) ++ scriptPubKey ++ vintxid)

/-- The plain string of an output, as `jumblr_encodevout` puts it together: the amount from its lowest byte up. -/
def encodevout (hexaddress : List Char) (amount : UInt64) : List Char :=
  initHexbytesNoT ((List.range 8).map fun j => (amount >>> (8 * j).toUInt64).toUInt8) ++ hexaddress

variable {R : Type} (cipher : Cipher R)

/-- The loop of `jumblr_layer`, which goes from the last key to the first. -/
def wrap : List (Nat × R) → List UInt8 → List UInt8
  | [], data => data
  | (account, key) :: keys, data => cipher.encrypt account key (wrap keys data)

/-- What the layers leave fits the buffers, at last also in hex. -/
def roomy (keys : List (Nat × R)) (data : List UInt8) : Bool :=
  (keys.tails.all fun keys => (wrap cipher keys data).length ≤ sizeofDest) ∧
    2 * (wrap cipher keys data).length + 1 ≤ sizeofDest

/-- What comes of `jumblr_layer`: nothing, a write past its buffers, or a string. -/
inductive Layered
  | null
  | overflow
  | str (s : List Char)

def jumblrLayer (str : List Char) (keys : List (Nat × R)) : Layered :=
  if sizeofDest / 2 < str.length >>> 1 then .null
  else if roomy cipher keys (unhexStr str) then .str (initHexbytesNoT (wrap cipher keys (unhexStr str)))
  else .overflow

def jumblrPeel (account : Nat) (strs : List (List Char)) : List (List Char) :=
  strs.map fun str => initHexbytesNoT (cipher.decrypt account (unhexStr str))

def swapStrs (ptrs : List (List Char)) (i r : Nat) : List (List Char) :=
  (ptrs.set i (ptrs.getD r [])).set r (ptrs.getD i [])

/-- `jumblr_strs`, which takes the number of strings as one byte. -/
def jumblrStrs (r : Nat → UInt8) (ptrs : List (List Char)) : List (List Char) :=
  rounds (fun ptrs' i => swapStrs ptrs' i ((r i).toNat % (ptrs.length % 256))) ptrs (ptrs.length % 256)

def mix (r : Nat → Nat → UInt8) (ptrs : List (List Char)) : List (List Char) :=
  rounds (fun ptrs j => jumblrStrs (r j) ptrs) ptrs 3

namespace Player
variable (p : Player R)

/-- The layers of string `k` for those who come after the participant. -/
def layerKeys (k : Nat) (rest : List (Player R)) : List (Nat × R) :=
  (rest.zipIdx).map fun q => (q.1.account, p.keys k q.2)

def layer (k : Nat) (str : List Char) (rest : List (Player R)) : Layered := jumblrLayer cipher str (p.layerKeys k rest)

def outs : List (List Char) := p.vout :: p.change.toList

/-- The strings of `jumblr_next`; without the first two it fails. -/
def jumblrNext (rest : List (Player R)) : Option (List Char × List Char × Option Layered) :=
  match p.layer cipher 0 p.vin rest, p.layer cipher 1 p.vout rest with
  | .str vinstr, .str voutstr => some (vinstr, voutstr, p.change.map fun change => p.layer cipher 2 change rest)
  | _, _ => none

/-- The message of `jumblr_start`, which leaves out a change without a string and prints the others with a
comma, a blank and two quotes. -/
def start (rest : List (Player R)) : Option Message :=
  match p.jumblrNext cipher rest with
  | some (vinstr, voutstr, some (.str changestr)) =>
    if changestr.length + 5 ≤ sizeofChangestr then some ⟨[vinstr], [voutstr, changestr]⟩ else none
  | some (_, _, some .overflow) => none
  | some (vinstr, voutstr, _) => some ⟨[vinstr], [voutstr]⟩
  | none => none

/-- `jumblr_incoming` up to the call of `jumblr_cointx` or of `telepathic_PM`. -/
def incoming (msg : Message) (rest : List (Player R)) : Option Message :=
  if msg.vins.length < maxStrs ∧ msg.vouts.length < maxStrs then
    match p.jumblrNext cipher rest with
    | some (vinstr, voutstr, some (.str changestr)) => some
        ⟨mix (p.bytes 0) (jumblrPeel cipher p.account msg.vins ++ [vinstr]),
          mix (p.bytes 1) (jumblrPeel cipher p.account msg.vouts ++ [voutstr, changestr])⟩
    | some (vinstr, voutstr, none) => some
        ⟨mix (p.bytes 0) (jumblrPeel cipher p.account msg.vins ++ [vinstr]),
          mix (p.bytes 1) (jumblrPeel cipher p.account msg.vouts ++ [voutstr])⟩
    | _ => none
  else none

end Player

/-- The message passes the participants that are left. -/
def pass : Message → List (Player R) → Option Message
  | msg, [] => some msg
  | msg, p :: rest => (p.incoming cipher msg rest).bind fun msg => pass msg rest

/-- The lists of the last participant before `jumblr_cointx`. It takes three to start. -/
def ring : List (Player R) → Option Message
  | [] => none
  | p :: rest =>
    if 3 ≤ rest.length + 1 ∧ rest.length + 1 ≤ maxAddrs then
      (p.start cipher rest).bind fun msg => pass cipher msg rest
    else none

/-- Nothing is lost and nothing is there twice. -/
def Delivers (players : List (Player R)) : Prop :=
  ∃ msg, ring cipher players = some msg ∧ msg.vins.Perm (players.map Player.vin) ∧
    msg.vouts.Perm (players.flatMap Player.outs)

namespace Player
variable (p : Player R)

def outStrings : List (Nat × List Char) := (1, p.vout) :: p.change.toList.map fun change => (2, change)

def strings : List (Nat × List Char) := (0, p.vin) :: p.outStrings

def Fits (rest : List (Player R)) (s : Nat × List Char) : Prop :=
  s.2.length >>> 1 ≤ sizeofDest / 2 ∧ roomy cipher (p.layerKeys s.1 rest) (unhexStr s.2)

instance (rest : List (Player R)) : DecidablePred (p.Fits cipher rest) := fun _ => inferInstanceAs (Decidable (_ ∧ _))

def sealed (rest : List (Player R)) (s : Nat × List Char) : List Char :=
  initHexbytesNoT (wrap cipher (p.layerKeys s.1 rest) (unhexStr s.2))

/-- The change that starts the ring fits its text. -/
def ChangeFits (rest : List (Player R)) : Prop :=
  ∀ change ∈ p.change, (p.sealed cipher rest (2, change)).length + 5 ≤ sizeofChangestr

instance (rest : List (Player R)) : Decidable (p.ChangeFits cipher rest) :=
  inferInstanceAs (Decidable (∀ change ∈ p.change, _))

end Player

def RingFits : List (Player R) → Prop
  | [] => True
  | p :: rest => (∀ s ∈ p.strings, p.Fits cipher rest s) ∧ RingFits rest

instance decidableRingFits : DecidablePred (RingFits cipher)
  | [] => inferInstanceAs (Decidable True)
  | p :: rest =>
    have := decidableRingFits rest
    inferInstanceAs (Decidable ((∀ s ∈ p.strings, p.Fits cipher rest s) ∧ RingFits cipher rest))

/-- There is room for what goes around the ring. -/
def Roomy : List (Player R) → Prop
  | [] => False
  | p :: rest => rest.length + 1 ≤ maxAddrs ∧ p.ChangeFits cipher rest ∧ RingFits cipher (p :: rest)

instance : DecidablePred (Roomy cipher)
  | [] => inferInstanceAs (Decidable False)
  | _ :: _ => inferInstanceAs (Decidable (_ ∧ _ ∧ _))

theorem unhexStr_initHexbytesNoT (data : List UInt8) : unhexStr (initHexbytesNoT data) = data := by
  have hlength : (initHexbytesNoT data).length >>> 1 = data.length := by
    rw [initHexbytesNoT_length, Nat.shiftRight_eq_div_pow]
    omega
  rw [unhexStr, hlength]
  rcases eq_or_ne data [] with rfl | hne
  · rfl
  · rw [decodeHex_even (isHexstr_initHexbytesNoT hne) (initHexbytesNoT_length data), hexLoop_initHexbytesNoT,
      List.take_length]

private theorem hexPairs_initHexbytesNoT (data : List UInt8) : HexPairs (initHexbytesNoT data) := by
  refine ⟨?_, by rw [initHexbytesNoT_length]; omega⟩
  rcases eq_or_ne data [] with rfl | hne
  · simp [initHexbytesNoT]
  · have hhex := isHexstr_initHexbytesNoT hne
    rw [isHexstr, Bool.and_eq_true, List.all_eq_true] at hhex
    exact hhex.2

/-- A string comes back from its bytes if it is an even number of lower case hex digits. -/
theorem initHexbytesNoT_unhexStr_iff (str : List Char) : initHexbytesNoT (unhexStr str) = str ↔ HexPairs str := by
  refine ⟨fun h => h ▸ hexPairs_initHexbytesNoT _, fun h => ?_⟩
  have hlength : str.length = 2 * (str.length >>> 1) := by
    have := h.even
    rw [Nat.shiftRight_eq_div_pow]
    omega
  rcases eq_or_ne str [] with rfl | hne
  · rfl
  · rw [unhexStr, decodeHex_even (h.isHexstr hne) hlength, List.take_of_length_le (hexLoop_length _ _).le,
      initHexbytesNoT_hexLoop h.digits hlength]

/-- What is left of a string when the participants have taken off their layers. -/
def peeled : List (Player R) → List Char → List Char
  | [], str => str
  | p :: rest, str => peeled rest (initHexbytesNoT (cipher.decrypt p.account (unhexStr str)))

private theorem swapStrs_perm {ptrs : List (List Char)} {i r : Nat} (hi : i < ptrs.length) (hr : r < ptrs.length) :
    (swapStrs ptrs i r).Perm ptrs := by
  rw [swapStrs, List.getD_eq_getElem?_getD, List.getD_eq_getElem?_getD, List.getElem?_eq_getElem hi,
    List.getElem?_eq_getElem hr]
  exact List.set_set_perm hi hr

theorem jumblrStrs_perm (r : Nat → UInt8) (ptrs : List (List Char)) : (jumblrStrs r ptrs).Perm ptrs := by
  refine rounds_induct (motive := fun _ (ptrs' : List (List Char)) => ptrs'.Perm ptrs) _ (.refl ptrs) fun i hi ih => ?_
  have hle : ptrs.length % 256 ≤ ptrs.length := Nat.mod_le _ _
  have hr : (r i).toNat % (ptrs.length % 256) < ptrs.length % 256 := Nat.mod_lt _ (Nat.zero_lt_of_lt hi)
  have hlength := ih.length_eq
  exact (swapStrs_perm (by omega) (by omega)).trans ih

theorem mix_perm (r : Nat → Nat → UInt8) (ptrs : List (List Char)) : (mix r ptrs).Perm ptrs :=
  rounds_induct (motive := fun _ (ptrs' : List (List Char)) => ptrs'.Perm ptrs) 3 (.refl ptrs) fun j _ ih => (jumblrStrs_perm (r j) _).trans ih

theorem layer_eq_str_iff (p : Player R) (rest : List (Player R)) (k : Nat) (str t : List Char) :
    p.layer cipher k str rest = .str t ↔ p.Fits cipher rest (k, str) ∧ t = p.sealed cipher rest (k, str) := by
  rw [Player.layer, jumblrLayer, Player.Fits, Player.sealed]
  split
  case isTrue h => exact ⟨fun h => (nomatch h), fun hfits => absurd hfits.1.1 (not_le.mpr h)⟩
  case isFalse h =>
    split
    case isTrue hroom =>
      refine ⟨fun heq => ⟨⟨not_lt.mp h, hroom⟩, ?_⟩, fun hfits => by rw [hfits.2]⟩
      injection heq with heq
      exact heq.symm
    case isFalse hroom => exact ⟨fun h => (nomatch h), fun hfits => absurd hfits.1.2 hroom⟩

theorem jumblrNext_eq_some_iff (p : Player R) (rest : List (Player R)) (vinstr voutstr : List Char)
    (change : Option Layered) : p.jumblrNext cipher rest = some (vinstr, voutstr, change) ↔
      (p.Fits cipher rest (0, p.vin) ∧ vinstr = p.sealed cipher rest (0, p.vin)) ∧
        (p.Fits cipher rest (1, p.vout) ∧ voutstr = p.sealed cipher rest (1, p.vout)) ∧
          change = p.change.map fun change => p.layer cipher 2 change rest := by
  rw [← layer_eq_str_iff, ← layer_eq_str_iff, Player.jumblrNext]
  split
  case h_1 vinstr' voutstr' hvin hvout =>
    rw [hvin, hvout]
    simp only [Option.some.injEq, Prod.mk.injEq, Layered.str.injEq, eq_comm]
  case h_2 hno =>
    refine ⟨fun h => (nomatch h), fun ⟨hvin, hvout, _⟩ => absurd hvout (hno _ _ hvin)⟩

private theorem outs_fit_iff (p : Player R) (rest : List (Player R)) : (∀ s ∈ p.strings, p.Fits cipher rest s) ↔
    p.Fits cipher rest (0, p.vin) ∧ p.Fits cipher rest (1, p.vout) ∧
      ∀ change ∈ p.change, p.Fits cipher rest (2, change) := by
  simp [Player.strings, Player.outStrings]

private theorem jumblrNext_change {p : Player R} {rest : List (Player R)} {vinstr voutstr changestr : List Char}
    (h : p.jumblrNext cipher rest = some (vinstr, voutstr, some (.str changestr))) :
    (∀ s ∈ p.strings, p.Fits cipher rest s) ∧ vinstr = p.sealed cipher rest (0, p.vin) ∧
      ∃ change, p.change = some change ∧ voutstr = p.sealed cipher rest (1, p.vout) ∧
        changestr = p.sealed cipher rest (2, change) := by
  obtain ⟨⟨hvin, rfl⟩, ⟨hvout, rfl⟩, hchange⟩ := (jumblrNext_eq_some_iff ..).mp h
  obtain ⟨change, hp, hlayer⟩ := Option.map_eq_some_iff.mp hchange.symm
  obtain ⟨hfits, rfl⟩ := (layer_eq_str_iff ..).mp hlayer
  refine ⟨(outs_fit_iff ..).mpr ⟨hvin, hvout, fun c hc => ?_⟩, rfl, change, hp, rfl, rfl⟩
  rw [hp] at hc
  exact Option.mem_some.mp hc ▸ hfits

private theorem jumblrNext_no_change {p : Player R} {rest : List (Player R)} {vinstr voutstr : List Char}
    (h : p.jumblrNext cipher rest = some (vinstr, voutstr, none)) :
    (∀ s ∈ p.strings, p.Fits cipher rest s) ∧ vinstr = p.sealed cipher rest (0, p.vin) ∧
      p.change = none ∧ voutstr = p.sealed cipher rest (1, p.vout) := by
  obtain ⟨⟨hvin, rfl⟩, ⟨hvout, rfl⟩, hchange⟩ := (jumblrNext_eq_some_iff ..).mp h
  have hp : p.change = none := Option.map_eq_none_iff.mp hchange.symm
  refine ⟨(outs_fit_iff ..).mpr ⟨hvin, hvout, fun c hc => ?_⟩, rfl, hp, rfl⟩
  rw [hp] at hc
  exact absurd hc (Option.not_mem_none c)

/-- What a participant passes on: everything with its layer off, and its own strings with theirs on. -/
def Player.passesOn (p : Player R) (msg : Message) (rest : List (Player R)) : Message :=
  ⟨mix (p.bytes 0) (jumblrPeel cipher p.account msg.vins ++ [p.sealed cipher rest (0, p.vin)]),
    mix (p.bytes 1) (jumblrPeel cipher p.account msg.vouts ++ p.outStrings.map (p.sealed cipher rest))⟩

theorem incoming_eq_some_iff (p : Player R) (msg msg' : Message) (rest : List (Player R)) :
    p.incoming cipher msg rest = some msg' ↔ (msg.vins.length < maxStrs ∧ msg.vouts.length < maxStrs) ∧
      (∀ s ∈ p.strings, p.Fits cipher rest s) ∧ msg' = p.passesOn cipher msg rest := by
  rw [Player.incoming, Player.passesOn, Player.outStrings]
  split
  case isFalse hlength => exact ⟨fun h => (nomatch h), fun h => absurd h.1 hlength⟩
  case isTrue hlength =>
    rw [and_iff_right hlength]
    split
    case h_1 hnext =>
      obtain ⟨hfits, rfl, change, hp, rfl, rfl⟩ := jumblrNext_change cipher hnext
      rw [and_iff_right hfits, hp]
      exact Option.some_inj.trans eq_comm
    case h_2 hnext =>
      obtain ⟨hfits, rfl, hp, rfl⟩ := jumblrNext_no_change cipher hnext
      rw [and_iff_right hfits, hp]
      exact Option.some_inj.trans eq_comm
    case h_3 hstr hnone =>
      refine ⟨fun h => (nomatch h), fun ⟨hfits, _⟩ => ?_⟩
      obtain ⟨hvin, hvout, hchange⟩ := (outs_fit_iff ..).mp hfits
      have hnext := (jumblrNext_eq_some_iff cipher p rest _ _ _).mpr ⟨⟨hvin, rfl⟩, ⟨hvout, rfl⟩, rfl⟩
      cases hp : p.change with
      | none =>
        rw [hp] at hnext
        exact absurd hnext (hnone _ _)
      | some change =>
        have hlayer := (layer_eq_str_iff ..).mpr ⟨hchange change hp, rfl⟩
        rw [hp, Option.map_some, hlayer] at hnext
        exact absurd hnext (hstr _ _ _)

/-- The message that starts the ring when every string fits. -/
def Player.startsWith (p : Player R) (rest : List (Player R)) : Message :=
  ⟨[p.sealed cipher rest (0, p.vin)], p.outStrings.map (p.sealed cipher rest)⟩

theorem start_eq_some {p : Player R} {rest : List (Player R)} (hfits : ∀ s ∈ p.strings, p.Fits cipher rest s)
    (hchange : p.ChangeFits cipher rest) : p.start cipher rest = some (p.startsWith cipher rest) := by
  obtain ⟨hvin, hvout, hfits⟩ := (outs_fit_iff ..).mp hfits
  have hnext := (jumblrNext_eq_some_iff cipher p rest _ _ _).mpr ⟨⟨hvin, rfl⟩, ⟨hvout, rfl⟩, rfl⟩
  rw [Player.start, hnext, Player.startsWith, Player.outStrings]
  cases hp : p.change with
  | none => rfl
  | some change =>
    rw [Option.map_some, (layer_eq_str_iff ..).mpr ⟨hfits change hp, rfl⟩]
    exact if_pos (hchange change hp)

/-- A message that starts the ring has every string, or the change is not in it. -/
theorem start_cases {p : Player R} {rest : List (Player R)} {msg : Message} (h : p.start cipher rest = some msg) :
    (p.ChangeFits cipher rest ∧ (∀ s ∈ p.strings, p.Fits cipher rest s) ∧ msg = p.startsWith cipher rest) ∨
      msg.vouts.length < p.outs.length := by
  rw [Player.start] at h
  split at h
  case h_1 hnext =>
    obtain ⟨hfits, rfl, change, hp, rfl, rfl⟩ := jumblrNext_change cipher hnext
    split at h
    case isFalse => exact nomatch h
    case isTrue hroom =>
      cases h
      exact .inl ⟨by simpa [Player.ChangeFits, hp] using hroom, hfits, by simp [Player.startsWith, Player.outStrings, hp]⟩
  case h_2 => exact nomatch h
  case h_3 hstr hover hnext =>
    obtain ⟨⟨hvin, rfl⟩, ⟨hvout, rfl⟩, hchange⟩ := (jumblrNext_eq_some_iff ..).mp hnext
    cases h
    cases hp : p.change with
    | none =>
      refine .inl ⟨by simp [Player.ChangeFits, hp], ?_, by simp [Player.startsWith, Player.outStrings, hp]⟩
      exact (outs_fit_iff ..).mpr ⟨hvin, hvout, by simp [hp]⟩
    | some change => exact .inr (by simp [Player.outs, hp])
  case h_4 => exact nomatch h

private theorem outs_length_le (p : Player R) : p.outStrings.length ≤ 2 := by
  cases hp : p.change with
  | none => simp [Player.outStrings, hp]
  | some change => simp [Player.outStrings, hp]

private theorem passesOn_vins_length (p : Player R) (msg : Message) (rest : List (Player R)) :
    (p.passesOn cipher msg rest).vins.length = msg.vins.length + 1 := by
  rw [Player.passesOn, (mix_perm _ _).length_eq, List.length_append, jumblrPeel, List.length_map, List.length_singleton]

private theorem passesOn_vouts_length (p : Player R) (msg : Message) (rest : List (Player R)) :
    (p.passesOn cipher msg rest).vouts.length = msg.vouts.length + p.outStrings.length := by
  rw [Player.passesOn, (mix_perm _ _).length_eq, List.length_append, jumblrPeel, List.length_map, List.length_map]

/-- A message that is short enough goes through when the strings on its way fit. -/
theorem pass_isSome {rest : List (Player R)} (msg : Message) (hfits : RingFits cipher rest)
    (hvins : msg.vins.length + rest.length ≤ maxAddrs) (hvouts : msg.vouts.length + 2 * rest.length ≤ 2 * maxAddrs) :
    ∃ msg', pass cipher msg rest = some msg' := by
  induction rest generalizing msg with
  | nil => exact ⟨msg, rfl⟩
  | cons p rest ih =>
    rw [List.length_cons] at hvins hvouts
    have hshort : msg.vins.length < maxStrs ∧ msg.vouts.length < maxStrs := by
      rw [maxAddrs] at hvins hvouts
      rw [maxStrs]
      omega
    have hmid := (incoming_eq_some_iff cipher p msg _ rest).mpr ⟨hshort, hfits.1, rfl⟩
    have hp := outs_length_le p
    obtain ⟨msg', hmsg'⟩ := ih (p.passesOn cipher msg rest) hfits.2
      (by rw [passesOn_vins_length]; omega) (by rw [passesOn_vouts_length]; omega)
    exact ⟨msg', by rw [pass, hmid, Option.bind_some, hmsg']⟩

def hexed (str : List Char) : List Char := initHexbytesNoT (unhexStr str)

private theorem hexPairs_of_perm_hexed (strs : List (List Char)) (h : (strs.map hexed).Perm strs) :
    ∀ str ∈ strs, HexPairs str := by
  intro str hstr
  obtain ⟨str', -, rfl⟩ := List.mem_map.mp (h.mem_iff.mpr hstr)
  exact hexPairs_initHexbytesNoT _

private theorem map_hexed (strs : List (List Char)) (h : ∀ str ∈ strs, HexPairs str) : strs.map hexed = strs :=
  (List.map_congr_left fun str hstr => (initHexbytesNoT_unhexStr_iff str).mpr (h str hstr)).trans (List.map_id' strs)

private theorem mem_strings {p : Player R} {s : Nat × List Char} (h : s ∈ p.strings) : s.2 = p.vin ∨ s.2 ∈ p.outs := by
  simp only [Player.strings, Player.outStrings, List.mem_cons, List.mem_map] at h
  rcases h with rfl | rfl | ⟨change, hchange, rfl⟩
  · exact .inl rfl
  · exact .inr List.mem_cons_self
  · exact .inr (List.mem_cons_of_mem _ hchange)

private theorem mem_outs {p : Player R} {str : List Char} (h : str ∈ p.outs) : ∃ k, (k, str) ∈ p.outStrings := by
  rcases List.mem_cons.mp h with rfl | h
  · exact ⟨1, List.mem_cons_self⟩
  · exact ⟨2, List.mem_cons_of_mem _ (List.mem_map_of_mem h)⟩

section
variable {cipher} (hinv : ∀ account key data, cipher.decrypt account (cipher.encrypt account key data) = data)
include hinv

private theorem peeled_wrap {keys : List (Nat × R)} {rest : List (Player R)}
    (hkeys : keys.map Prod.fst = rest.map Player.account) (data : List UInt8) :
    peeled cipher rest (initHexbytesNoT (wrap cipher keys data)) = initHexbytesNoT data := by
  induction rest generalizing keys with
  | nil =>
    have hnil : keys = [] := List.map_eq_nil_iff.mp hkeys
    rw [hnil, wrap, peeled]
  | cons p rest ih =>
    obtain ⟨key, keys, rfl, hkey, hkeys⟩ := List.map_eq_cons_iff.mp hkeys
    rw [peeled, wrap, unhexStr_initHexbytesNoT, ← hkey, hinv, ih hkeys]

/-- The participants that come after take off the layers that were put on for them. -/
theorem peeled_sealed (p : Player R) (rest : List (Player R)) (s : Nat × List Char) :
    peeled cipher rest (p.sealed cipher rest s) = hexed s.2 := by
  refine peeled_wrap hinv ?_ _
  rw [Player.layerKeys, List.map_map]
  exact (List.map_map (l := rest.zipIdx) (f := Prod.fst) (g := Player.account)).symm.trans
    (by rw [List.zipIdx_map_fst])

private theorem peeled_outs (p : Player R) (rest : List (Player R)) :
    (p.outStrings.map (p.sealed cipher rest)).map (peeled cipher rest) = p.outs.map hexed := by
  rw [List.map_map]
  simp [Player.outStrings, Player.outs, Function.comp_def, peeled_sealed hinv]

/-- At the end of the ring are the strings that were in the message without their layers, and those of the
participants on its way. -/
theorem pass_cases {rest : List (Player R)} {msg msg' : Message} (h : pass cipher msg rest = some msg') :
    RingFits cipher rest ∧
      msg'.vins.Perm (msg.vins.map (peeled cipher rest) ++ (rest.map Player.vin).map hexed) ∧
      msg'.vouts.Perm (msg.vouts.map (peeled cipher rest) ++ (rest.flatMap Player.outs).map hexed) := by
  induction rest generalizing msg with
  | nil =>
    cases h
    refine ⟨trivial, ?_, ?_⟩
    · simp [peeled]
    · simp [peeled]
  | cons p rest ih =>
    obtain ⟨mid, hmid, h⟩ := Option.bind_eq_some_iff.mp h
    obtain ⟨-, hfits, rfl⟩ := (incoming_eq_some_iff ..).mp hmid
    obtain ⟨hrest, hvins, hvouts⟩ := ih h
    refine ⟨⟨hfits, hrest⟩, hvins.trans ?_, hvouts.trans ?_⟩
    · refine (((mix_perm _ _).map _).append_right _).trans (.of_eq ?_)
      rw [List.map_append, List.map_singleton, peeled_sealed hinv, jumblrPeel, List.map_map, List.append_assoc]
      rfl
    · refine (((mix_perm _ _).map _).append_right _).trans (.of_eq ?_)
      rw [List.map_append, peeled_outs hinv, jumblrPeel, List.map_map, List.append_assoc, List.flatMap_cons,
        List.map_append]
      rfl

theorem hexPairs_roomy_of_delivers {players : List (Player R)} (h : Delivers cipher players) :
    (∀ p ∈ players, ∀ s ∈ p.strings, HexPairs s.2) ∧ Roomy cipher players := by
  obtain ⟨msg, hmsg, hvins, hvouts⟩ := h
  cases players with
  | nil => exact nomatch hmsg
  | cons p rest =>
    rw [ring] at hmsg
    split at hmsg
    case isFalse => exact nomatch hmsg
    case isTrue hroom =>
      obtain ⟨first, hfirst, hpass⟩ := Option.bind_eq_some_iff.mp hmsg
      obtain ⟨hrest, hpvins, hpvouts⟩ := pass_cases hinv hpass
      rcases start_cases cipher hfirst with ⟨hchange, hfits, rfl⟩ | hlost
      case inr =>
        have hlength := hpvouts.length_eq
        have hlength' := hvouts.length_eq
        simp only [List.length_append, List.length_map, List.flatMap_cons] at hlength hlength'
        omega
      case inl =>
        rw [Player.startsWith, List.map_singleton, peeled_sealed hinv] at hpvins
        rw [Player.startsWith, peeled_outs hinv, ← List.map_append] at hpvouts
        have hvin := hexPairs_of_perm_hexed ((p :: rest).map Player.vin) (hpvins.symm.trans hvins)
        have hout := hexPairs_of_perm_hexed ((p :: rest).flatMap Player.outs) (hpvouts.symm.trans hvouts)
        refine ⟨fun q hq s hs => ?_, hroom.2, hchange, hfits, hrest⟩
        rcases mem_strings hs with h | h
        · exact h ▸ hvin _ (List.mem_map_of_mem hq)
        · exact hout _ (List.mem_flatMap.mpr ⟨q, hq, h⟩)

theorem delivers_of_hexPairs {players : List (Player R)} (hthree : 3 ≤ players.length)
    (hpairs : ∀ p ∈ players, ∀ s ∈ p.strings, HexPairs s.2) (hroom : Roomy cipher players) :
    Delivers cipher players := by
  cases players with
  | nil => exact nomatch hroom
  | cons p rest =>
    obtain ⟨hlength, hchange, hfits, hrest⟩ := hroom
    have hp := outs_length_le p
    obtain ⟨msg, hmsg⟩ := pass_isSome cipher (p.startsWith cipher rest) hrest
      (by rw [Player.startsWith, List.length_singleton]; omega) (by rw [Player.startsWith, List.length_map]; omega)
    obtain ⟨-, hpvins, hpvouts⟩ := pass_cases hinv hmsg
    rw [Player.startsWith, List.map_singleton, peeled_sealed hinv] at hpvins
    rw [Player.startsWith, peeled_outs hinv, ← List.map_append] at hpvouts
    refine ⟨msg, by rw [ring, if_pos ⟨hthree, hlength⟩, start_eq_some cipher hfits hchange, Option.bind_some, hmsg], ?_, ?_⟩
    · refine hpvins.trans (.of_eq (map_hexed ((p :: rest).map Player.vin) fun str hstr => ?_))
      obtain ⟨q, hq, rfl⟩ := List.mem_map.mp hstr
      exact hpairs q hq _ List.mem_cons_self
    · refine hpvouts.trans (.of_eq (map_hexed ((p :: rest).flatMap Player.outs) fun str hstr => ?_))
      obtain ⟨q, hq, hstr⟩ := List.mem_flatMap.mp hstr
      obtain ⟨k, hk⟩ := mem_outs hstr
      exact hpairs q hq (k, str) (List.mem_cons_of_mem _ hk)

/-- The ring delivers every string exactly if they are an even number of hex digits and there is room for them. -/
theorem delivers_iff {players : List (Player R)} (hthree : 3 ≤ players.length) : Delivers cipher players ↔
    (∀ p ∈ players, ∀ s ∈ p.strings, HexPairs s.2) ∧ Roomy cipher players :=
  ⟨hexPairs_roomy_of_delivers hinv, fun ⟨hpairs, hroom⟩ => delivers_of_hexPairs hinv hthree hpairs hroom⟩

end

private theorem toDigits_digits (n : Nat) : ∀ c ∈ Nat.toDigits 16 n, (unhex? c).isSome := by
  have hdigit : ∀ d < 16, (unhex? (Nat.digitChar d)).isSome := by decide
  induction n using Nat.strong_induction_on with
  | h n ih =>
    intro c hc
    rw [Nat.toDigits_eq_if (by omega)] at hc
    split at hc
    case isTrue hlt => exact List.mem_singleton.mp hc ▸ hdigit n hlt
    case isFalse hge =>
      rcases List.mem_append.mp hc with hc | hc
      · exact ih (n / 16) (by omega) c hc
      · exact List.mem_singleton.mp hc ▸ hdigit _ (Nat.mod_lt _ (by omega))

private theorem hex02_digits (n : Nat) : ∀ c ∈ hex02 n, (unhex? c).isSome := by
  intro c hc
  rcases List.mem_append.mp hc with hc | hc
  · rw [(List.mem_replicate.mp hc).2]
    decide
  · exact toDigits_digits n c hc

private theorem hex02_length {n : Nat} (h : n < 256) : (hex02 n).length = 2 := by
  rw [hex02, List.length_leftpad, Nat.toDigits_eq_if (by omega)]
  split
  · rfl
  · rw [Nat.toDigits_of_lt_base (by omega)]
    rfl

/-- The plain string of an input is an even number of digits unless the number of the output takes an odd one. -/
theorem hexPairs_encodevin_iff {vintxid scriptPubKey str : List Char} {vout : Nat} (htxid : HexPairs vintxid)
    (hscript : HexPairs scriptPubKey) (h : encodevin vintxid vout scriptPubKey = some str) :
    HexPairs str ↔ (hex02 vout).length % 2 = 0 := by
  rw [encodevin] at h
  split at h
  case isTrue => exact nomatch h
  case isFalse hlength =>
    cases h
    have hshort : scriptPubKey.length >>> 1 < 256 := by
      rw [Nat.shiftRight_eq_div_pow]
      omega
    have htwo := hex02_length hshort
    have heven := htxid.even
    have heven' := hscript.even
    have hparity : (hex02 vout ++ hex02 (scriptPubKey.length >>> 1) ++ scriptPubKey ++ vintxid).length % 2 =
        (hex02 vout).length % 2 := by
      rw [List.length_append, List.length_append, List.length_append, htwo]
      omega
    refine ⟨fun h => hparity ▸ h.even, fun h => ⟨fun c hc => ?_, hparity.trans h⟩⟩
    simp only [List.mem_append] at hc
    rcases hc with ((hc | hc) | hc) | hc
    · exact hex02_digits _ c hc
    · exact hex02_digits _ c hc
    · exact hscript.digits c hc
    · exact htxid.digits c hc

theorem hexPairs_encodevout_iff {hexaddress : List Char} (amount : UInt64) :
    HexPairs (encodevout hexaddress amount) ↔ HexPairs hexaddress := by
  have hamount := hexPairs_initHexbytesNoT ((List.range 8).map fun j => (amount >>> (8 * j).toUInt64).toUInt8)
  have heven := hamount.even
  constructor
  · intro h
    have heven' := h.even
    rw [encodevout, List.length_append] at heven'
    exact ⟨fun c hc => h.digits c (List.mem_append_right _ hc), by omega⟩
  · intro h
    have heven' := h.even
    refine ⟨fun c hc => ?_, by rw [encodevout, List.length_append]; omega⟩
    exact (List.mem_append.mp hc).elim (hamount.digits c) (h.digits c)

/-- A byte is drawn for each layer and stands in front of it. -/
def padCipher : Cipher UInt8 where
  encrypt account key data := key :: data.map fun b => b ^^^ (key + account.toUInt8)
  decrypt account data := data.tail.map fun b => b ^^^ (data.headD 0 + account.toUInt8)

private theorem padCipher_inv (account : Nat) (key : UInt8) (data : List UInt8) :
    padCipher.decrypt account (padCipher.encrypt account key data) = data := by
  have hcancel : ∀ b ∈ data, (b ^^^ (key + account.toUInt8)) ^^^ (key + account.toUInt8) = b := by
    intro b _
    rw [UInt8.xor_assoc, UInt8.xor_self, UInt8.xor_zero]
  simp only [padCipher, List.tail_cons, List.headD_cons, List.map_map]
  exact (List.map_congr_left hcancel).trans data.map_id

def payToHash : List Char := "76a914".toList ++ List.replicate 40 'e' ++ "88ac".toList

/-- Three participants; the first spends the given output of a transaction. -/
def three (vout : Nat) : List (Player UInt8) :=
  [(11, 'a', vout), (12, 'b', 0), (13, 'c', 1)].map fun (account, c, vout) =>
    { account := account
      vin := (encodevin (List.replicate 64 c) vout payToHash).getD []
      vout := encodevout ("00".toList ++ List.replicate 40 c) 1000
      change := some (encodevout ("05".toList ++ List.replicate 40 c) 77)
      keys := fun k i => (account + 3 * k + i).toUInt8
      bytes := fun k j i => (account + k + j + i).toUInt8 }

private theorem hexPairs_append {s t : List Char} (hs : HexPairs s) (ht : HexPairs t) : HexPairs (s ++ t) := by
  have heven := hs.even
  have heven' := ht.even
  exact ⟨fun c hc => (List.mem_append.mp hc).elim (hs.digits c) (ht.digits c), by rw [List.length_append]; omega⟩

private theorem hexPairs_replicate {c : Char} (h : (unhex? c).isSome) (n : Nat) : HexPairs (List.replicate (2 * n) c) :=
  ⟨fun _ hc => (List.mem_replicate.mp hc).2 ▸ h, by rw [List.length_replicate]; omega⟩

private theorem hexPairs_of_all {s : List Char} (h : s.all fun c => (unhex? c).isSome) (heven : s.length % 2 = 0) :
    HexPairs s :=
  ⟨List.all_eq_true.mp h, heven⟩

private theorem payToHash_hexPairs : HexPairs payToHash :=
  hexPairs_append (hexPairs_append (hexPairs_of_all rfl rfl) (hexPairs_replicate rfl 20)) (hexPairs_of_all rfl rfl)

private theorem encodevin_getD_hexPairs {vintxid scriptPubKey : List Char} {vout : Nat} (htxid : HexPairs vintxid)
    (hscript : HexPairs scriptPubKey) (heven : (hex02 vout).length % 2 = 0) :
    HexPairs ((encodevin vintxid vout scriptPubKey).getD []) := by
  cases henc : encodevin vintxid vout scriptPubKey with
  | none => exact ⟨nofun, rfl⟩
  | some str => exact (hexPairs_encodevin_iff htxid hscript henc).mpr heven

private theorem three_hexPairs {vout : Nat} (heven : (hex02 vout).length % 2 = 0) :
    ∀ p ∈ three vout, ∀ s ∈ p.strings, HexPairs s.2 := by
  intro p hp
  obtain ⟨⟨account, c, n⟩, hmem, rfl⟩ := List.mem_map.mp hp
  have hc : (unhex? c).isSome ∧ (hex02 n).length % 2 = 0 := by
    simp only [List.mem_cons, List.not_mem_nil, or_false, Prod.mk.injEq] at hmem
    rcases hmem with ⟨-, rfl, rfl⟩ | ⟨-, rfl, rfl⟩ | ⟨-, rfl, rfl⟩
    · exact ⟨rfl, heven⟩
    · decide
    · decide
  have hpay : ∀ kind amount, HexPairs kind → HexPairs (encodevout (kind ++ List.replicate 40 c) amount) :=
    fun kind amount hkind => (hexPairs_encodevout_iff amount).mpr (hexPairs_append hkind (hexPairs_replicate hc.1 20))
  intro s hs
  simp only [Player.strings, Player.outStrings, Option.toList_some, List.map_cons, List.map_nil, List.mem_cons,
    List.not_mem_nil, or_false] at hs
  rcases hs with rfl | rfl | rfl
  · exact encodevin_getD_hexPairs (hexPairs_replicate hc.1 32) payToHash_hexPairs hc.2
  · exact hpay _ _ (hexPairs_of_all rfl rfl)
  · exact hpay _ _ (hexPairs_of_all rfl rfl)

theorem three_deliver : (∀ p ∈ three 255, ∀ s ∈ p.strings, HexPairs s.2) ∧ Delivers padCipher (three 255) := by
  have hpairs := three_hexPairs (show (hex02 255).length % 2 = 0 by decide)
  exact ⟨hpairs, (delivers_iff padCipher_inv (by decide)).mpr ⟨hpairs, by decide +kernel⟩⟩

theorem odd_string_shifts : (∀ account key data, padCipher.decrypt account (padCipher.encrypt account key data) = data) ∧
    ((three 256).map Player.vin).head? = some ("10019".toList ++ payToHash ++ List.replicate 64 'a') ∧
    (ring padCipher (three 256)).map Message.vins = some
      ["0119".toList ++ payToHash ++ List.replicate 64 'c',
        "010019".toList ++ payToHash ++ List.replicate 62 'a',
        "0019".toList ++ payToHash ++ List.replicate 64 'b'] ∧
    ¬ Delivers padCipher (three 256) := by
  refine ⟨padCipher_inv, by decide +kernel, by decide +kernel, fun h => ?_⟩
  obtain ⟨hpairs, -⟩ := hexPairs_roomy_of_delivers padCipher_inv h
  have hodd : ∃ p ∈ three 256, ∃ s ∈ p.strings, s.2.length % 2 = 1 := by decide +kernel
  obtain ⟨p, hp, s, hs, hodd⟩ := hodd
  have heven := (hpairs p hp s hs).even
  omega

end SuperNet.Agents.Shuffle777Ring
