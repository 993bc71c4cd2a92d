import Mathlib.Algebra.Field.ZMod
import Mathlib.Data.List.GetD
import Mathlib.Data.Set.Finite.Basic
import SuperNet.Games.Cards777Shuffle
import SuperNet.Games.Pangea

/-! The deal of cards777.c. A `bits256` is an element of the field behind `fmul_donna` and `crecip_donna`, the
functions of the curve are parameters, and what is drawn at random is an argument. -/
namespace SuperNet.Games.Cards777
open Cards777Shuffle Pangea

/-- What the deal uses of the curve; `byte1` is `bytes[1]` of a key, the number of its card. -/
structure Curve (F : Type) where
  curve25519 : F → F → F
  curve25519Shared : F → F → F
  basepoint9 : F
  byte1 : F → UInt8

def Curve.pubkey {F : Type} (C : Curve F) (privkey : F) : F := C.curve25519 privkey C.basepoint9

/-- Both sides of an exchange come to the same key. -/
def Curve.Commutes {F : Type} (C : Curve F) : Prop :=
  ∀ a b, C.curve25519Shared a (C.pubkey b) = C.curve25519Shared b (C.pubkey a)

section Shuffle
variable (x : Nat → UInt8) (junk : Fin CARDS777_MAXCARDS → Int) {numcards : Nat}

theorem shuffledRow_mapsTo (h : numcards ≤ CARDS777_MAXCARDS) :
    Set.MapsTo (shuffledRow x junk numcards) (Set.Iio numcards) (Set.Iio numcards) := by
  obtain ⟨order, hperm, hrows, -⟩ := cards777Shuffle_rows x junk h (List.length_replicate (a := ()) (n := numcards * 1))
  intro row hrow
  exact List.mem_range.mp (hperm.mem_iff.mp (List.mem_of_getElem? (hrows row hrow)))

theorem shuffledRow_injOn (h : numcards ≤ CARDS777_MAXCARDS) : Set.InjOn (shuffledRow x junk numcards) (Set.Iio numcards) := by
  obtain ⟨order, hperm, hrows, -⟩ := cards777Shuffle_rows x junk h (List.length_replicate (a := ()) (n := numcards * 1))
  intro row hrow row' hrow' heq
  have hnodup := hperm.nodup_iff.mpr List.nodup_range
  have hlen : row < order.length := (List.getElem?_eq_some_iff.mp (hrows row hrow)).1
  apply (List.getElem?_inj hlen hnodup).mp
  rw [hrows row hrow, hrows row' hrow', heq]

end Shuffle

section
variable {F : Type} [Field F] [DecidableEq F] (C : Curve F)

def cards777Initcrypt (data privkey pubkey : F) (invert : Bool) : F :=
  let hash := C.curve25519Shared privkey pubkey
  data * if invert then hash⁻¹ else hash

/-- The first card whose public key fits the cipher, zero if none does. -/
def cards777Cardpriv (playerpriv cipher : F) : List F → F
  | [] => 0
  | cardpub :: cardpubs =>
    let cardpriv := cards777Initcrypt C cipher playerpriv cardpub true
    if C.pubkey cardpriv = cardpub then cardpriv else cards777Cardpriv playerpriv cipher cardpubs

/-- The loop of `cards777_validate`, down from `audit[i]`. -/
def validateVal (audit : Nat → F) : Nat → F → F
  | 0, val => val
  | i + 1, val => validateVal audit i (audit (i + 1) * val)

def cards777Validate (cardpriv final : F) (audit : Nat → F) (numplayers : Nat) (playerpub : F) : Int :=
  let checkcard := validateVal audit (numplayers - 1) final
  if checkcard ≠ audit 0 then -1
  else if checkcard ≠ cards777Initcrypt C cardpriv cardpriv playerpub false then -1
  else (C.byte1 cardpriv).toNat

def cards777Layer (xoverz incards : Nat → F) : Nat → F := fun nonz => (xoverz nonz)⁻¹ * incards nonz

/-- What a player draws for `cards777_encode`, and what stands in `permi` before. -/
structure Player (F : Type) where
  x : Nat → UInt8
  junk : Fin CARDS777_MAXCARDS → Int
  xoverz : Nat → F

/-- `cards777_encode`: the encoded deck, and what it leaves in `ciphers`. The arrays for the shares have room for nine
players, `shuffled` for 52 cards of each. -/
def cards777Encode (p : Player F) (ciphers : Nat → F) (numcards N : Nat) : Option ((Nat → F) × (Nat → F)) :=
  if CARDS777_MAXPLAYERS < N then none
  else do
    let (shuffled, _) ← cards777Shuffle p.x p.junk ((List.range (numcards * N)).map ciphers) numcards N
    some (cards777Layer p.xoverz fun nonz => shuffled.getD nonz 0,
      fun nonz => if nonz < numcards * N then shuffled.getD nonz 0 else ciphers nonz)

/-- A drawn key joins the deck when its number is in range and not there yet. -/
def takeKey (numcards : Nat) (deck : List F) (privkey : F) : List F :=
  if (C.byte1 privkey).toNat < numcards ∧ C.byte1 privkey ∉ deck.map C.byte1 then deck ++ [privkey] else deck

/-- The deck that the keys drawn give. The loop of `cards777_initdeck` ends when it has `numcards` keys, from
when on no key would be taken. -/
def deckKeys (numcards : Nat) (draws : List F) : List F := draws.foldl (takeKey C numcards) []

/-- `cards` of the host: each card for each player. -/
def cards777Initdeck (keys : List F) (N : Nat) (playerpubs : Nat → F) : Nat → F :=
  fun nonz => cards777Initcrypt C (keys.getD (nonz / N) 0) (keys.getD (nonz / N) 0) (playerpubs (nonz % N)) false

/-- The seed and the decoded cipher, both zero when the cipher is not found. -/
def cards777Decode (xoverz : Nat → F) (destplayer : Nat) (cipher : F) (outcards : Nat → F) (numcards N : Nat) : F × F :=
  match (List.range numcards).find? fun i => outcards (i * N + destplayer) = cipher with
  | some i => (xoverz (i * N + destplayer), xoverz (i * N + destplayer) * cipher)
  | none => (0, 0)

/-- The arrays of the players up to `n`, from the host's on. `copied` says that a player encodes a copy of the deck
before it, as `pangea_encoded` does with a message, and not the array itself, as the test in cards777.c does. -/
def outcards (copied : Bool) (players : Nat → Player F) (cards : Nat → F) (numcards N : Nat) : Nat → Option (Nat → Nat → F)
  | 0 => some fun _ => cards
  | i + 1 => do
    let decks ← outcards copied players cards numcards N i
    let (encoded, ciphers) ← cards777Encode (players (i + 1)) (decks i) numcards N
    let decks := if copied then decks else Function.update decks i ciphers
    some (Function.update decks (i + 1) encoded)

/-- Players `i` to 1 decode `audit[0]` in turn, and each leaves its seed in the audit. -/
def decodeDown (players : Nat → Player F) (decks : Nat → Nat → F) (numcards N destplayer : Nat) : Nat → (Nat → F) → Nat → F
  | 0, audit => audit
  | i + 1, audit =>
    match cards777Decode (players (i + 1)).xoverz destplayer (audit 0) (decks (i + 1)) numcards N with
    | (seed, cipher) =>
      decodeDown players decks numcards N destplayer i (Function.update (Function.update audit (i + 1) seed) 0 cipher)

/-- Every deck up to `n` is the one before it with its rows shuffled and its entries divided by the blindings. -/
def Encoded (players : Nat → Player F) (decks : Nat → Nat → F) (numcards N n : Nat) : Prop :=
  ∀ i < n, ∀ row < numcards, ∀ col < N, decks (i + 1) (row * N + col) =
    ((players (i + 1)).xoverz (row * N + col))⁻¹ *
      decks i (shuffledRow (players (i + 1)).x (players (i + 1)).junk numcards row * N + col)

section Decode
variable {numcards N destplayer : Nat} {players : Nat → Player F} {cards : Nat → F} {decks : Nat → Nat → F}

theorem row_div {row : Nat} (hdest : destplayer < N) : (row * N + destplayer) / N = row := by
  rw [Nat.mul_comm, Nat.mul_add_div (by omega), Nat.div_eq_of_lt hdest, Nat.add_zero]

theorem row_mod {row : Nat} (hdest : destplayer < N) : (row * N + destplayer) % N = destplayer := by
  rw [Nat.mul_comm, Nat.mul_add_mod, Nat.mod_eq_of_lt hdest]

theorem row_lt {row : Nat} (hrow : row < numcards) (hdest : destplayer < N) : row * N + destplayer < numcards * N :=
  calc row * N + destplayer < (row + 1) * N := by
        rw [Nat.succ_mul]
        omega
    _ ≤ numcards * N := Nat.mul_le_mul_right N hrow

omit [DecidableEq F] in
theorem cards777Encode_rows (p : Player F) (ciphers : Nat → F) (hroom : numcards ≤ CARDS777_MAXCARDS)
    (hseats : N ≤ CARDS777_MAXPLAYERS) : ∃ encoded left, cards777Encode p ciphers numcards N = some (encoded, left) ∧
      ∀ row < numcards, ∀ col < N, encoded (row * N + col) =
        (p.xoverz (row * N + col))⁻¹ * ciphers (shuffledRow p.x p.junk numcards row * N + col) := by
  have hlen : ((List.range (numcards * N)).map ciphers).length = numcards * N := by rw [List.length_map, List.length_range]
  obtain ⟨order, hperm, hrows, hshuffle⟩ := cards777Shuffle_rows p.x p.junk hroom hlen
  have horder : ∀ card ∈ order, card * N + N ≤ ((List.range (numcards * N)).map ciphers).length := by
    intro card hcard
    have hlt := List.mem_range.mp (hperm.mem_iff.mp hcard)
    rw [hlen, ← Nat.succ_mul]
    exact Nat.mul_le_mul_right N hlt
  have hencode : cards777Encode p ciphers numcards N =
      some (cards777Layer p.xoverz fun nonz => (arrange ((List.range (numcards * N)).map ciphers) N order).getD nonz 0,
        fun nonz => if nonz < numcards * N then (arrange ((List.range (numcards * N)).map ciphers) N order).getD nonz 0
          else ciphers nonz) := by
    rw [cards777Encode, if_neg (not_lt.mpr hseats), hshuffle]
    rfl
  refine ⟨_, _, hencode, ?_⟩
  · intro row hrow col hcol
    have hlt := row_lt (shuffledRow_mapsTo p.x p.junk hroom hrow) hcol
    rw [cards777Layer, List.getD_eq_getElem?_getD, arrange_getElem? horder (hrows row hrow) hcol, List.getElem?_map,
      List.getElem?_range hlt]
    rfl

omit [DecidableEq F] in
/-- Players that encode copies come to decks that are encoded one from the other. -/
theorem outcards_encoded (players : Nat → Player F) (cards : Nat → F) (hroom : numcards ≤ CARDS777_MAXCARDS)
    (hseats : N ≤ CARDS777_MAXPLAYERS) (n : Nat) : ∃ decks, outcards true players cards numcards N n = some decks ∧
      decks 0 = cards ∧ Encoded players decks numcards N n := by
  induction n with
  | zero => exact ⟨fun _ => cards, rfl, rfl, fun i hi => absurd hi (Nat.not_lt_zero i)⟩
  | succ n ih =>
    obtain ⟨decks, hdecks, hhost, hencoded⟩ := ih
    obtain ⟨encoded, left, hencode, hrows⟩ := cards777Encode_rows (players (n + 1)) (decks n) hroom hseats
    refine ⟨Function.update decks (n + 1) encoded, ?_, ?_, fun i hi row hrow col hcol => ?_⟩
    · rw [outcards, hdecks]
      simp only [Option.bind_eq_bind, Option.bind_some, hencode, if_true]
    · rw [Function.update_of_ne (Nat.succ_ne_zero n).symm, hhost]
    · rcases Nat.lt_succ_iff_lt_or_eq.mp hi with hlt | rfl
      · rw [Function.update_of_ne (by omega), Function.update_of_ne (by omega)]
        exact hencoded i hlt row hrow col hcol
      · rw [Function.update_self, Function.update_of_ne (by omega)]
        exact hrows row hrow col hcol

/-- The first row of a deck with the same cipher for the player as `row`. -/
def firstRow (deck : Nat → F) (numcards N destplayer row : Nat) : Nat :=
  ((List.range numcards).find? fun i => deck (i * N + destplayer) = deck (row * N + destplayer)).getD 0

omit [Field F] in
theorem find_firstRow (deck : Nat → F) (N destplayer : Nat) {row : Nat} (hrow : row < numcards) :
    (List.range numcards).find? (fun i => deck (i * N + destplayer) = deck (row * N + destplayer)) =
        some (firstRow deck numcards N destplayer row) ∧
      firstRow deck numcards N destplayer row < numcards ∧
      deck (firstRow deck numcards N destplayer row * N + destplayer) = deck (row * N + destplayer) := by
  rw [firstRow]
  cases hfind : (List.range numcards).find? fun i => deck (i * N + destplayer) = deck (row * N + destplayer) with
  | none =>
    rw [List.find?_eq_none] at hfind
    exact absurd (decide_eq_true rfl) (hfind row (List.mem_range.mpr hrow))
  | some i =>
    have hsame := List.find?_some hfind
    exact ⟨rfl, List.mem_range.mp (List.mem_of_find?_eq_some hfind), of_decide_eq_true hsame⟩

omit [Field F] in
/-- The ciphers for the player in a deck are distinct exactly when each is found where it is. -/
theorem firstRow_injOn_iff (deck : Nat → F) :
    Set.InjOn (firstRow deck numcards N destplayer) (Set.Iio numcards) ↔
      Set.InjOn (fun row => deck (row * N + destplayer)) (Set.Iio numcards) := by
  constructor
  · intro h row hrow row' hrow' heq
    apply h hrow hrow'
    rw [firstRow, firstRow]
    simp only [show deck (row * N + destplayer) = deck (row' * N + destplayer) from heq]
  · intro h row hrow row' hrow' heq
    apply h hrow hrow'
    have hsame := (find_firstRow deck N destplayer hrow).2.2
    rw [heq] at hsame
    exact hsame.symm.trans (find_firstRow deck N destplayer hrow').2.2

def originRow (players : Nat → Player F) (decks : Nat → Nat → F) (numcards N destplayer : Nat) : Nat → Nat → Nat
  | 0, row => row
  | i + 1, row =>
    originRow players decks numcards N destplayer i
      (shuffledRow (players (i + 1)).x (players (i + 1)).junk numcards (firstRow (decks (i + 1)) numcards N destplayer row))

/-- A player decodes a cipher of its deck to one of the deck before it. -/
theorem decode_step (hdest : destplayer < N) {i n row : Nat} (hencoded : Encoded players decks numcards N n) (hi : i < n)
    (hrow : row < numcards) (hxoverz : ∀ nonz < numcards * N, (players (i + 1)).xoverz nonz ≠ 0) :
    let first := firstRow (decks (i + 1)) numcards N destplayer row
    cards777Decode (players (i + 1)).xoverz destplayer (decks (i + 1) (row * N + destplayer)) (decks (i + 1)) numcards N =
      ((players (i + 1)).xoverz (first * N + destplayer),
        decks i (shuffledRow (players (i + 1)).x (players (i + 1)).junk numcards first * N + destplayer)) ∧
    (players (i + 1)).xoverz (first * N + destplayer) * decks (i + 1) (row * N + destplayer) =
      decks i (shuffledRow (players (i + 1)).x (players (i + 1)).junk numcards first * N + destplayer) := by
  intro first
  obtain ⟨hfind, hfirst, hsame⟩ := find_firstRow (decks (i + 1)) N destplayer hrow
  have hundo : (players (i + 1)).xoverz (first * N + destplayer) * decks (i + 1) (row * N + destplayer) =
      decks i (shuffledRow (players (i + 1)).x (players (i + 1)).junk numcards first * N + destplayer) := by
    rw [← hsame, hencoded i hi _ hfirst _ hdest, mul_inv_cancel_left₀ (hxoverz _ (row_lt hfirst hdest))]
  refine ⟨?_, hundo⟩
  rw [cards777Decode, hfind]
  dsimp only
  rw [hundo]

/-- Decoding from player `i` down ends at a card of the host's deck, with an audit that leads there. -/
theorem decodeDown_spec (hdest : destplayer < N) (hroom : numcards ≤ CARDS777_MAXCARDS) {n : Nat}
    (hencoded : Encoded players decks numcards N n) (i : Nat) (hi : i ≤ n) {row : Nat} (hrow : row < numcards)
    (hxoverz : ∀ j, 0 < j → j ≤ i → ∀ nonz < numcards * N, (players j).xoverz nonz ≠ 0) (audit : Nat → F)
    (haudit : audit 0 = decks i (row * N + destplayer)) :
    decodeDown players decks numcards N destplayer i audit 0 =
        decks 0 (originRow players decks numcards N destplayer i row * N + destplayer) ∧
      validateVal (decodeDown players decks numcards N destplayer i audit) i (audit 0) =
        decodeDown players decks numcards N destplayer i audit 0 ∧
      ∀ j, i < j → decodeDown players decks numcards N destplayer i audit j = audit j := by
  induction i generalizing row audit with
  | zero => exact ⟨haudit, rfl, fun _ _ => rfl⟩
  | succ i ih =>
    obtain ⟨hdecode, hundo⟩ := decode_step hdest hencoded hi hrow (hxoverz (i + 1) i.succ_pos le_rfl)
    have hfirst := (find_firstRow (decks (i + 1)) N destplayer hrow).2.1
    rw [decodeDown, haudit, hdecode]
    dsimp only
    obtain ⟨hcard, hval, hframe⟩ := ih (Nat.le_of_succ_le hi) (shuffledRow_mapsTo (players (i + 1)).x _ hroom hfirst)
      (fun j h0 hj => hxoverz j h0 (by omega)) _ (Function.update_self 0 _ _)
    refine ⟨hcard, ?_, fun j hj => ?_⟩
    · rw [validateVal, hframe (i + 1) (Nat.lt_succ_self i), Function.update_of_ne (Nat.succ_ne_zero i), Function.update_self, hundo]
      rw [Function.update_self] at hval
      exact hval
    · rw [hframe j (by omega), Function.update_of_ne (by omega), Function.update_of_ne (by omega)]

omit [Field F] in
theorem originRow_mapsTo (hroom : numcards ≤ CARDS777_MAXCARDS) (i : Nat) :
    Set.MapsTo (originRow players decks numcards N destplayer i) (Set.Iio numcards) (Set.Iio numcards) := by
  induction i with
  | zero => exact Set.mapsTo_id _
  | succ i ih =>
    intro row hrow
    exact ih (shuffledRow_mapsTo _ _ hroom (find_firstRow (decks (i + 1)) N destplayer hrow).2.1)

omit [Field F] in
/-- The rows stay apart exactly when no player has two equal ciphers for the destination. -/
theorem originRow_injOn_iff (hroom : numcards ≤ CARDS777_MAXCARDS) (i : Nat) :
    Set.InjOn (originRow players decks numcards N destplayer i) (Set.Iio numcards) ↔
      ∀ j, 0 < j → j ≤ i →
        Set.InjOn (fun row => decks j (row * N + destplayer)) (Set.Iio numcards) := by
  induction i with
  | zero => exact iff_of_true (Set.injOn_id _) fun j h0 hj => by omega
  | succ i ih =>
    let back := fun row =>
      shuffledRow (players (i + 1)).x (players (i + 1)).junk numcards (firstRow (decks (i + 1)) numcards N destplayer row)
    have hmaps : Set.MapsTo back (Set.Iio numcards) (Set.Iio numcards) := fun row hrow =>
      shuffledRow_mapsTo _ _ hroom (find_firstRow (decks (i + 1)) N destplayer hrow).2.1
    have hback : Set.InjOn back (Set.Iio numcards) ↔
        Set.InjOn (fun row => decks (i + 1) (row * N + destplayer)) (Set.Iio numcards) := by
      rw [← firstRow_injOn_iff]
      refine ⟨fun h row hrow row' hrow' heq => h hrow hrow' ?_, fun h => ?_⟩
      · simp only [back, heq]
      · exact (shuffledRow_injOn _ _ hroom).comp h fun row hrow => (find_firstRow _ N destplayer hrow).2.1
    have hsplit : Set.InjOn (originRow players decks numcards N destplayer (i + 1)) (Set.Iio numcards) ↔
        Set.InjOn (originRow players decks numcards N destplayer i) (Set.Iio numcards) ∧ Set.InjOn back (Set.Iio numcards) := by
      constructor
      · intro h
        have hinj : Set.InjOn back (Set.Iio numcards) := fun row hrow row' hrow' heq => h hrow hrow' (by
          rw [originRow, originRow]
          exact congrArg _ heq)
        have hsurj := (((Set.finite_Iio numcards).injOn_iff_bijOn_of_mapsTo hmaps).mp hinj).surjOn
        refine ⟨fun row hrow row' hrow' heq => ?_, hinj⟩
        obtain ⟨r, hr, rfl⟩ := hsurj hrow
        obtain ⟨r', hr', rfl⟩ := hsurj hrow'
        exact congrArg back (h hr hr' heq)
      · rintro ⟨hi, hb⟩
        exact hi.comp hb hmaps
    rw [hsplit, ih, hback]
    constructor
    · rintro ⟨hbelow, hlast⟩ j h0 hj
      rcases Nat.lt_succ_iff_lt_or_eq.mp (Nat.lt_succ_of_le hj) with hlt | rfl
      · exact hbelow j h0 (by omega)
      · exact hlast
    · exact fun h => ⟨fun j h0 hj => h j h0 (by omega), h (i + 1) i.succ_pos le_rfl⟩

end Decode

/-- A cipher that fits only public keys for which it decrypts to `cardpriv`. -/
theorem cardpriv_eq {playerpriv cipher cardpriv : F} {cardpubs : List F}
    (hfits : ∃ pub ∈ cardpubs, C.pubkey (cards777Initcrypt C cipher playerpriv pub true) = pub)
    (honly : ∀ pub ∈ cardpubs, C.pubkey (cards777Initcrypt C cipher playerpriv pub true) = pub →
      cards777Initcrypt C cipher playerpriv pub true = cardpriv) :
    cards777Cardpriv C playerpriv cipher cardpubs = cardpriv := by
  induction cardpubs with
  | nil =>
    obtain ⟨pub, hpub, -⟩ := hfits
    cases hpub
  | cons pub cardpubs ih =>
    rw [cards777Cardpriv]
    split
    · next hfit => exact honly pub List.mem_cons_self hfit
    · next hfit =>
      obtain ⟨pub', hpub', hfit'⟩ := hfits
      rcases List.mem_cons.mp hpub' with rfl | hmem
      · exact absurd hfit' hfit
      · exact ih ⟨pub', hmem, hfit'⟩ fun pub hpub => honly pub (List.mem_cons_of_mem _ hpub)

omit [Field F] [DecidableEq F] in
theorem deckKeys_nodup (numcards : Nat) (draws : List F) : ((deckKeys C numcards draws).map C.byte1).Nodup := by
  rw [deckKeys]
  have hstep : ∀ deck : List F, (deck.map C.byte1).Nodup →
      ((draws.foldl (takeKey C numcards) deck).map C.byte1).Nodup := by
    induction draws with
    | nil => exact fun _ h => h
    | cons privkey draws ih =>
      intro deck hdeck
      refine ih _ ?_
      rw [takeKey]
      split
      · next hnew =>
        rw [List.map_append, List.map_singleton, ← List.concat_eq_append]
        exact (List.nodup_concat _ _).mpr ⟨hnew.2, hdeck⟩
      · exact hdeck
  exact hstep [] List.nodup_nil

/-- A hand: the keys the host draws for the deck, the players' keys, and what each player draws. -/
structure Deal (F : Type) where
  numcards : Nat
  N : Nat
  draws : List F
  playerprivs : Nat → F
  players : Nat → Player F

variable (d : Deal F)

def Deal.keys : List F := deckKeys C d.numcards d.draws

def Deal.playerpub (destplayer : Nat) : F := C.pubkey (d.playerprivs destplayer)

/-- The decks of the host and of all players after it. -/
def Deal.decks (copied : Bool) : Option (Nat → Nat → F) :=
  outcards copied d.players (cards777Initdeck C (d.keys C) d.N (d.playerpub C)) d.numcards d.N (d.N - 1)

def Deal.final (decks : Nat → Nat → F) : Nat → F := decks (d.N - 1)

/-- The audit of a card after players `N - 1` to 1 have decoded it. -/
def Deal.audit (decks : Nat → Nat → F) (destplayer cardi : Nat) : Nat → F :=
  decodeDown d.players decks d.numcards d.N destplayer (d.N - 1)
    (Function.update (fun _ => 0) 0 (d.final decks (cardi * d.N + destplayer)))

def Deal.dealt (decks : Nat → Nat → F) (destplayer cardi : Nat) : F :=
  cards777Cardpriv C (d.playerprivs destplayer) (d.audit decks destplayer cardi 0) ((d.keys C).map C.pubkey)

/-- Whether each card dealt to a player is a card of the deck with an audit that validates. -/
def Deal.Valid (decks : Nat → Nat → F) (destplayer : Nat) : Prop :=
  ∀ cardi < d.numcards, d.dealt C decks destplayer cardi ∈ d.keys C ∧
    0 ≤ cards777Validate C (d.dealt C decks destplayer cardi) (d.final decks (cardi * d.N + destplayer))
      (d.audit decks destplayer cardi) d.N (d.playerpub C destplayer)

/-- The deck and the players fit the arrays, the host has drawn a whole deck, blindings and shared keys are not zero, and
no cipher for the player fits the public key of another card. -/
structure Deal.Sound (destplayer : Nat) : Prop where
  room : d.numcards ≤ CARDS777_MAXCARDS
  seats : d.N ≤ CARDS777_MAXPLAYERS
  complete : (d.keys C).length = d.numcards
  blinded : ∀ i, 0 < i → i < d.N → ∀ nonz < d.numcards * d.N, (d.players i).xoverz nonz ≠ 0
  shared : ∀ key ∈ d.keys C, C.curve25519Shared key (d.playerpub C destplayer) ≠ 0
  unmistaken : ∀ key ∈ d.keys C, ∀ key' ∈ d.keys C, key' ≠ key →
    C.pubkey (cards777Initcrypt C (cards777Initcrypt C key key (d.playerpub C destplayer) false) (d.playerprivs destplayer)
      (C.pubkey key') true) ≠ C.pubkey key'

variable {C} {d}

omit [DecidableEq F] in
/-- A player decrypts what the host encrypted for it. -/
theorem initcrypt_undo (hC : C.Commutes) {destplayer : Nat} {key : F}
    (hshared : C.curve25519Shared key (d.playerpub C destplayer) ≠ 0) :
    cards777Initcrypt C (cards777Initcrypt C key key (d.playerpub C destplayer) false) (d.playerprivs destplayer) (C.pubkey key) true =
      key := by
  have hboth : C.curve25519Shared (d.playerprivs destplayer) (C.pubkey key) = C.curve25519Shared key (d.playerpub C destplayer) :=
    hC _ _
  simp only [cards777Initcrypt, hboth, if_true, Bool.false_eq_true, if_false]
  exact mul_inv_cancel_right₀ hshared key

theorem cardpriv_key (hC : C.Commutes) {destplayer : Nat} (h : d.Sound C destplayer) {key : F} (hkey : key ∈ d.keys C) :
    cards777Cardpriv C (d.playerprivs destplayer) (cards777Initcrypt C key key (d.playerpub C destplayer) false)
      ((d.keys C).map C.pubkey) = key := by
  have hundo := initcrypt_undo hC (h.shared key hkey)
  apply cardpriv_eq
  · exact ⟨C.pubkey key, List.mem_map_of_mem hkey, by rw [hundo]⟩
  · intro pub hpub hfit
    obtain ⟨key', hkey', rfl⟩ := List.mem_map.mp hpub
    by_cases heq : key' = key
    · rw [heq, hundo]
    · exact absurd hfit (h.unmistaken key hkey key' hkey' heq)

/-- The place in the host's deck of the card that is dealt. -/
def Deal.place (d : Deal F) (decks : Nat → Nat → F) (destplayer cardi : Nat) : Nat :=
  originRow d.players decks d.numcards d.N destplayer (d.N - 1) cardi

theorem dealt_spec (hC : C.Commutes) {destplayer cardi : Nat} (hdest : destplayer < d.N) (h : d.Sound C destplayer)
    {decks : Nat → Nat → F} (hhost : decks 0 = cards777Initdeck C (d.keys C) d.N (d.playerpub C))
    (hencoded : Encoded d.players decks d.numcards d.N (d.N - 1)) (hcardi : cardi < d.numcards) :
    d.dealt C decks destplayer cardi = (d.keys C).getD (d.place decks destplayer cardi) 0 ∧
      cards777Validate C (d.dealt C decks destplayer cardi) (d.final decks (cardi * d.N + destplayer))
        (d.audit decks destplayer cardi) d.N (d.playerpub C destplayer) = (C.byte1 (d.dealt C decks destplayer cardi)).toNat := by
  obtain ⟨hcard, hval, -⟩ := decodeDown_spec hdest h.room hencoded (d.N - 1) le_rfl hcardi
    (fun j h0 hj => h.blinded j h0 (by omega)) (Function.update (fun _ => 0) 0 (d.final decks (cardi * d.N + destplayer))) (by
      rw [Function.update_self]
      rfl)
  have hplace : d.place decks destplayer cardi < (d.keys C).length := by
    rw [h.complete]
    exact originRow_mapsTo h.room _ hcardi
  have hkey : (d.keys C).getD (d.place decks destplayer cardi) 0 ∈ d.keys C := by
    rw [List.getD_eq_getElem _ _ hplace]
    exact List.getElem_mem hplace
  have haudit : d.audit decks destplayer cardi 0 =
      cards777Initcrypt C ((d.keys C).getD (d.place decks destplayer cardi) 0) ((d.keys C).getD (d.place decks destplayer cardi) 0)
        (d.playerpub C destplayer) false := by
    rw [Deal.audit, hcard, hhost, cards777Initdeck, row_div hdest, row_mod hdest]
    rfl
  have hdealt : d.dealt C decks destplayer cardi = (d.keys C).getD (d.place decks destplayer cardi) 0 := by
    rw [Deal.dealt, haudit]
    exact cardpriv_key hC h hkey
  refine ⟨hdealt, ?_⟩
  have hcheck : validateVal (d.audit decks destplayer cardi) (d.N - 1) (d.final decks (cardi * d.N + destplayer)) =
      d.audit decks destplayer cardi 0 := by
    rw [Function.update_self] at hval
    exact hval
  rw [cards777Validate, hcheck, if_neg (not_not.mpr rfl), if_neg]
  rw [haudit, hdealt]
  exact not_not.mpr rfl

omit [DecidableEq F] in
/-- Places that stay apart list a whole deck without repetition. -/
theorem map_getD_perm_iff {keys : List F} (hnodup : keys.Nodup) (place : Nat → Nat)
    (hplace : Set.MapsTo place (Set.Iio keys.length) (Set.Iio keys.length)) :
    ((List.range keys.length).map fun cardi => keys.getD (place cardi) 0).Perm keys ↔ Set.InjOn place (Set.Iio keys.length) := by
  constructor
  · intro hperm cardi hcardi cardi' hcardi' heq
    refine List.inj_on_of_nodup_map (hperm.nodup_iff.mpr hnodup) (List.mem_range.mpr hcardi) (List.mem_range.mpr hcardi') ?_
    rw [heq]
  · intro hinj
    have hrange : ((List.range keys.length).map place).Perm (List.range keys.length) := by
      have hbij := ((Set.finite_Iio keys.length).injOn_iff_bijOn_of_mapsTo hplace).mp hinj
      refine (List.perm_ext_iff_of_nodup ?_ List.nodup_range).mpr fun row => ?_
      · exact (List.nodup_map_iff_inj_on List.nodup_range).mpr fun cardi hcardi cardi' hcardi' =>
          hinj (List.mem_range.mp hcardi) (List.mem_range.mp hcardi')
      · rw [List.mem_map, List.mem_range]
        constructor
        · rintro ⟨cardi, hcardi, rfl⟩
          exact hplace (List.mem_range.mp hcardi)
        · intro hrow
          obtain ⟨cardi, hcardi, heq⟩ := hbij.surjOn hrow
          exact ⟨cardi, List.mem_range.mpr hcardi, heq⟩
    have hkeys : (List.range keys.length).map (fun row => keys.getD row 0) = keys := by
      apply List.ext_getElem
      · rw [List.length_map, List.length_range]
      · intro i _ hi
        rw [List.getElem_map, List.getElem_range, List.getD_eq_getElem _ _ hi]
    have hmap := hrange.map fun row => keys.getD row 0
    rw [List.map_map, hkeys] at hmap
    exact hmap

/-- Players that encode copies come to decks from which every card dealt is a card of the deck, with an audit that
validates; and over all cards they are the deck exactly when no player's deck has the same cipher for the player twice. -/
theorem deal_perm_iff (hC : C.Commutes) {destplayer : Nat} (hdest : destplayer < d.N) (h : d.Sound C destplayer) :
    (d.keys C).Nodup ∧ ∃ decks, d.decks C true = some decks ∧ d.Valid C decks destplayer ∧
      (((List.range d.numcards).map (d.dealt C decks destplayer)).Perm (d.keys C) ↔
        ∀ i, 0 < i → i < d.N → Set.InjOn (fun row => decks i (row * d.N + destplayer)) (Set.Iio d.numcards)) := by
  have hnodup : (d.keys C).Nodup := List.Nodup.of_map _ (deckKeys_nodup C d.numcards d.draws)
  obtain ⟨decks, hdecks, hhost, hencoded⟩ := outcards_encoded d.players (cards777Initdeck C (d.keys C) d.N (d.playerpub C))
    h.room h.seats (d.N - 1)
  have hmaps : Set.MapsTo (d.place decks destplayer) (Set.Iio d.numcards) (Set.Iio d.numcards) := originRow_mapsTo h.room _
  refine ⟨hnodup, decks, hdecks, fun cardi hcardi => ?_, ?_⟩
  · obtain ⟨hdealt, hvalid⟩ := dealt_spec hC hdest h hhost hencoded hcardi
    have hplace : d.place decks destplayer cardi < (d.keys C).length := by
      rw [h.complete]
      exact hmaps hcardi
    refine ⟨?_, ?_⟩
    · rw [hdealt, List.getD_eq_getElem _ _ hplace]
      exact List.getElem_mem hplace
    · rw [hvalid]
      exact Int.natCast_nonneg _
  · have hlist : (List.range d.numcards).map (d.dealt C decks destplayer) =
        (List.range d.numcards).map fun cardi => (d.keys C).getD (d.place decks destplayer cardi) 0 :=
      List.map_congr_left fun cardi hcardi => (dealt_spec hC hdest h hhost hencoded (List.mem_range.mp hcardi)).1
    have hperm := map_getD_perm_iff hnodup (d.place decks destplayer) (by rw [h.complete]; exact hmaps)
    rw [h.complete] at hperm
    rw [hlist, hperm]
    refine (originRow_injOn_iff h.room (d.N - 1)).trans
      ⟨fun hcol i h0 hi => hcol i h0 (by omega), fun hcol i h0 hi => hcol i h0 (by omega)⟩

end

/-- A group of eleven elements in place of the curve; the number of a card is the parity of its key. -/
def toyCurve : Curve (ZMod 11) where
  curve25519 a b := a * b
  curve25519Shared a b := a * b
  basepoint9 := 9
  byte1 key := UInt8.ofNat (key.val % 2)

instance factPrimeEleven : Fact (Nat.Prime 11) := ⟨by norm_num⟩

/-- Two cards; every player after the host swaps them. -/
def toyDeal (N : Nat) (draws : List (ZMod 11)) (playerpriv : ZMod 11) (xoverz : Nat → ZMod 11) : Deal (ZMod 11) where
  numcards := 2
  N := N
  draws := draws
  playerprivs _ := playerpriv
  players _ := ⟨fun _ => 1, fun _ => 0, xoverz⟩

/-- The cards dealt to player 0. -/
def toyDealt (copied : Bool) (d : Deal (ZMod 11)) : Option (List (ZMod 11)) :=
  (d.decks toyCurve copied).map fun decks => (List.range 2).map (d.dealt toyCurve decks 0)

theorem toyCurve_commutes : toyCurve.Commutes := fun a b => mul_left_comm a b 9

theorem toyDeal_sound {N : Nat} (hN : N ≤ CARDS777_MAXPLAYERS) {xoverz : Nat → ZMod 11} (hxoverz : ∀ nonz, xoverz nonz ≠ 0) :
    (toyDeal N [2, 3] 1 xoverz).Sound toyCurve 0 where
  room := (by decide : 2 ≤ CARDS777_MAXCARDS)
  seats := hN
  complete := (by decide +kernel : ((toyDeal 2 [2, 3] 1 fun _ => 1).keys toyCurve).length = 2)
  blinded _ _ _ nonz _ := hxoverz nonz
  shared := (by decide +kernel : ∀ key ∈ (toyDeal 2 [2, 3] 1 fun _ => 1).keys toyCurve, toyCurve.curve25519Shared key 9 ≠ 0)
  unmistaken := (by decide +kernel : ∀ key ∈ (toyDeal 2 [2, 3] 1 fun _ => 1).keys toyCurve,
    ∀ key' ∈ (toyDeal 2 [2, 3] 1 fun _ => 1).keys toyCurve, key' ≠ key →
      toyCurve.pubkey (cards777Initcrypt toyCurve (cards777Initcrypt toyCurve key key 9 false) 1 (toyCurve.pubkey key') true) ≠
        toyCurve.pubkey key')

/-- The blindings of the cards of a deck for three players. -/
def toyXoverz (nonz : Nat) : ZMod 11 := if nonz < 3 then 2 else 5

theorem toyXoverz_ne (nonz : Nat) : toyXoverz nonz ≠ 0 := by
  rw [toyXoverz]
  split <;> decide

theorem deal_perm_iff_toy : ∃ decks, (toyDeal 3 [2, 3] 1 toyXoverz).decks toyCurve true = some decks ∧
    (toyDeal 3 [2, 3] 1 toyXoverz).Valid toyCurve decks 0 ∧
    ((List.range 2).map ((toyDeal 3 [2, 3] 1 toyXoverz).dealt toyCurve decks 0)).Perm
      ((toyDeal 3 [2, 3] 1 toyXoverz).keys toyCurve) := by
  have hsound : (toyDeal 3 [2, 3] 1 toyXoverz).Sound toyCurve 0 := toyDeal_sound (by decide) toyXoverz_ne
  have hdest : 0 < (toyDeal 3 [2, 3] 1 toyXoverz).N := by decide
  obtain ⟨-, decks, hdecks, hvalid, hperm⟩ := deal_perm_iff toyCurve_commutes hdest hsound
  refine ⟨decks, hdecks, hvalid, hperm.mpr fun i _ hi row hrow row' hrow' heq => ?_⟩
  have hdistinct : ∀ decks ∈ (toyDeal 3 [2, 3] 1 toyXoverz).decks toyCurve true, ∀ i < 3, ∀ row < 2, ∀ row' < 2,
      decks i (row * 3 + 0) = decks i (row' * 3 + 0) → row = row' := by
    decide +kernel
  exact hdistinct decks hdecks i hi row hrow row' hrow' heq

/-- Blindings that make both ciphers equal deal one card twice. So do keys whose ciphers for the player are equal, a shared
key of zero deals no card, and players that encode the array of the one before them, not a copy, deal none either. A
deck of 53 cards or for ten players has no room in the arrays. -/
theorem deal_repeats_card :
    toyCurve.Commutes ∧
    ((toyDeal 2 [2, 3] 1 fun nonz => if nonz < 2 then 4 else 3).Sound toyCurve 0 ∧
      toyDealt true (toyDeal 2 [2, 3] 1 fun nonz => if nonz < 2 then 4 else 3) = some [3, 3]) ∧
    ((toyDeal 2 [2, 9] 1 fun _ => 1).keys toyCurve = [2, 9] ∧ toyDealt true (toyDeal 2 [2, 9] 1 fun _ => 1) = some [2, 2]) ∧
    toyDealt true (toyDeal 2 [2, 3] 0 fun _ => 1) = some [0, 0] ∧
    ((toyDeal 3 [2, 3] 1 toyXoverz).Sound toyCurve 0 ∧ toyDealt false (toyDeal 3 [2, 3] 1 toyXoverz) = some [0, 0]) ∧
    cards777Encode ⟨fun _ => 1, fun _ => 0, toyXoverz⟩ toyXoverz 53 2 = none ∧
    cards777Encode ⟨fun _ => 1, fun _ => 0, toyXoverz⟩ toyXoverz 2 10 = none := by
  have hroom : fillDesti 53 = none := fillDesti_none (by decide)
  refine ⟨toyCurve_commutes, ⟨toyDeal_sound (by decide) fun nonz => ?_, by decide +kernel⟩, by decide +kernel, by decide +kernel,
    ⟨toyDeal_sound (by decide) toyXoverz_ne, by decide +kernel⟩, ?_, if_pos (by decide)⟩
  · split <;> decide
  · rw [cards777Encode, if_neg (by decide), cards777Shuffle, start, hroom, Option.map_none, draws_none]
    rfl

end SuperNet.Games.Cards777
