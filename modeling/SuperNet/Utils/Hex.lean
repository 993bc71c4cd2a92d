import Mathlib.Tactic

/-! The hex conversions of utils777.c. A C string is the list of its characters
before the end mark. -/
namespace SuperNet.Utils.Hex

def hexbyte (c : Nat) : Char :=
  if c &&& 0xf < 10 then Char.ofNat ('0'.toNat + (c &&& 0xf)) else Char.ofNat ('a'.toNat + (c &&& 0xf) - 10)

/-- `_unhex`; `none` is its return value -1. -/
def unhex? (c : Char) : Option Nat :=
  if '0' ≤ c ∧ c ≤ '9' then some (c.toNat - '0'.toNat)
  else if 'a' ≤ c ∧ c ≤ 'f' then some (c.toNat - 'a'.toNat + 10)
  else none

def isHexstr (str : List Char) : Bool := !str.isEmpty && str.all fun c => (unhex? c).isSome

/-- `unhex` as far as a byte keeps it: -1 fills all its bits. -/
def unhexByte (c : Char) : UInt8 := match unhex? c with
  | some d => UInt8.ofNat d
  | none => 0xff

def decodeHexByte (hi lo : Char) : UInt8 := (unhexByte hi <<< 4) ||| unhexByte lo

/-- The character at index `i`, the end mark past the last one. -/
def charAt (hex : List Char) (i : Nat) : Char := hex.getD i '\x00'

def hexLoop : Nat → List Char → List UInt8
  | 0, _ => []
  | n+1, hex => decodeHexByte (charAt hex 0) (charAt hex 1) :: hexLoop n (hex.drop 2)

/-- The bytes that `decode_hex` writes. A string with one digit more than `2*n`
puts that digit in a byte of its own in front. -/
def decodeHex (n : Nat) (hex : List Char) : List UInt8 :=
  if !isHexstr hex then List.replicate n 0
  else if n = 0 ∨ (charAt hex (n*2+1) = '\x00' ∧ charAt hex (n*2) ≠ '\x00') then
    unhexByte (charAt hex 0) :: hexLoop n (hex.drop 1)
  else hexLoop n hex

def initHexbytesNoT : List UInt8 → List Char
  | [] => []
  | b :: message => hexbyte (b.toNat >>> 4) :: hexbyte b.toNat :: initHexbytesNoT message

/-- The format `%02x`. -/
def hex02 (n : Nat) : List Char := (Nat.toDigits 16 n).leftpad 2 '0'

/-- An even number of lower case hex digits. -/
structure HexPairs (s : List Char) : Prop where
  digits : ∀ c ∈ s, (unhex? c).isSome
  even : s.length % 2 = 0

theorem hex02_byte {n : Nat} (h : n < 256) : hex02 n = initHexbytesNoT [UInt8.ofNat n] := by
  have hall : ∀ n < 256, hex02 n = initHexbytesNoT [UInt8.ofNat n] := by decide +kernel
  exact hall n h

theorem initHexbytesNoT_length (bs : List UInt8) : (initHexbytesNoT bs).length = 2 * bs.length := by
  induction bs with
  | nil => rfl
  | cons b bs ih =>
    rw [initHexbytesNoT, List.length_cons, List.length_cons, ih, List.length_cons]
    omega

private theorem and_fifteen (n : Nat) : n &&& 0xf = n % 16 := Nat.and_two_pow_sub_one_eq_mod n 4

/-- A digit depends on the low four bits only. -/
theorem hexbyte_mod (n : Nat) : hexbyte (n % 16) = hexbyte n := by
  rw [hexbyte, hexbyte, and_fifteen, and_fifteen, Nat.mod_mod]

private theorem unhex_hexbyte (n : Nat) : unhex? (hexbyte n) = some (n % 16) := by
  have h : ∀ d < 16, unhex? (hexbyte d) = some d := by decide
  rw [← hexbyte_mod, h _ (Nat.mod_lt _ (by decide))]

private theorem hexbyte_unhex {c : Char} {d : Nat} (h : unhex? c = some d) : d < 16 ∧ hexbyte d = c := by
  have hval : ∀ x y : Char, x ≤ y ↔ x.toNat ≤ y.toNat := fun x y => UInt32.le_iff_toNat_le
  rw [unhex?] at h
  split at h
  · rename_i hc
    rw [hval, hval] at hc
    obtain ⟨h0, h9⟩ := hc
    change 48 ≤ c.toNat at h0
    change c.toNat ≤ 57 at h9
    obtain rfl := Option.some.inj h
    change c.toNat - 48 < 16 ∧ hexbyte (c.toNat - 48) = c
    have hd : (c.toNat - 48) &&& 0xf = c.toNat - 48 := by
      rw [and_fifteen]
      omega
    refine ⟨by omega, ?_⟩
    rw [hexbyte, hd, if_pos (by omega), show '0'.toNat + (c.toNat - 48) = c.toNat from
      Nat.add_sub_cancel' h0, Char.ofNat_toNat]
  · split at h
    · rename_i hc
      rw [hval, hval] at hc
      obtain ⟨h0, h9⟩ := hc
      change 97 ≤ c.toNat at h0
      change c.toNat ≤ 102 at h9
      obtain rfl := Option.some.inj h
      change c.toNat - 97 + 10 < 16 ∧ hexbyte (c.toNat - 97 + 10) = c
      have hd : (c.toNat - 97 + 10) &&& 0xf = c.toNat - 97 + 10 := by
        rw [and_fifteen]
        omega
      refine ⟨by omega, ?_⟩
      have ha : 'a'.toNat = 97 := rfl
      rw [hexbyte, hd, if_neg (by omega), show 'a'.toNat + (c.toNat - 97 + 10) - 10 = c.toNat by omega,
        Char.ofNat_toNat]
    · exact absurd h (by simp)

private theorem decodeHexByte_digits {a b : Char} {x y : Nat} (ha : unhex? a = some x) (hb : unhex? b = some y) :
    decodeHexByte a b = UInt8.ofNat (16 * x + y) := by
  have hx := (hexbyte_unhex ha).1
  have hy := (hexbyte_unhex hb).1
  have h : ∀ x < 16, ∀ y < 16, (UInt8.ofNat x <<< 4) ||| UInt8.ofNat y = UInt8.ofNat (16 * x + y) := by decide
  rw [decodeHexByte, unhexByte, unhexByte, ha, hb]
  exact h x hx y hy

theorem decodeHexByte_hexbyte (b : UInt8) : decodeHexByte (hexbyte (b.toNat >>> 4)) (hexbyte b.toNat) = b := by
  have hlt := UInt8.toNat_lt b
  rw [decodeHexByte_digits (unhex_hexbyte _) (unhex_hexbyte _), Nat.shiftRight_eq_div_pow]
  have : 16 * (b.toNat / 2^4 % 16) + b.toNat % 16 = b.toNat := by omega
  rw [this, UInt8.ofNat_toNat]

theorem hexLoop_initHexbytesNoT (bs : List UInt8) : hexLoop bs.length (initHexbytesNoT bs) = bs := by
  induction bs with
  | nil => rfl
  | cons b bs ih =>
    change decodeHexByte (hexbyte (b.toNat >>> 4)) (hexbyte b.toNat) :: hexLoop bs.length (initHexbytesNoT bs) = _
    rw [ih, decodeHexByte_hexbyte]

theorem initHexbytesNoT_hexLoop {n : Nat} {s : List Char} (hs : ∀ c ∈ s, (unhex? c).isSome) (hn : s.length = 2 * n) :
    initHexbytesNoT (hexLoop n s) = s := by
  induction n generalizing s with
  | zero => rw [List.length_eq_zero_iff.mp hn]; rfl
  | succ n ih =>
    match s, hn with
    | a :: b :: s, hn =>
      obtain ⟨x, hx⟩ := Option.isSome_iff_exists.mp (hs a (by simp))
      obtain ⟨y, hy⟩ := Option.isSome_iff_exists.mp (hs b (by simp))
      obtain ⟨hx16, hxa⟩ := hexbyte_unhex hx
      obtain ⟨hy16, hyb⟩ := hexbyte_unhex hy
      have hrest := ih (s := s) (fun c hc => hs c (by simp [hc])) (by simp at hn; omega)
      have hval : (UInt8.ofNat (16 * x + y)).toNat = 16 * x + y := by
        rw [UInt8.toNat_ofNat', Nat.mod_eq_of_lt (by omega)]
      change initHexbytesNoT (decodeHexByte a b :: hexLoop n s) = _
      rw [initHexbytesNoT, hrest, decodeHexByte_digits hx hy, hval]
      have hhi : hexbyte ((16 * x + y) >>> 4) = hexbyte x := by
        rw [Nat.shiftRight_eq_div_pow]
        congr 1
        omega
      have hlo : hexbyte (16 * x + y) = hexbyte y := by
        rw [← hexbyte_mod, ← hexbyte_mod y, Nat.mul_add_mod]
      rw [hhi, hlo, hxa, hyb]

theorem isHexstr_initHexbytesNoT {bs : List UInt8} (h : bs ≠ []) : isHexstr (initHexbytesNoT bs) = true := by
  have hall : ∀ bs : List UInt8, (initHexbytesNoT bs).all (fun c => (unhex? c).isSome) = true := by
    intro bs
    induction bs with
    | nil => rfl
    | cons b bs ih => simp [initHexbytesNoT, unhex_hexbyte, ih]
  obtain ⟨b, rest, rfl⟩ := List.exists_cons_of_ne_nil h
  rw [isHexstr, hall]
  rfl

private theorem charAt_end (s : List Char) : charAt s s.length = '\x00' := by
  simp [charAt]

theorem decodeHex_even {n : Nat} {s : List Char} (hs : isHexstr s = true) (hn : s.length = 2 * n) :
    decodeHex n s = hexLoop n s := by
  have hpos : n ≠ 0 := by
    rintro rfl
    rw [List.length_eq_zero_iff.mp hn] at hs
    exact absurd hs (by decide)
  have hend := charAt_end s
  rw [decodeHex, hs, if_neg (by simp), if_neg]
  rintro (h | ⟨-, h⟩)
  · exact hpos h
  · rw [Nat.mul_comm n 2, ← hn] at h
    exact h hend

theorem HexPairs.isHexstr {s : List Char} (h : HexPairs s) (hne : s ≠ []) : isHexstr s = true := by
  rw [Hex.isHexstr, List.all_eq_true.mpr h.digits]
  cases s with
  | nil => exact absurd rfl hne
  | cons c s => rfl

theorem hexLoop_length (n : Nat) (s : List Char) : (hexLoop n s).length = n := by
  induction n generalizing s with
  | zero => rfl
  | succ n ih => rw [hexLoop, List.length_cons, ih]

theorem initHexbytesNoT_append (a b : List UInt8) :
    initHexbytesNoT (a ++ b) = initHexbytesNoT a ++ initHexbytesNoT b := by
  induction a with
  | nil => rfl
  | cons x a ih => rw [List.cons_append, initHexbytesNoT, ih, initHexbytesNoT, List.cons_append, List.cons_append]

theorem initHexbytesNoT_take (n : Nat) (bs : List UInt8) :
    (initHexbytesNoT bs).take (2 * n) = initHexbytesNoT (bs.take n) := by
  induction n generalizing bs with
  | zero => rfl
  | succ n ih =>
    cases bs with
    | nil => rfl
    | cons b bs => rw [List.take_succ_cons, initHexbytesNoT, Nat.mul_succ, List.take_succ_cons, List.take_succ_cons, ih,
        initHexbytesNoT]

theorem initHexbytesNoT_drop (n : Nat) (bs : List UInt8) :
    (initHexbytesNoT bs).drop (2 * n) = initHexbytesNoT (bs.drop n) := by
  induction n generalizing bs with
  | zero => rfl
  | succ n ih =>
    cases bs with
    | nil => rfl
    | cons b bs => rw [List.drop_succ_cons, initHexbytesNoT, Nat.mul_succ, List.drop_succ_cons, List.drop_succ_cons, ih]

private theorem hexLoop_append (bs : List UInt8) (rest : List Char) :
    hexLoop bs.length (initHexbytesNoT bs ++ rest) = bs := by
  induction bs with
  | nil => rfl
  | cons b bs ih =>
    change decodeHexByte (hexbyte (b.toNat >>> 4)) (hexbyte b.toNat) ::
      hexLoop bs.length (initHexbytesNoT bs ++ rest) = _
    rw [ih, decodeHexByte_hexbyte]

/-- Of more bytes than it is asked for, `decode_hex` takes the first ones. -/
theorem decodeHex_prefix {bs rest : List UInt8} (hbs : bs ≠ []) (hrest : rest ≠ []) :
    decodeHex bs.length (initHexbytesNoT (bs ++ rest)) = bs := by
  have hdigit : charAt (initHexbytesNoT (bs ++ rest)) (bs.length * 2 + 1) ≠ '\x00' := by
    obtain ⟨r, rs, rfl⟩ := List.exists_cons_of_ne_nil hrest
    have hnz : ∀ d < 16, hexbyte d ≠ '\x00' := by decide
    rw [charAt, initHexbytesNoT_append, List.getD_eq_getElem?_getD,
      List.getElem?_append_right (by rw [initHexbytesNoT_length]; omega), initHexbytesNoT_length,
      show bs.length * 2 + 1 - 2 * bs.length = 1 by omega, initHexbytesNoT]
    change hexbyte r.toNat ≠ _
    rw [← hexbyte_mod]
    exact hnz _ (Nat.mod_lt _ (by decide))
  have hhex : isHexstr (initHexbytesNoT (bs ++ rest)) = true :=
    isHexstr_initHexbytesNoT (List.append_ne_nil_of_left_ne_nil hbs rest)
  rw [decodeHex, hhex, if_neg (by simp), if_neg, initHexbytesNoT_append, hexLoop_append]
  rintro (h | ⟨h, -⟩)
  · exact hbs (List.length_eq_zero_iff.mp h)
  · exact hdigit h

end SuperNet.Utils.Hex
