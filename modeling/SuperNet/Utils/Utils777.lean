import SuperNet.Utils.Hex
import SuperNet.Lib.Bytes
import SuperNet.Lib.Words

/-! The hex, base32 and integer conversions of utils777.c with their `int32_t` arithmetic. `none` stands for undefined
behaviour: an operation that overflows, an access outside of an array. -/
namespace SuperNet.Utils.Utils777
open Lib.Bytes Lib.Words Hex

/-- The result of an `int32_t` operation on numbers that are not negative. -/
def int32 (z : Nat) : Option Nat := if z < 2^31 then some z else none

theorem int32_some {z : Nat} (h : z < 2^31) : int32 z = some z := if_pos h

theorem int32_eq_some {z y : Nat} (h : int32 z = some y) : y = z ∧ z < 2^31 := by
  rw [int32] at h
  split at h
  case isTrue hlt => exact ⟨(Option.some.inj h).symm, hlt⟩
  case isFalse => cases h

section HexText

/-- What a `char *` leads to: a string, its end mark, and whatever lies behind that. -/
structure Text where
  str : List Char
  behind : Nat → Char

def Text.char (t : Text) (i : Nat) : Char := if i ≤ t.str.length then charAt t.str i else t.behind i

/-- The loop of `is_hexstr`. -/
def isHexLoop : Nat → List Char → Option Bool
  | _, [] => some true
  | i, c :: str => if (unhex? c).isNone then some false else (int32 (i + 1)).bind fun i => isHexLoop i str

def isHexstr32 (str : List Char) : Option Bool := if str = [] then some false else isHexLoop 0 str

/-- The loop of `decode_hex` over the characters from `hex` on, with `n` bytes to go. -/
def decodeLoop (t : Text) (hex : Nat) : Nat → Nat → Option (List UInt8)
  | 0, _ => some []
  | n + 1, i => (int32 (i * 2)).bind fun j =>
    (decodeLoop t hex n (i + 1)).map (decodeHexByte (t.char (hex + j)) (t.char (hex + j + 1)) :: ·)

/-- `decode_hex`: the bytes that it writes and what it returns. -/
def decodeHex32 (n : Nat) (t : Text) : Option (List UInt8 × Nat) :=
  (isHexstr32 t.str).bind fun hex =>
    if hex = false then some (List.replicate n 0, n)
    else (int32 (n * 2)).bind fun last => (int32 (last + 1)).bind fun next =>
      if n = 0 ∨ (t.char next = '\x00' ∧ t.char last ≠ '\x00') then
        (decodeLoop t 1 n 0).bind fun bytes => (int32 (n + 1)).map fun total => (unhexByte (t.char 0) :: bytes, total)
      else (decodeLoop t 0 n 0).map fun bytes => (bytes, n)

def initLoop : Nat → List UInt8 → Option (List Char)
  | _, [] => some []
  | i, b :: message => (int32 (i * 2 + 1)).bind fun _ =>
    (initLoop (i + 1) message).map (hexbyte (b.toNat >>> 4) :: hexbyte b.toNat :: ·)

/-- `init_hexbytes_noT`: the string that it writes and what it returns. -/
def initHexbytes32 (message : List UInt8) : Option (List Char × Nat) :=
  if message = [] then some ([], 1)
  else (initLoop 0 message).bind fun hexbytes => (int32 (message.length * 2 + 1)).map fun total => (hexbytes, total)

/-- The bytes are read back from their text, and their number is returned. -/
def BytesComeBack (x : List UInt8) : Prop :=
  ∃ text total, initHexbytes32 x = some (text, total) ∧
    ∀ behind : Nat → Char, decodeHex32 x.length ⟨text, behind⟩ = some (x, x.length)

/-- The text is written again for the bytes that are read from it. -/
def TextComesBack (s : List Char) : Prop :=
  ∀ behind : Nat → Char, ∃ bytes n total, decodeHex32 (s.length / 2) ⟨s, behind⟩ = some (bytes, n) ∧
    initHexbytes32 bytes = some (s, total)

section Loops
variable {s : List Char} {behind : Nat → Char}

private theorem isHexLoop_eq {i : Nat} (h : i + s.length < 2^31) :
    isHexLoop i s = some (s.all fun c => (unhex? c).isSome) := by
  induction s generalizing i with
  | nil => rfl
  | cons c s ih =>
    rw [List.length_cons] at h
    rw [isHexLoop, List.all_cons]
    cases hc : unhex? c with
    | none => rfl
    | some d =>
      have hi : i + 1 < 2^31 := by omega
      rw [if_neg (by simp), int32_some hi]
      exact ih (by omega)

theorem isHexstr32_eq (h : s.length < 2^31) : isHexstr32 s = some (isHexstr s) := by
  rw [isHexstr32, isHexstr]
  cases s with
  | nil => rfl
  | cons c s =>
    rw [if_neg (List.cons_ne_nil c s), isHexLoop_eq (by omega)]
    rfl

theorem isHexLoop_ne_false {i : Nat} (hs : ∀ c ∈ s, (unhex? c).isSome) : isHexLoop i s ≠ some false := by
  induction s generalizing i with
  | nil =>
    intro h
    cases h
  | cons c s ih =>
    rw [isHexLoop, if_neg (by rw [Option.isNone_iff_eq_none]; exact Option.isSome_iff_ne_none.mp (hs c List.mem_cons_self))]
    cases hi : int32 (i + 1) with
    | none => exact fun h => nomatch h
    | some j => exact ih fun d hd => hs d (List.mem_cons_of_mem c hd)

private theorem charAt_drop (s : List Char) (a i : Nat) : charAt (s.drop a) i = charAt s (a + i) := by
  rw [charAt, charAt, List.getD_eq_getElem?_getD, List.getD_eq_getElem?_getD, List.getElem?_drop]

/-- Within the string the loop reads what follows in it. -/
theorem decodeLoop_eq {hex n i : Nat} (h : hex + 2 * (i + n) ≤ s.length) (hi : (i + n) * 2 < 2^31) :
    decodeLoop ⟨s, behind⟩ hex n i = some (hexLoop n (s.drop (hex + i * 2))) := by
  induction n generalizing i with
  | zero => rfl
  | succ n ih =>
    have hfirst : (⟨s, behind⟩ : Text).char (hex + i * 2) = charAt s (hex + i * 2) := if_pos (by simp only; omega)
    have hsecond : (⟨s, behind⟩ : Text).char (hex + i * 2 + 1) = charAt s (hex + i * 2 + 1) := if_pos (by simp only; omega)
    have hnext : hex + i * 2 + 2 = hex + (i + 1) * 2 := by omega
    rw [decodeLoop, int32_some (by omega), Option.bind_some, ih (by omega) (by omega), hfirst, hsecond, hexLoop, charAt_drop,
      charAt_drop, List.drop_drop, hnext]
    rfl

theorem initLoop_eq {message : List UInt8} {i : Nat} (h : (i + message.length) * 2 < 2^31) :
    initLoop i message = some (initHexbytesNoT message) := by
  induction message generalizing i with
  | nil => rfl
  | cons b message ih =>
    rw [List.length_cons] at h
    rw [initLoop, int32_some (by omega), Option.bind_some, ih (by omega)]
    rfl

end Loops

private theorem charAt_behind {s : List Char} {i : Nat} (h : s.length ≤ i) : charAt s i = '\x00' := by
  rw [charAt, List.getD_eq_getElem?_getD, List.getElem?_eq_none h, Option.getD_none]

private theorem lt_of_charAt {s : List Char} {i : Nat} (h : charAt s i ≠ '\x00') : i < s.length := by
  by_contra hlt
  exact h (charAt_behind (Nat.le_of_not_lt hlt))

/-- As long as its indices do not overflow, `decode_hex` writes what it would write without a bound on them, whatever
is behind the text. -/
theorem decodeHex32_eq {n : Nat} {s : List Char} (behind : Nat → Char) (hn : n * 2 + 1 < 2^31) (hs : s.length < 2^31)
    (hlen : n * 2 ≤ s.length) : decodeHex32 n ⟨s, behind⟩ = some (decodeHex n s, (decodeHex n s).length) := by
  have hlast : (⟨s, behind⟩ : Text).char (n * 2) = charAt s (n * 2) := if_pos hlen
  have hguess : ((⟨s, behind⟩ : Text).char (n * 2 + 1) = '\x00' ∧ charAt s (n * 2) ≠ '\x00') ↔
      (charAt s (n * 2 + 1) = '\x00' ∧ charAt s (n * 2) ≠ '\x00') := by
    apply and_congr_left
    intro hne
    have hnext : (⟨s, behind⟩ : Text).char (n * 2 + 1) = charAt s (n * 2 + 1) := if_pos (lt_of_charAt hne)
    rw [hnext]
  rw [decodeHex32, isHexstr32_eq hs, Option.bind_some, decodeHex]
  cases hhex : isHexstr s with
  | false => rw [if_pos rfl, if_pos (by rfl), List.length_replicate]
  | true =>
    rw [if_neg (by simp), if_neg (by simp), int32_some (by omega), Option.bind_some, int32_some hn, Option.bind_some]
    simp only [hlast, hguess]
    split
    case isTrue hodd =>
      have hroom : 1 + 2 * (0 + n) ≤ s.length := by
        obtain rfl | ⟨-, hne⟩ := hodd
        · have hpos : s ≠ [] := fun hnil => by rw [hnil] at hhex; exact absurd hhex (by decide)
          have := List.length_pos_of_ne_nil hpos
          omega
        · have := lt_of_charAt hne
          omega
      have hfirst : (⟨s, behind⟩ : Text).char 0 = charAt s 0 := if_pos (Nat.zero_le _)
      rw [decodeLoop_eq hroom (by omega), Option.bind_some, int32_some (by omega), hfirst, List.length_cons, hexLoop_length]
      rfl
    case isFalse =>
      rw [decodeLoop_eq (by omega) (by omega), hexLoop_length]
      rfl

theorem initHexbytes32_eq {x : List UInt8} (hx : x ≠ []) (h : x.length * 2 + 1 < 2^31) :
    initHexbytes32 x = some (initHexbytesNoT x, x.length * 2 + 1) := by
  rw [initHexbytes32, if_neg hx, initLoop_eq (by omega), Option.bind_some, int32_some h]
  rfl

theorem bytesComeBack_iff {x : List UInt8} (hx : x ≠ []) : BytesComeBack x ↔ x.length < 2^30 := by
  constructor
  · rintro ⟨text, total, hinit, -⟩
    rw [initHexbytes32, if_neg hx] at hinit
    obtain ⟨hexbytes, -, hmap⟩ := Option.bind_eq_some_iff.mp hinit
    obtain ⟨y, hy, -⟩ := Option.map_eq_some_iff.mp hmap
    have := (int32_eq_some hy).2
    omega
  · intro h
    have hlen := initHexbytesNoT_length x
    refine ⟨_, _, initHexbytes32_eq hx (by omega), fun behind => ?_⟩
    rw [decodeHex32_eq behind (by omega) (by omega) (by omega), decodeHex_even (isHexstr_initHexbytesNoT hx) hlen,
      hexLoop_initHexbytesNoT]

theorem textComesBack_iff {s : List Char} (hne : s ≠ []) (hs : HexPairs s) : TextComesBack s ↔ s.length < 2^31 := by
  have heven := hs.even
  have hpos := List.length_pos_of_ne_nil hne
  constructor
  · intro h
    obtain ⟨bytes, n, total, hdecode, -⟩ := h fun _ => '\x00'
    rw [decodeHex32, isHexstr32, if_neg hne] at hdecode
    obtain ⟨hex, hhex, hdecode⟩ := Option.bind_eq_some_iff.mp hdecode
    cases hex with
    | false => exact absurd hhex (isHexLoop_ne_false hs.digits)
    | true =>
      rw [if_neg (by simp)] at hdecode
      obtain ⟨last, hlast, -⟩ := Option.bind_eq_some_iff.mp hdecode
      have := (int32_eq_some hlast).2
      omega
  · intro h behind
    have hbytes : (hexLoop (s.length / 2) s).length = s.length / 2 := hexLoop_length _ s
    have hbytes' : hexLoop (s.length / 2) s ≠ [] := List.ne_nil_of_length_pos (by omega)
    refine ⟨hexLoop (s.length / 2) s, s.length / 2, (s.length / 2) * 2 + 1, ?_, ?_⟩
    · rw [decodeHex32_eq behind (by omega) h (by omega), decodeHex_even (hs.isHexstr hne) (by omega), hbytes]
    · rw [initHexbytes32_eq hbytes' (by omega), initHexbytesNoT_hexLoop hs.digits (by omega), hbytes]

/-- Hex text inverts in both directions, as long as `int32_t` counts its characters. -/
theorem hex_inverts_iff {x : List UInt8} {s : List Char} (hx : x ≠ []) (hne : s ≠ []) (hs : HexPairs s) :
    (BytesComeBack x ↔ x.length < 2^30) ∧ (TextComesBack s ↔ s.length < 2^31) :=
  ⟨bytesComeBack_iff hx, textComesBack_iff hne hs⟩

theorem hex_inverts_iff_two : BytesComeBack [0xfe, 0x01] ∧ TextComesBack ['f', 'e', '0', '1'] := by
  have hpairs : HexPairs ['f', 'e', '0', '1'] := ⟨List.all_eq_true.mp (by decide), by decide⟩
  obtain ⟨hbytes, htext⟩ := hex_inverts_iff (x := [0xfe, 0x01]) (by decide) (by decide) hpairs
  exact ⟨hbytes.mpr (by decide), htext.mpr (by decide)⟩

/-- From 2^30 bytes on, the index of the last character overflows. -/
theorem not_comeBack_gigabyte : ¬ BytesComeBack (List.replicate (2^30) 0) ∧ ¬ TextComesBack (List.replicate (2^31) '0') := by
  constructor
  · rw [bytesComeBack_iff (List.ne_nil_of_length_pos (by rw [List.length_replicate]; decide)), List.length_replicate]
    exact Nat.lt_irrefl _
  · have hdigits : ∀ c ∈ List.replicate (2^31) '0', (unhex? c).isSome := by
      intro c hc
      rw [List.eq_of_mem_replicate hc]
      decide
    have hpairs : HexPairs (List.replicate (2^31) '0') := ⟨hdigits, by rw [List.length_replicate]; decide⟩
    rw [textComesBack_iff (List.ne_nil_of_length_pos (by rw [List.length_replicate]; decide)) hpairs, List.length_replicate]
    exact Nat.lt_irrefl _

end HexText

section Bits

/-- `GETBIT`, `SETBIT` and `CLEARBIT`. -/
def getBit (bits : List UInt8) (k : Nat) : Option Bool :=
  bits[k >>> 3]?.map fun b => decide (b &&& (1 <<< UInt8.ofNat (k &&& 7)) ≠ 0)
def setBit (bits : List UInt8) (k : Nat) : Option (List UInt8) :=
  bits[k >>> 3]?.map fun b => bits.set (k >>> 3) (b ||| (1 <<< UInt8.ofNat (k &&& 7)))
def clearBit (bits : List UInt8) (k : Nat) : Option (List UInt8) :=
  bits[k >>> 3]?.map fun b => bits.set (k >>> 3) (b &&& ~~~(1 <<< UInt8.ofNat (k &&& 7)))

variable {bits bits' : List UInt8} {k : Nat}

private theorem clear_mask : ∀ j < 8, ∀ k < 8,
    ~~~(1 <<< UInt8.ofNat j) &&& (1 <<< UInt8.ofNat k) = if k = j then 0 else (1 : UInt8) <<< UInt8.ofNat k := by decide

private theorem and_seven (k : Nat) : k &&& 7 = k % 8 := Nat.and_two_pow_sub_one_eq_mod k 3

private theorem shift_three (k : Nat) : k >>> 3 = k / 8 := Nat.shiftRight_eq_div_pow k 3

private theorem byte_lt (h : k < 8 * bits.length) : k >>> 3 < bits.length := by
  rw [shift_three]
  omega

theorem clearBit_isSome (h : k < 8 * bits.length) : ∃ bits', clearBit bits k = some bits' :=
  ⟨_, by rw [clearBit, List.getElem?_eq_getElem (byte_lt h), Option.map_some]⟩

theorem clearBit_length (h : clearBit bits k = some bits') : bits'.length = bits.length := by
  obtain ⟨b, -, rfl⟩ := Option.map_eq_some_iff.mp h
  exact List.length_set

/-- Only the bit that is cleared changes. -/
theorem getBit_clearBit (h : clearBit bits k = some bits') (i : Nat) :
    getBit bits' i = if i = k then some false else getBit bits i := by
  obtain ⟨b, hb, rfl⟩ := Option.map_eq_some_iff.mp h
  have hlt : k >>> 3 < bits.length := (List.getElem?_eq_some_iff.mp hb).1
  rw [getBit, getBit, List.getElem?_set]
  by_cases hbyte : k >>> 3 = i >>> 3
  · have hclear := clear_mask (k % 8) (Nat.mod_lt k (by decide)) (i % 8) (Nat.mod_lt i (by decide))
    rw [if_pos hbyte, if_pos hlt, Option.map_some, and_seven, and_seven, UInt8.and_assoc, hclear, ← hbyte, hb, Option.map_some]
    rw [shift_three, shift_three] at hbyte
    by_cases hik : i = k
    · rw [if_pos (by rw [hik]), if_pos hik, UInt8.and_zero]
      rfl
    · rw [if_neg (by omega), if_neg hik]
  · have hne : i ≠ k := fun heq => hbyte (by rw [heq])
    rw [if_neg hbyte, if_neg hne]

end Bits

section Base32

def base32byte (val : Int) : Int :=
  if val < 26 then 65 + val else if val < 32 then 50 + val - 26 else -1

/-- `unbase32`; a `char` from 128 on is negative, and `none` is the return value -1. -/
def unbase32 (c : UInt8) : Option Nat :=
  if 65 ≤ c.toNat ∧ c.toNat ≤ 90 then some (c.toNat - 65)
  else if 50 ≤ c.toNat ∧ c.toNat ≤ 55 then some (c.toNat - 50 + 26)
  else none

/-- The inner loop of `init_base32`, which sets the bits of `val5` by the offset in `token`; `n` rounds of it. -/
def gather (token : List UInt8) : Nat → Nat → List UInt8 → Option (List UInt8)
  | 0, _, val5 => some val5
  | n + 1, offset, val5 => do
    let b ← getBit token offset
    let val5 ← (if b then setBit val5 offset else some val5)
    let offset ← int32 (offset + 1)
    gather token n offset val5

/-- `init_base32`: the characters for `len` groups of `token`. -/
def initBase32 (token : List UInt8) : Nat → Nat → Option (List UInt8)
  | 0, _ => some []
  | len + 1, offset => do
    let val5 ← gather token 5 offset [0, 0, 0, 0]
    let tokenstr ← initBase32 token len (offset + 5)
    some (UInt8.ofNat (u8 (base32byte (signed 32 (leValue val5)))) :: tokenstr)

/-- The inner loop of `decode_base32`, `n` rounds of it. -/
def scatter (val5 : List UInt8) : Nat → Nat → Nat → List UInt8 → Option (List UInt8)
  | 0, _, _, token => some token
  | n + 1, j, offset, token => do
    let b ← getBit val5 j
    let token ← (if b then setBit token offset else clearBit token offset)
    let offset ← int32 (offset + 1)
    scatter val5 n (j + 1) offset token

/-- `while ( (offset & 7) != 0 )`, which takes at most seven rounds. -/
def padLoop : Nat → Nat → List UInt8 → Option (Int × List UInt8)
  | 0, offset, token => some (offset, token)
  | n + 1, offset, token =>
    if offset &&& 7 ≠ 0 then do
      let token ← clearBit token offset
      let offset ← int32 (offset + 1)
      padLoop n offset token
    else some (offset, token)

/-- `decode_base32` of the characters of `tokenstr`: what it returns, and `token` afterwards. -/
def decodeBase32 : List UInt8 → Nat → List UInt8 → Option (Int × List UInt8)
  | [], offset, token => padLoop 7 offset token
  | c :: tokenstr, offset, token =>
    match unbase32 c with
    | none => some (-1, token)
    -- the inner loop starts with `j=val5=0`, so that the value of the character is lost
    | some _ => do
      let token ← scatter [0, 0, 0, 0] 5 0 offset token
      decodeBase32 tokenstr (offset + 5) token

/-- A string of groups of five bits, in the bytes of `token`. -/
structure Groups where
  token : List UInt8
  len : Nat
  fits : 5 * len ≤ 8 * token.length

/-- A number of bits, padded to a byte. -/
def padded (offset : Nat) : Nat := (offset + 7) / 8 * 8

/-- The bits come back from the text that is written for them, padded with zeros to a byte, wherever there is room. -/
def Groups.ComesBack (g : Groups) : Prop :=
  ∃ tokenstr, initBase32 g.token g.len 0 = some tokenstr ∧ ∀ dest : List UInt8, 5 * g.len ≤ 8 * dest.length →
    ∃ dest', decodeBase32 tokenstr 0 dest = some (((padded (5 * g.len) : Nat) : Int), dest') ∧
      (∀ k < 5 * g.len, getBit dest' k = getBit g.token k) ∧
      ∀ k, 5 * g.len ≤ k → k < padded (5 * g.len) → getBit dest' k = some false

section Clears
variable {token token' : List UInt8}

/-- The bits from `first` up to `last` are cleared, and no other bit changes. -/
structure Clears (token : List UInt8) (first last : Nat) (token' : List UInt8) : Prop where
  length_eq : token'.length = token.length
  bits : ∀ i, getBit token' i = if first ≤ i ∧ i < last then some false else getBit token i

theorem Clears.refl (token : List UInt8) (first : Nat) : Clears token first first token :=
  ⟨rfl, fun i => by rw [if_neg (by omega)]⟩

theorem Clears.trans {token'' : List UInt8} {a b c : Nat} (hab : a ≤ b) (hbc : b ≤ c) (h : Clears token a b token')
    (h' : Clears token' b c token'') : Clears token a c token'' := by
  refine ⟨h'.length_eq.trans h.length_eq, fun i => ?_⟩
  rw [h'.bits, h.bits]
  by_cases hi : b ≤ i ∧ i < c
  · rw [if_pos hi, if_pos (by omega)]
  · rw [if_neg hi]
    by_cases hi' : a ≤ i ∧ i < b
    · rw [if_pos hi', if_pos (by omega)]
    · rw [if_neg hi', if_neg (by omega)]

theorem clears_of_clearBit {k : Nat} (h : clearBit token k = some token') : Clears token k (k + 1) token' := by
  refine ⟨clearBit_length h, fun i => ?_⟩
  rw [getBit_clearBit h]
  by_cases hi : i = k
  · rw [if_pos hi, if_pos (by omega)]
  · rw [if_neg hi, if_neg (by omega)]

/-- With no bit in `val5` the inner loop clears what it goes over. -/
theorem scatter_zero {n j offset : Nat} (hj : j + n ≤ 8) (hroom : offset + n ≤ 8 * token.length)
    (hlt : offset + n < 2^31) :
    ∃ token', scatter [0, 0, 0, 0] n j offset token = some token' ∧ Clears token offset (offset + n) token' := by
  induction n generalizing j offset token with
  | zero => exact ⟨token, rfl, Clears.refl token offset⟩
  | succ n ih =>
    have hzero : ∀ j < 8, getBit [0, 0, 0, 0] j = some false := by decide
    obtain ⟨token', hclear⟩ := clearBit_isSome (by omega : offset < 8 * token.length)
    have hone := clears_of_clearBit hclear
    have hroom' : offset + 1 + n ≤ 8 * token'.length := by
      rw [hone.length_eq]
      omega
    obtain ⟨token'', hrest, hclears⟩ := ih (by omega : j + 1 + n ≤ 8) hroom' (by omega)
    have hoffset : offset + 1 + n = offset + (n + 1) := by omega
    rw [hoffset] at hclears
    refine ⟨token'', ?_, hone.trans (by omega) (by omega) hclears⟩
    rw [scatter, hzero j (by omega), int32_some (by omega)]
    simp only [Option.bind_eq_bind, Option.bind_some, Bool.false_eq_true, if_false, hclear]
    exact hrest

theorem padded_le_iff {offset : Nat} : padded offset < 2^31 ↔ offset ≤ 2^31 - 8 := by
  rw [padded]
  omega

/-- The last loop clears the rest of the byte. -/
theorem padLoop_eq {n offset : Nat} (hn : padded offset ≤ offset + n) (hroom : offset ≤ 8 * token.length)
    (hlt : padded offset < 2^31) :
    ∃ token', padLoop n offset token = some (((padded offset : Nat) : Int), token') ∧ Clears token offset (padded offset) token' := by
  induction n generalizing offset token with
  | zero =>
    have heq : padded offset = offset := by
      rw [padded] at hn ⊢
      omega
    refine ⟨token, by rw [padLoop, heq], ?_⟩
    rw [heq]
    exact Clears.refl token offset
  | succ n ih =>
    rw [padLoop, and_seven]
    by_cases hend : offset % 8 = 0
    · have heq : padded offset = offset := by
        rw [padded]
        omega
      refine ⟨token, by rw [if_neg (not_not_intro hend), heq], ?_⟩
      rw [heq]
      exact Clears.refl token offset
    · have hnext : padded (offset + 1) = padded offset ∧ offset + 1 ≤ padded offset := by
        rw [padded, padded]
        omega
      obtain ⟨token', hclear⟩ := clearBit_isSome (by omega : offset < 8 * token.length)
      have hone := clears_of_clearBit hclear
      have hroom' : offset + 1 ≤ 8 * token'.length := by
        rw [hone.length_eq]
        omega
      obtain ⟨token'', hrest, hclears⟩ := ih (by omega) hroom' (by omega)
      rw [hnext.1] at hrest hclears
      refine ⟨token'', ?_, hone.trans (by omega) hnext.2 hclears⟩
      rw [if_pos hend, hclear, int32_some (by omega)]
      exact hrest

/-- Whatever the characters are, as long as they are in the alphabet, the bits are cleared. -/
theorem decodeBase32_eq {tokenstr : List UInt8} {offset : Nat} (hchars : ∀ c ∈ tokenstr, (unbase32 c).isSome)
    (hroom : offset + 5 * tokenstr.length ≤ 8 * token.length) (hlt : padded (offset + 5 * tokenstr.length) < 2^31) :
    ∃ token', decodeBase32 tokenstr offset token = some (((padded (offset + 5 * tokenstr.length) : Nat) : Int), token') ∧
      Clears token offset (padded (offset + 5 * tokenstr.length)) token' := by
  induction tokenstr generalizing offset token with
  | nil =>
    rw [List.length_nil, Nat.mul_zero, Nat.add_zero] at hroom hlt ⊢
    exact padLoop_eq (by rw [padded]; omega) hroom hlt
  | cons c tokenstr ih =>
    obtain ⟨val5, hval5⟩ := Option.isSome_iff_exists.mp (hchars c List.mem_cons_self)
    have hle : offset + 5 * (tokenstr.length + 1) ≤ padded (offset + 5 * (tokenstr.length + 1)) := by
      rw [padded]
      omega
    rw [List.length_cons] at hroom hlt ⊢
    have hroom' : offset + 5 ≤ 8 * token.length := by omega
    obtain ⟨token', hscatter, hfive⟩ := scatter_zero (by omega : 0 + 5 ≤ 8) hroom' (by omega)
    have hoffset : offset + 5 + 5 * tokenstr.length = offset + 5 * (tokenstr.length + 1) := by omega
    have hrest' : offset + 5 + 5 * tokenstr.length ≤ 8 * token'.length := by
      rw [hfive.length_eq]
      omega
    obtain ⟨token'', hrest, hclears⟩ := ih (fun d hd => hchars d (List.mem_cons_of_mem c hd)) hrest' (by rw [hoffset]; exact hlt)
    rw [hoffset] at hrest hclears
    refine ⟨token'', ?_, hfive.trans (by omega) (by omega) hclears⟩
    rw [decodeBase32, hval5, hscatter]
    exact hrest

end Clears

section Returns
variable {token token' : List UInt8}

private theorem scatter_lt {val5 : List UInt8} {n j offset : Nat} (ho : offset < 2^31)
    (h : scatter val5 n j offset token = some token') : offset + n < 2^31 := by
  induction n generalizing j offset token with
  | zero => exact ho
  | succ n ih =>
    rw [scatter] at h
    obtain ⟨b, -, h⟩ := Option.bind_eq_some_iff.mp h
    obtain ⟨token₁, -, h⟩ := Option.bind_eq_some_iff.mp h
    obtain ⟨offset', hoffset, h⟩ := Option.bind_eq_some_iff.mp h
    obtain ⟨rfl, hlt⟩ := int32_eq_some hoffset
    have := ih hlt h
    omega

private theorem padLoop_lt {n offset : Nat} {r : Int} (ho : offset < 2^31) (hn : padded offset ≤ offset + n)
    (h : padLoop n offset token = some (r, token')) : padded offset < 2^31 := by
  induction n generalizing offset token with
  | zero => exact Nat.lt_of_le_of_lt hn ho
  | succ n ih =>
    rw [padLoop, and_seven] at h
    by_cases hend : offset % 8 = 0
    · rw [padded]
      omega
    · rw [if_pos hend] at h
      obtain ⟨token₁, -, h⟩ := Option.bind_eq_some_iff.mp h
      obtain ⟨offset', hoffset, h⟩ := Option.bind_eq_some_iff.mp h
      obtain ⟨rfl, hlt⟩ := int32_eq_some hoffset
      have hnext : padded (offset + 1) = padded offset := by
        rw [padded, padded]
        omega
      have hpadded := ih hlt (by rw [hnext]; omega) h
      rw [hnext] at hpadded
      exact hpadded

/-- Where a number of bits is returned, all characters are in the alphabet and the number has not overflowed. -/
theorem decodeBase32_some {tokenstr : List UInt8} {offset r : Nat} (ho : offset < 2^31)
    (h : decodeBase32 tokenstr offset token = some ((r : Int), token')) :
    (∀ c ∈ tokenstr, (unbase32 c).isSome) ∧ padded (offset + 5 * tokenstr.length) < 2^31 := by
  induction tokenstr generalizing offset token with
  | nil => exact ⟨fun c hc => absurd hc List.not_mem_nil, padLoop_lt ho (by rw [padded]; omega) h⟩
  | cons c tokenstr ih =>
    rw [decodeBase32] at h
    cases hc : unbase32 c with
    | none =>
      rw [hc] at h
      have hr := congrArg Prod.fst (Option.some.inj h)
      simp only at hr
      omega
    | some val5 =>
      rw [hc] at h
      obtain ⟨token₁, hscatter, h⟩ := Option.bind_eq_some_iff.mp h
      obtain ⟨hchars, hlt⟩ := ih (scatter_lt ho hscatter) h
      have hoffset : offset + 5 + 5 * tokenstr.length = offset + 5 * (tokenstr.length + 1) := by omega
      rw [hoffset] at hlt
      refine ⟨fun d hd => ?_, hlt⟩
      obtain rfl | hd := List.mem_cons.mp hd
      · rw [hc]
        rfl
      · exact hchars d hd

private theorem initBase32_length {len offset : Nat} {tokenstr : List UInt8} (h : initBase32 token len offset = some tokenstr) :
    tokenstr.length = len := by
  induction len generalizing offset tokenstr with
  | zero =>
    cases h
    rfl
  | succ len ih =>
    obtain ⟨val5, -, h⟩ := Option.bind_eq_some_iff.mp h
    obtain ⟨rest, hrest, h⟩ := Option.bind_eq_some_iff.mp h
    cases h
    rw [List.length_cons, ih hrest]

private theorem gather_zero {n offset : Nat} {val5 : List UInt8} (hlt : offset + n < 2^31)
    (hbits : ∀ k, offset ≤ k → k < offset + n → getBit token k = some false) : gather token n offset val5 = some val5 := by
  induction n generalizing offset with
  | zero => rfl
  | succ n ih =>
    rw [gather, hbits offset (Nat.le_refl _) (by omega), int32_some (by omega)]
    exact ih (by omega) fun k hk hk' => hbits k (by omega) (by omega)

private theorem initBase32_zero {len offset : Nat} (hlt : offset + 5 * len < 2^31)
    (hbits : ∀ k, offset ≤ k → k < offset + 5 * len → getBit token k = some false) :
    initBase32 token len offset = some (List.replicate len 65) := by
  induction len generalizing offset with
  | zero => rfl
  | succ len ih =>
    have hfirst : UInt8.ofNat (u8 (base32byte (signed 32 (leValue [0, 0, 0, 0])))) = 65 := by decide
    rw [initBase32, gather_zero (by omega) fun k hk hk' => hbits k hk (by omega),
      ih (by omega) fun k hk hk' => hbits k (by omega) (by omega)]
    simp only [Option.bind_eq_bind, Option.bind_some, hfirst]
    rfl

end Returns

/-- Only zeros come back. -/
theorem Groups.comesBack_iff (g : Groups) :
    g.ComesBack ↔ (∀ k < 5 * g.len, getBit g.token k = some false) ∧ g.len ≤ 429496728 := by
  have hfits := g.fits
  constructor
  · rintro ⟨tokenstr, hinit, hall⟩
    obtain ⟨dest', hdecode, hbits, -⟩ := hall g.token g.fits
    have hlen := initBase32_length hinit
    obtain ⟨hchars, hlt⟩ := decodeBase32_some (by decide) hdecode
    rw [Nat.zero_add, hlen] at hlt
    have hroom : 0 + 5 * tokenstr.length ≤ 8 * g.token.length := by
      rw [hlen, Nat.zero_add]
      exact g.fits
    obtain ⟨token', hdecode', hclears⟩ := decodeBase32_eq hchars hroom (by rw [hlen, Nat.zero_add]; exact hlt)
    rw [hdecode] at hdecode'
    obtain rfl : dest' = token' := congrArg Prod.snd (Option.some.inj hdecode')
    refine ⟨fun k hk => ?_, ?_⟩
    · have hle : k < padded (0 + 5 * tokenstr.length) := by
        rw [hlen, padded]
        omega
      rw [← hbits k hk, hclears.bits, if_pos ⟨Nat.zero_le k, hle⟩]
    · have := padded_le_iff.mp hlt
      omega
  · rintro ⟨hzero, hlen⟩
    have hlt : padded (5 * g.len) < 2^31 := padded_le_iff.mpr (by omega)
    refine ⟨List.replicate g.len 65, initBase32_zero (by omega) fun k _ hk => hzero k (by omega), fun dest hroom => ?_⟩
    have hchars : ∀ c ∈ List.replicate g.len (65 : UInt8), (unbase32 c).isSome := by
      intro c hc
      rw [List.eq_of_mem_replicate hc]
      decide
    have hroom' : 0 + 5 * (List.replicate g.len (65 : UInt8)).length ≤ 8 * dest.length := by
      rw [List.length_replicate, Nat.zero_add]
      exact hroom
    obtain ⟨dest', hdecode, hclears⟩ := decodeBase32_eq hchars hroom' (by rw [List.length_replicate, Nat.zero_add]; exact hlt)
    rw [List.length_replicate, Nat.zero_add] at hdecode hclears
    refine ⟨dest', hdecode, fun k hk => ?_, fun k hk hk' => ?_⟩
    · have hle : k < padded (5 * g.len) := by
        rw [padded]
        omega
      rw [hclears.bits, if_pos ⟨Nat.zero_le k, hle⟩, hzero k hk]
    · rw [hclears.bits, if_pos ⟨Nat.zero_le k, hk'⟩]

end Base32

section Integers

/-- The loop of `_emit_uint`, from index `i` of `data` on, with `size` bytes to go. -/
def emitLoop : Nat → Nat → UInt64 → List UInt8 → Option (List UInt8)
  | 0, _, _, data => some data
  | size + 1, i, x, data => if i < data.length then emitLoop size (i + 1) (x >>> 8) (data.set i (x &&& 0xff).toUInt8) else none

def emitUint (data : List UInt8) (offset : Nat) (x : UInt64) (size : Nat) : Option (List UInt8 × Nat) :=
  (emitLoop size offset x data).map fun data => (data, offset + size)

/-- The loop of `_decode_uint` with `n` rounds to go, in which `offset + size - i` is `offset + n`. -/
def readDown (data : List UInt8) (offset : Nat) : Nat → UInt64 → Option UInt64
  | 0, x => some x
  | n + 1, x => data[offset + (n + 1)]?.bind fun b => readDown data offset n ((x <<< 8) ||| b.toUInt64)

/-- `_decode_uint`: what it stores, if it stores anything, and what it returns. -/
def decodeUint (size : Nat) (data : List UInt8) (offset : Nat) : Option (Option Nat × Int) :=
  if size = 1 then data[offset]?.map fun b => (some b.toNat, offset + 1)
  else (readDown data offset size 0).map fun x =>
    match size with
    | 2 => (some x.toUInt16.toNat, offset + 2)
    | 4 => (some x.toUInt32.toNat, offset + 4)
    | 8 => (some x.toNat, offset + 8)
    | _ => (none, -1)

/-- The value that is written at the offset is read there, and the offset behind it is returned. -/
def IntComesBack (data : List UInt8) (offset size v : Nat) : Prop :=
  ∃ data', emitUint data offset (UInt64.ofNat v) size = some (data', offset + size) ∧
    decodeUint size data' offset = some (some v, ((offset + size : Nat) : Int))

private theorem emitLoop_eq {a b c : List UInt8} {x : UInt64} :
    emitLoop b.length a.length x (a ++ b ++ c) = some (a ++ leBytes b.length x.toNat ++ c) := by
  induction b generalizing a x with
  | nil => rw [List.length_nil, emitLoop, leBytes]
  | cons d b ih =>
    have hset : (a ++ d :: b ++ c).set a.length (x &&& 0xff).toUInt8 = (a ++ [(x &&& 0xff).toUInt8]) ++ b ++ c := by
      rw [List.append_assoc, List.set_append_right _ _ (Nat.le_refl _), Nat.sub_self]
      simp
    have hlow : (x &&& 0xff).toUInt8 = UInt8.ofNat x.toNat := by
      apply UInt8.toNat_inj.mp
      rw [UInt64.toNat_toUInt8, UInt64.toNat_and, UInt8.toNat_ofNat']
      have hand : x.toNat &&& (0xff : UInt64).toNat = x.toNat % 2^8 := Nat.and_two_pow_sub_one_eq_mod x.toNat 8
      rw [hand, Nat.mod_mod]
    have hhigh : (x >>> 8).toNat = x.toNat / 256 := by
      rw [UInt64.toNat_shiftRight]
      exact Nat.shiftRight_eq_div_pow x.toNat 8
    have hrest := ih (a := a ++ [(x &&& 0xff).toUInt8]) (x := x >>> 8)
    rw [List.length_append, List.length_singleton] at hrest
    rw [List.length_cons, emitLoop, if_pos (by simp), hset, hrest, hhigh, leBytes, hlow]
    simp

/-- `_emit_uint` writes the bytes of the value, the lowest first. -/
theorem emitUint_eq {data : List UInt8} {offset size : Nat} (x : UInt64) (h : offset + size ≤ data.length) :
    emitUint data offset x size =
      some (data.take offset ++ leBytes size x.toNat ++ data.drop (offset + size), offset + size) := by
  have hsplit : data = data.take offset ++ (data.drop offset).take size ++ data.drop (offset + size) := by
    rw [List.append_assoc, ← List.drop_drop, List.take_append_drop, List.take_append_drop]
  have hfirst : (data.take offset).length = offset := List.length_take_of_le (by omega)
  have hfield : ((data.drop offset).take size).length = size := List.length_take_of_le (by rw [List.length_drop]; omega)
  have hloop := emitLoop_eq (a := data.take offset) (b := (data.drop offset).take size) (c := data.drop (offset + size)) (x := x)
  rw [hfirst, hfield, ← hsplit] at hloop
  rw [emitUint, hloop]
  rfl

/-- The reader starts one byte too high: with `w` at the offset, it reads the bytes behind `w`, from the last one on. -/
theorem readDown_eq {a b c : List UInt8} {w : UInt8} {x : UInt64} :
    readDown (a ++ w :: b ++ c) a.length b.length x =
      some (b.reverse.foldl (fun (r : UInt64) (d : UInt8) => r <<< 8 ||| d.toUInt64) x) := by
  induction b using List.reverseRecOn generalizing c x with
  | nil => rfl
  | append_singleton b d ih =>
    have hdata : a ++ w :: (b ++ [d]) ++ c = a ++ w :: b ++ d :: c := by simp
    have hread : (a ++ w :: b ++ d :: c)[a.length + (b.length + 1)]? = some d := by
      rw [List.getElem?_append_right (by simp)]
      simp
    rw [hdata, List.length_append, List.length_singleton, readDown, hread, Option.bind_some, ih, List.reverse_append]
    rfl

theorem readDown_none {data : List UInt8} {offset n : Nat} {x : UInt64} (hn : n ≠ 0) (h : data.length ≤ offset + n) :
    readDown data offset n x = none := by
  obtain ⟨m, rfl⟩ := Nat.exists_eq_succ_of_ne_zero hn
  rw [readDown, List.getElem?_eq_none h]
  rfl

/-- Of more than one byte, those that stand one behind the offset are read. -/
theorem decodeUint_behind {a b c : List UInt8} {w : UInt8} (hsize : b.length = 2 ∨ b.length = 4 ∨ b.length = 8) :
    decodeUint b.length (a ++ w :: b ++ c) a.length = some (some (leValue b), ((a.length + b.length : Nat) : Int)) := by
  have hlt : leValue b < 2^(8 * b.length) := by
    have := leValue_lt b
    rwa [show (256 : Nat) = 2^8 from rfl, ← Nat.pow_mul] at this
  have hword : leValue b < 2^64 := Nat.lt_of_lt_of_le hlt (Nat.pow_le_pow_right (by decide) (by omega))
  have hvalue := toNat_shiftBytes b
  rw [Nat.mod_eq_of_lt hword] at hvalue
  rw [decodeUint, if_neg (by omega), readDown_eq, Option.map_some]
  obtain hb | hb | hb := hsize <;> rw [hb] at hlt ⊢
  · simp only [UInt64.toNat_toUInt16, hvalue, Nat.mod_eq_of_lt hlt]
    rfl
  · simp only [UInt64.toNat_toUInt32, hvalue, Nat.mod_eq_of_lt hlt]
    rfl
  · simp only [hvalue]
    rfl

private theorem cons_eq_append_iff {w b : UInt8} {t : List UInt8} :
    w :: t = t ++ [b] ↔ w :: t = List.replicate (t.length + 1) b := by
  constructor
  · intro h
    induction t generalizing w with
    | nil => exact h
    | cons u t ih =>
      obtain ⟨rfl, htail⟩ := List.cons.inj h
      have hall := ih htail
      have hw : w = b := (List.cons.inj (hall.trans List.replicate_succ)).1
      rw [List.length_cons, List.replicate_succ, ← hall, hw]
  · intro h
    obtain ⟨rfl, htail⟩ := List.cons.inj (h.trans List.replicate_succ)
    rw [h, List.replicate_succ', ← htail]

theorem decodeUint_byte {a c : List UInt8} {v : Nat} (hv : v < 256) :
    decodeUint 1 (a ++ leBytes 1 v ++ c) a.length = some (some v, ((a.length + 1 : Nat) : Int)) := by
  have hread : (a ++ leBytes 1 v ++ c)[a.length]? = some (UInt8.ofNat v) := by
    rw [leBytes, leBytes, List.append_assoc, List.getElem?_append_right (Nat.le_refl _), Nat.sub_self]
    rfl
  rw [decodeUint, if_pos rfl, hread, Option.map_some, UInt8.toNat_ofNat', Nat.mod_eq_of_lt hv]
  rfl

private theorem intComesBack_iff_decodeUint {data : List UInt8} {offset size v : Nat} (hfits : offset + size ≤ data.length)
    (hv : v < 2^64) : IntComesBack data offset size v ↔
      decodeUint size (data.take offset ++ leBytes size v ++ data.drop (offset + size)) offset =
        some (some v, ((offset + size : Nat) : Int)) := by
  have hemit := emitUint_eq (UInt64.ofNat v) hfits
  rw [UInt64.toNat_ofNat', Nat.mod_eq_of_lt hv] at hemit
  rw [IntComesBack, hemit]
  simp

/-- A single byte comes back; of more, the value has to repeat the byte that stands behind the field. -/
theorem intComesBack_iff {data : List UInt8} {offset size v : Nat} (hsize : size ∈ [1, 2, 4, 8])
    (hfits : offset + size ≤ data.length) (hv : v < 2^(8 * size)) :
    IntComesBack data offset size v ↔
      size = 1 ∨ ∃ b, data[offset + size]? = some b ∧ leBytes size v = List.replicate size b := by
  have hsizes : size = 1 ∨ size = 2 ∨ size = 4 ∨ size = 8 := by simpa using hsize
  have hword : v < 2^64 := Nat.lt_of_lt_of_le hv (Nat.pow_le_pow_right (by decide) (by omega))
  have hoffset : (data.take offset).length = offset := List.length_take_of_le (by omega)
  rw [intComesBack_iff_decodeUint hfits hword]
  obtain hone | hwide := hsizes
  · subst hone
    have hdecode := decodeUint_byte (a := data.take offset) (c := data.drop (offset + 1)) hv
    rw [hoffset] at hdecode
    exact iff_of_true hdecode (Or.inl rfl)
  · have hbytes : leValue (leBytes size v) = v := by
      apply leValue_leBytes_of_lt
      rwa [show (256 : Nat) = 2^8 from rfl, ← Nat.pow_mul]
    have hne : size ≠ 1 := by omega
    rw [or_iff_right hne]
    obtain ⟨w, t, hwt⟩ := List.exists_cons_of_ne_nil (l := leBytes size v)
      (List.ne_nil_of_length_pos (by rw [leBytes_length]; omega))
    have htlen : t.length + 1 = size := by
      rw [← List.length_cons, ← hwt, leBytes_length]
    cases hbehind : data[offset + size]? with
    | none =>
      have hend : data.length ≤ offset + size := List.getElem?_eq_none_iff.mp hbehind
      have hread : readDown (data.take offset ++ leBytes size v ++ data.drop (offset + size)) offset size 0 = none := by
        apply readDown_none (by omega)
        rw [List.length_append, List.length_append, hoffset, leBytes_length, List.length_drop]
        omega
      rw [decodeUint, if_neg hne, hread]
      simp
    | some b =>
      obtain ⟨hlt, hb⟩ := List.getElem?_eq_some_iff.mp hbehind
      have hdrop : data.drop (offset + size) = b :: data.drop (offset + size + 1) := by
        rw [List.drop_eq_getElem_cons hlt, hb]
      have hdata : data.take offset ++ leBytes size v ++ data.drop (offset + size) =
          data.take offset ++ w :: (t ++ [b]) ++ data.drop (offset + size + 1) := by
        rw [hwt, hdrop]
        simp
      have htb : (t ++ [b]).length = size := by rw [List.length_append, List.length_singleton, htlen]
      have hdecode := decodeUint_behind (a := data.take offset) (b := t ++ [b]) (c := data.drop (offset + size + 1)) (w := w)
        (by omega)
      rw [hoffset, htb] at hdecode
      have hsame : leValue (t ++ [b]) = v ↔ w :: t = List.replicate size b := by
        rw [← hbytes, hwt, leValue_inj (by rw [htb, List.length_cons, htlen]), eq_comm, cons_eq_append_iff, htlen]
      rw [hdata, hdecode, hwt]
      simp only [Option.some.injEq, Prod.mk.injEq, and_true, exists_eq_left']
      exact hsame

end Integers

/-- Base32 text gives back zeros only, and integers come back only if it does not matter where they are read. -/
theorem base32_uint_invert_iff (g : Groups) {data : List UInt8} {offset size v : Nat} (hsize : size ∈ [1, 2, 4, 8])
    (hfits : offset + size ≤ data.length) (hv : v < 2^(8 * size)) :
    (g.ComesBack ↔ (∀ k < 5 * g.len, getBit g.token k = some false) ∧ g.len ≤ 429496728) ∧
    (IntComesBack data offset size v ↔
      size = 1 ∨ ∃ b, data[offset + size]? = some b ∧ leBytes size v = List.replicate size b) :=
  ⟨g.comesBack_iff, intComesBack_iff hsize hfits hv⟩

theorem base32_uint_invert_iff_zero : Groups.ComesBack ⟨[0, 0], 3, by decide⟩ ∧ IntComesBack [9, 8, 7, 1] 1 2 0x0101 := by
  have hfits : 1 + 2 ≤ [(9 : UInt8), 8, 7, 1].length := by decide
  obtain ⟨hgroups, hint⟩ := base32_uint_invert_iff ⟨[0, 0], 3, by decide⟩ (by decide) hfits (by decide : 0x0101 < 2^(8 * 2))
  exact ⟨hgroups.mpr (by decide), hint.mpr (Or.inr ⟨1, by decide, by decide⟩)⟩

/-- The character of the group 00001 is read as zeros, and of two bytes 01 00 the second one and what is behind them. -/
theorem not_comeBack_one : ¬ Groups.ComesBack ⟨[1], 1, by decide⟩ ∧ ¬ IntComesBack [0, 0, 0] 0 2 1 := by
  constructor
  · rw [Groups.comesBack_iff]
    rintro ⟨hzero, -⟩
    have hone : getBit [1] 0 = some true := by decide
    exact absurd (hone.symm.trans (hzero 0 (by decide))) (by decide)
  · rw [intComesBack_iff (by decide) (by decide) (by decide)]
    decide

end SuperNet.Utils.Utils777
