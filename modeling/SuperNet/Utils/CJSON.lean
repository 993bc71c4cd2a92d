import Mathlib.Data.UInt

/-! The printers and the parser of cJSON.c. A text is the bytes before its terminator. A parse is `none` when it fails,
and when it reads or writes behind the end of a text. -/
namespace SuperNet.Utils.CJSON

abbrev Text := List UInt8

/-- The byte of an ASCII character. -/
def byte (c : Char) : UInt8 := UInt8.ofNat c.toNat

def bytes (s : String) : Text := s.toList.map byte

/-- What a C string holds of some bytes. -/
def cstr (s : Text) : Text := s.takeWhile (· ≠ 0)

/-- What `parse_number` makes a double of: the digits, how many of them are behind the point, and the exponent. -/
structure Number where
  negative : Bool
  n : Nat
  scale : Nat
  exponent : Int
  deriving DecidableEq

/-- A number that a double counts exactly. -/
def Number.Whole (num : Number) : Prop := num.scale = 0 ∧ num.exponent = 0 ∧ num.n ≤ 2^53

instance (num : Number) : Decidable num.Whole := inferInstanceAs (Decidable (_ ∧ _))

mutual

/-- A `cJSON` by its type. -/
inductive Item where
  | null
  | false
  | true
  | number (num : Number)
  | string (valuestring : Text)
  | array (child : Items)
  | object (child : Fields)

/-- The chain of an array. -/
inductive Items where
  | nil
  | cons (item : Item) (next : Items)

/-- The chain of an object, each item with its `string`. -/
inductive Fields where
  | nil
  | cons (string : Text) (item : Item) (next : Fields)

end

deriving instance DecidableEq for Item, Items, Fields

section Print
variable (fmtDouble : Number → Text)

/-- `%lld` of `valueint` from 1 on and `%.0f` of `valuedouble` for the other whole numbers; `fmtDouble` is what is
written for the doubles that are none. -/
def printNumber (num : Number) : Text :=
  if num.Whole then
    if ¬ num.negative ∧ 1 ≤ num.n ∧ num.n < 2^62 then (Nat.toDigits 10 num.n).map byte
    else (if num.negative then [byte '-'] else []) ++ (Nat.toDigits 10 num.n).map byte
  else fmtDouble num

def hex4 (token : UInt8) : Text :=
  [byte '0', byte '0', byte (Nat.digitChar (token.toNat / 16)), byte (Nat.digitChar (token.toNat % 16))]

/-- What `print_string_ptr` writes for a byte. -/
def escaped (token : UInt8) : Text :=
  if token > 31 ∧ token ≠ byte '"' ∧ token ≠ byte '\\' then [token]
  else byte '\\' ::
    if token = byte '\\' then [byte '\\']
    else if token = byte '"' then [byte '"']
    else if token = 8 then [byte 'b']
    else if token = 12 then [byte 'f']
    else if token = 10 then [byte 'n']
    else if token = 13 then [byte 'r']
    else if token = 9 then [byte 't']
    else byte 'u' :: hex4 token

def printStringPtr (str : Text) : Text := byte '"' :: (cstr str).flatMap escaped ++ [byte '"']

/-- The characters that only the formatted text has. -/
def onlyFmt (fmt : Bool) (s : Text) : Text := if fmt then s else []

def tabs (depth : Nat) : Text := List.replicate depth (byte '\t')

mutual

def printValue (fmt : Bool) : Item → Nat → Text
  | .null, _ => bytes "null"
  | .false, _ => bytes "false"
  | .true, _ => bytes "true"
  | .number num, _ => printNumber fmtDouble num
  | .string valuestring, _ => printStringPtr valuestring
  | .array .nil, _ => bytes "[]"
  | .array (.cons item next), depth =>
    byte '[' :: printValue fmt item (depth + 1) ++ printItems fmt next (depth + 1) ++ [byte ']']
  | .object .nil, depth => byte '{' :: onlyFmt fmt (byte '\n' :: tabs (depth - 1)) ++ [byte '}']
  | .object (.cons string item next), depth =>
    byte '{' :: onlyFmt fmt (byte '\n' :: tabs (depth + 1)) ++ printStringPtr string ++ byte ':' :: onlyFmt fmt [byte '\t'] ++
      printValue fmt item (depth + 1) ++ printFields fmt next (depth + 1) ++ onlyFmt fmt (byte '\n' :: tabs depth) ++ [byte '}']

/-- The items of an array after the first, each behind its comma. -/
def printItems (fmt : Bool) : Items → Nat → Text
  | .nil, _ => []
  | .cons item next, depth =>
    byte ',' :: onlyFmt fmt [byte ' '] ++ printValue fmt item depth ++ printItems fmt next depth

/-- The entries of an object after the first, each behind its comma. -/
def printFields (fmt : Bool) : Fields → Nat → Text
  | .nil, _ => []
  | .cons string item next, depth =>
    byte ',' :: onlyFmt fmt (byte '\n' :: tabs depth) ++ printStringPtr string ++ byte ':' :: onlyFmt fmt [byte '\t'] ++
      printValue fmt item depth ++ printFields fmt next depth

end

/-- `cJSON_Print` and `cJSON_PrintUnformatted`. -/
def print (fmt : Bool) (item : Item) : Text := printValue fmtDouble fmt item 0

end Print

section Parse

def skip (s : Text) : Text := s.dropWhile (· ≤ 32)

def isDigit (c : UInt8) : Bool := byte '0' ≤ c ∧ c ≤ byte '9'

def startsWith (s : Text) (p : UInt8 → Bool) : Bool := s.head?.any p

/-- `n*10 + digit` for each digit. -/
def digitsValue (n : Nat) (digits : Text) : Nat := digits.foldl (fun n c => n * 10 + (c - byte '0').toNat) n

/-- A text without its first byte, if `p` holds of that. -/
def without (s : Text) (p : UInt8 → Bool) : Text := if startsWith s p then s.tail else s

/-- `parse_number`; an exponent from `2^31` on overflows. -/
def parseNumber (num : Text) : Option (Item × Text) :=
  let negative := startsWith num (· = byte '-')
  let num := without (without num (· = byte '-')) (· = byte '0')
  let digits := if startsWith num (fun c => byte '1' ≤ c ∧ c ≤ byte '9') then num.takeWhile isDigit else []
  let num := num.drop digits.length
  let fraction := if startsWith num (· = byte '.') then num.tail.takeWhile isDigit else []
  let num := if fraction = [] then num else num.tail.drop fraction.length
  let n := digitsValue 0 (digits ++ fraction)
  if startsWith num (fun c => c = byte 'e' ∨ c = byte 'E') then
    let minus := startsWith num.tail (· = byte '-')
    let num := without num.tail fun c => c = byte '+' ∨ c = byte '-'
    let subscale := digitsValue 0 (num.takeWhile isDigit)
    if 2^31 ≤ subscale then none
    else some (.number ⟨negative, n, fraction.length, if minus then -subscale else subscale⟩, num.dropWhile isDigit)
  else some (.number ⟨negative, n, fraction.length, 0⟩, num)

/-- The value of a hexadecimal digit. -/
def hexDigit (c : UInt8) : Option Nat :=
  if byte '0' ≤ c ∧ c ≤ byte '9' then some (c - byte '0').toNat
  else if byte 'A' ≤ c ∧ c ≤ byte 'F' then some (10 + (c - byte 'A').toNat)
  else if byte 'a' ≤ c ∧ c ≤ byte 'f' then some (10 + (c - byte 'a').toNat)
  else none

/-- `parse_hex4`, 0 when a character is no digit. -/
def parseHex4 (a b c d : UInt8) : Nat :=
  match hexDigit a, hexDigit b, hexDigit c, hexDigit d with
  | some a, some b, some c, some d => ((a * 16 + b) * 16 + c) * 16 + d
  | _, _, _, _ => 0

/-- `((uc | 0x80) & 0xBF)` as a byte. -/
def continuation (uc : Nat) : UInt8 := UInt8.ofNat ((uc ||| 0x80) &&& 0xBF)

/-- The bytes of a unicode character. -/
def utf8 (uc : Nat) : Text :=
  if uc < 0x80 then [UInt8.ofNat uc]
  else if uc < 0x800 then [UInt8.ofNat (uc >>> 6 ||| 0xC0), continuation uc]
  else if uc < 0x10000 then [UInt8.ofNat (uc >>> 12 ||| 0xE0), continuation (uc >>> 6), continuation uc]
  else [UInt8.ofNat (uc >>> 18 ||| 0xF0), continuation (uc >>> 12), continuation (uc >>> 6), continuation uc]

def unescape (c : UInt8) : UInt8 :=
  if c = byte 'b' then 8
  else if c = byte 'f' then 12
  else if c = byte 'n' then 10
  else if c = byte 'r' then 13
  else if c = byte 't' then 9
  else c

def prepend (s : Text) (r : Option (Text × Text)) : Option (Text × Text) := r.map fun (out, ptr) => (s ++ out, ptr)

/-- The second loop of `parse_string`; none when it would read behind the terminator. -/
def parseChars : Text → Option (Text × Text)
  | [] => some ([], [])
  | c :: ptr =>
    if c = byte '"' then some ([], ptr)
    else if c ≠ byte '\\' then prepend [c] (parseChars ptr)
    else match ptr with
      | [] => none
      | c :: ptr =>
        if c ≠ byte 'u' then prepend [unescape c] (parseChars ptr)
        else match ptr with
          | a :: b :: c :: d :: ptr =>
            let uc := parseHex4 a b c d
            if (0xDC00 ≤ uc ∧ uc ≤ 0xDFFF) ∨ uc = 0 then parseChars ptr
            else if 0xD800 ≤ uc ∧ uc ≤ 0xDBFF then
              match ptr with
              | s :: u :: ptr =>
                if s ≠ byte '\\' ∨ u ≠ byte 'u' then parseChars (s :: u :: ptr)
                else match ptr with
                  | a :: b :: c :: d :: ptr =>
                    let uc2 := parseHex4 a b c d
                    if uc2 < 0xDC00 ∨ uc2 > 0xDFFF then parseChars ptr
                    else prepend (utf8 (0x10000 + ((uc &&& 0x3FF) <<< 10 ||| uc2 &&& 0x3FF))) (parseChars ptr)
                  | _ => none
              | ptr => parseChars ptr
            else prepend (utf8 uc) (parseChars ptr)
          | _ => none

/-- The first loop of `parse_string`, which counts the room for the string. -/
def scanLen : Text → Option Nat
  | [] => some 0
  | c :: ptr =>
    if c = byte '"' then some 0
    else if c = byte '\\' then
      match ptr with
      | [] => none
      | _ :: ptr => (scanLen ptr).map (· + 1)
    else (scanLen ptr).map (· + 1)

/-- The string must fit in the room: in `\u12` before a quote the second loop goes behind the quote. -/
def parseString (str : Text) : Option (Text × Text) :=
  match str with
  | c :: ptr =>
    if c = byte '"' then do
      let len ← scanLen ptr
      let (out, ptr) ← parseChars ptr
      if out.length ≤ len then some (out, ptr) else none
    else none
  | [] => none

mutual

/-- `parse_value` with a bound on the calls that are open. -/
def parseValue : Nat → Text → Option (Item × Text)
  | 0, _ => none
  | n + 1, value =>
    if bytes "null" <+: value then some (.null, value.drop 4)
    else if bytes "false" <+: value then some (.false, value.drop 5)
    else if bytes "true" <+: value then some (.true, value.drop 4)
    else if startsWith value (· = byte '"') then (parseString value).map fun (str, value) => (.string str, value)
    else if startsWith value (fun c => c = byte '-' ∨ isDigit c) then parseNumber value
    else if startsWith value (· = byte '[') then
      let value := skip value.tail
      if startsWith value (· = byte ']') then some (.array .nil, value.tail)
      else do
        let (item, value) ← parseValue n value
        let (next, value) ← parseItems n (skip value)
        some (.array (.cons item next), value)
    else if startsWith value (· = byte '{') then
      let value := skip value.tail
      if startsWith value (· = byte '}') then some (.object .nil, value.tail)
      else do
        let (string, value) ← parseString value
        let value := skip value
        if startsWith value (· = byte ':') then
          let (item, value) ← parseValue n (skip value.tail)
          let (next, value) ← parseFields n (skip value)
          some (.object (.cons string item next), value)
        else none
    else none

/-- The loop of `parse_array`. -/
def parseItems : Nat → Text → Option (Items × Text)
  | 0, _ => none
  | n + 1, value =>
    if startsWith value (· = byte ',') then do
      let (item, value) ← parseValue n (skip value.tail)
      let (next, value) ← parseItems n (skip value)
      some (.cons item next, value)
    else if startsWith value (· = byte ']') then some (.nil, value.tail)
    else none

/-- The loop of `parse_object`. -/
def parseFields : Nat → Text → Option (Fields × Text)
  | 0, _ => none
  | n + 1, value =>
    if startsWith value (· = byte ',') then do
      let (string, value) ← parseString (skip value.tail)
      let value := skip value
      if startsWith value (· = byte ':') then
        let (item, value) ← parseValue n (skip value.tail)
        let (next, value) ← parseFields n (skip value)
        some (.cons string item next, value)
      else none
    else if startsWith value (· = byte '}') then some (.nil, value.tail)
    else none

end

/-- `cJSON_Parse`; every call that is open has read a character. -/
def parse (value : Text) : Option Item :=
  let value := skip (cstr value)
  (parseValue (value.length + 1) value).map Prod.fst

end Parse

end SuperNet.Utils.CJSON
