import Mathlib.Data.List.TakeWhile
import Mathlib.Tactic
import SuperNet.Lib.Decimal
import SuperNet.Utils.CJSON

/-! What cJSON.c prints it parses back, formatted or not. -/
namespace SuperNet.Utils.CJSON
open SuperNet.Lib.Decimal

mutual

/-- `p` holds of every number and `q` of every string. -/
def Item.All (p : Number → Prop) (q : Text → Prop) : Item → Prop
  | .null => True
  | .false => True
  | .true => True
  | .number num => p num
  | .string valuestring => q valuestring
  | .array child => child.All p q
  | .object child => child.All p q

def Items.All (p : Number → Prop) (q : Text → Prop) : Items → Prop
  | .nil => True
  | .cons item next => item.All p q ∧ next.All p q

def Fields.All (p : Number → Prop) (q : Text → Prop) : Fields → Prop
  | .nil => True
  | .cons string item next => q string ∧ item.All p q ∧ next.All p q

end

section
variable {p p' r : Number → Prop} {q q' s : Text → Prop}

mutual

theorem Item.All.both (hp : ∀ num, p num → p' num → r num) (hq : ∀ str, q str → q' str → s str) :
    ∀ {item : Item}, item.All p q → item.All p' q' → item.All r s
  | .null, _, _ => trivial
  | .false, _, _ => trivial
  | .true, _, _ => trivial
  | .number num, h, h' => hp num h h'
  | .string str, h, h' => hq str h h'
  | .array _, h, h' => Items.All.both hp hq h h'
  | .object _, h, h' => Fields.All.both hp hq h h'

theorem Items.All.both (hp : ∀ num, p num → p' num → r num) (hq : ∀ str, q str → q' str → s str) :
    ∀ {items : Items}, items.All p q → items.All p' q' → items.All r s
  | .nil, _, _ => trivial
  | .cons _ _, h, h' => ⟨Item.All.both hp hq h.1 h'.1, Items.All.both hp hq h.2 h'.2⟩

theorem Fields.All.both (hp : ∀ num, p num → p' num → r num) (hq : ∀ str, q str → q' str → s str) :
    ∀ {fields : Fields}, fields.All p q → fields.All p' q' → fields.All r s
  | .nil, _, _ => trivial
  | .cons str _ _, h, h' => ⟨hq str h.1 h'.1, Item.All.both hp hq h.2.1 h'.2.1, Fields.All.both hp hq h.2.2 h'.2.2⟩

end

end

/-- All numbers are counted exactly by a double. -/
def Item.Whole (item : Item) : Prop := item.All Number.Whole fun _ => True

/-- No string has a terminator inside. -/
def Item.Plain (item : Item) : Prop := item.All (fun _ => True) (0 ∉ ·)

/-- What the printers write so that it is read back. -/
abbrev Item.Valid (item : Item) : Prop := item.All Number.Whole (0 ∉ ·)

abbrev Items.Valid (items : Items) : Prop := items.All Number.Whole (0 ∉ ·)

abbrev Fields.Valid (fields : Fields) : Prop := fields.All Number.Whole (0 ∉ ·)

@[simp] theorem startsWith_cons (c : UInt8) (s : Text) (p : UInt8 → Bool) : startsWith (c :: s) p = p c := rfl

@[simp] theorem startsWith_nil (p : UInt8 → Bool) : startsWith [] p = false := rfl

theorem skip_cons {c : UInt8} (h : 32 < c) (s : Text) : skip (c :: s) = c :: s := by
  rw [skip, List.dropWhile_cons_of_neg]
  simpa using h

variable (fmtDouble : Number → Text)

section Strings

theorem cstr_eq {s : Text} (h : 0 ∉ s) : cstr s = s := by
  rw [cstr, List.takeWhile_eq_self_iff]
  intro c hc
  exact decide_eq_true fun hzero => h (hzero ▸ hc)

@[simp] theorem prepend_some (s out ptr : Text) : prepend s (some (out, ptr)) = some (s ++ out, ptr) := rfl

theorem parseChars_quote (ptr : Text) : parseChars (byte '"' :: ptr) = some ([], ptr) := by
  rw [parseChars.eq_def]
  exact if_pos rfl

theorem parseChars_plain {c : UInt8} (hquote : c ≠ byte '"') (hslash : c ≠ byte '\\') (ptr : Text) :
    parseChars (c :: ptr) = prepend [c] (parseChars ptr) := by
  conv_lhs => rw [parseChars.eq_def]
  dsimp only
  rw [if_neg hquote, if_pos hslash]

theorem parseChars_escape {c : UInt8} (h : c ≠ byte 'u') (ptr : Text) :
    parseChars (byte '\\' :: c :: ptr) = prepend [unescape c] (parseChars ptr) := by
  have hquote : byte '\\' ≠ byte '"' := by decide
  conv_lhs => rw [parseChars.eq_def]
  dsimp only
  rw [if_neg hquote, if_neg (not_not.mpr rfl), if_pos h]

theorem parseChars_ascii {a b c d : UInt8} (hpos : parseHex4 a b c d ≠ 0) (hlt : parseHex4 a b c d < 0x80) (ptr : Text) :
    parseChars (byte '\\' :: byte 'u' :: a :: b :: c :: d :: ptr) =
      prepend [UInt8.ofNat (parseHex4 a b c d)] (parseChars ptr) := by
  have hquote : byte '\\' ≠ byte '"' := by decide
  conv_lhs => rw [parseChars.eq_def]
  dsimp only
  rw [if_neg hquote, if_neg (not_not.mpr rfl), if_neg (not_not.mpr rfl), if_neg (by omega), if_neg (by omega), utf8, if_pos hlt]

theorem parseHex4_hex4 : ∀ token : UInt8,
    parseHex4 (byte '0') (byte '0') (byte (Nat.digitChar (token.toNat / 16))) (byte (Nat.digitChar (token.toNat % 16))) = token.toNat := by
  have h : ∀ n < 256, parseHex4 (byte '0') (byte '0') (byte (Nat.digitChar (n / 16))) (byte (Nat.digitChar (n % 16))) = n := by
    decide +kernel
  exact fun token => h token.toNat token.toNat_lt

/-- A byte comes back from its escape. -/
theorem parseChars_escaped {token : UInt8} (h : token ≠ 0) (ptr : Text) :
    parseChars (escaped token ++ ptr) = prepend [token] (parseChars ptr) := by
  rw [escaped]
  split
  · next hplain =>
    rw [List.singleton_append, parseChars_plain hplain.2.1 hplain.2.2]
  · next hescape =>
    split_ifs with hslash hquote hb hf hn hr ht
    · subst hslash; exact parseChars_escape (by decide) ptr
    · subst hquote; exact parseChars_escape (by decide) ptr
    · subst hb; exact parseChars_escape (by decide) ptr
    · subst hf; exact parseChars_escape (by decide) ptr
    · subst hn; exact parseChars_escape (by decide) ptr
    · subst hr; exact parseChars_escape (by decide) ptr
    · subst ht; exact parseChars_escape (by decide) ptr
    · have hsmall : token.toNat ≤ 31 := by
        by_contra hlarge
        exact hescape ⟨UInt8.lt_iff_toNat_lt.mpr (Nat.lt_of_not_le hlarge), hquote, hslash⟩
      have hpos : token.toNat ≠ 0 := fun hzero => h (UInt8.toNat_inj.mp hzero)
      have hval := parseHex4_hex4 token
      have hascii := parseChars_ascii (by rw [hval]; exact hpos) (by rw [hval]; omega) ptr
      rw [hval, UInt8.ofNat_toNat] at hascii
      exact hascii

theorem scanLen_plain {c : UInt8} (hquote : c ≠ byte '"') (hslash : c ≠ byte '\\') (ptr : Text) :
    scanLen (c :: ptr) = (scanLen ptr).map (· + 1) := by
  rw [scanLen.eq_def]
  dsimp only
  rw [if_neg hquote, if_neg hslash]

theorem scanLen_escape (c : UInt8) (ptr : Text) : scanLen (byte '\\' :: c :: ptr) = (scanLen ptr).map (· + 1) := by
  have hquote : byte '\\' ≠ byte '"' := by decide
  rw [scanLen.eq_def]
  dsimp only
  rw [if_neg hquote, if_pos rfl]

theorem hexDigit_plain : ∀ d < 16, byte (Nat.digitChar d) ≠ byte '"' ∧ byte (Nat.digitChar d) ≠ byte '\\' := by decide

theorem scanLen_escaped {ptr : Text} {len : Nat} (h : scanLen ptr = some len) (token : UInt8) :
    ∃ more, scanLen (escaped token ++ ptr) = some more ∧ len + 1 ≤ more := by
  have hone : ∀ c : UInt8, ∃ more, scanLen (byte '\\' :: c :: ptr) = some more ∧ len + 1 ≤ more := by
    intro c
    rw [scanLen_escape, h]
    exact ⟨len + 1, rfl, Nat.le_refl _⟩
  rw [escaped]
  split
  · next hplain =>
    rw [List.singleton_append, scanLen_plain hplain.2.1 hplain.2.2, h]
    exact ⟨len + 1, rfl, Nat.le_refl _⟩
  · split_ifs
    · exact hone _
    · exact hone _
    · exact hone _
    · exact hone _
    · exact hone _
    · exact hone _
    · exact hone _
    · have hlt := token.toNat_lt
      have hhigh := hexDigit_plain (token.toNat / 16) (by omega)
      have hlow := hexDigit_plain (token.toNat % 16) (by omega)
      rw [hex4, List.cons_append, List.cons_append, scanLen_escape]
      simp only [List.cons_append, List.nil_append]
      rw [scanLen_plain (by decide) (by decide), scanLen_plain (by decide) (by decide), scanLen_plain hhigh.1 hhigh.2,
        scanLen_plain hlow.1 hlow.2, h]
      exact ⟨_, rfl, Nat.le_add_right (len + 1) 4⟩

/-- There is room for a string that was printed. -/
theorem scanLen_print (s rest : Text) : ∃ len, scanLen (s.flatMap escaped ++ byte '"' :: rest) = some len ∧ s.length ≤ len := by
  induction s with
  | nil =>
    refine ⟨0, ?_, Nat.le_refl 0⟩
    rw [List.flatMap_nil, List.nil_append, scanLen.eq_def]
    exact if_pos rfl
  | cons c s ih =>
    obtain ⟨len, hlen, hle⟩ := ih
    obtain ⟨more, hmore, hlt⟩ := scanLen_escaped hlen c
    rw [List.flatMap_cons, List.append_assoc]
    exact ⟨more, hmore, (Nat.succ_le_succ hle).trans hlt⟩

theorem parseString_print {s : Text} (h : 0 ∉ s) (rest : Text) : parseString (printStringPtr s ++ rest) = some (s, rest) := by
  have hchars : parseChars (s.flatMap escaped ++ byte '"' :: rest) = some (s, rest) := by
    induction s with
    | nil => exact parseChars_quote rest
    | cons c s ih =>
      rw [List.mem_cons, not_or] at h
      rw [List.flatMap_cons, List.append_assoc, parseChars_escaped (Ne.symm h.1), ih h.2, prepend_some, List.singleton_append]
  obtain ⟨len, hlen, hle⟩ := scanLen_print s rest
  rw [printStringPtr, cstr_eq h, parseString.eq_def]
  simp only [List.cons_append, List.append_assoc, List.nil_append, if_true, hlen, Option.bind_eq_bind, Option.bind_some, hchars,
    if_pos hle]

end Strings

section Numbers

/-- The bytes of the decimal digits. -/
def digits (n : Nat) : Text := (Nat.toDigits 10 n).map byte

theorem isDigit_digitChar : ∀ d < 10, isDigit (byte (Nat.digitChar d)) = true := by decide

theorem value_digitChar : ∀ d < 10, (byte (Nat.digitChar d) - byte '0').toNat = d := by decide

theorem isDigit_digits {n : Nat} : ∀ c ∈ digits n, isDigit c = true := by
  intro c hc
  obtain ⟨ch, hmem, rfl⟩ := List.mem_map.mp hc
  obtain ⟨d, hd, rfl⟩ := mem_toDigits hmem
  exact isDigit_digitChar d hd

theorem value_digits (n : Nat) : digitsValue 0 (digits n) = n := by
  rw [digitsValue, digits, List.foldl_map]
  exact foldl_toDigits value_digitChar n

theorem digits_pos {n : Nat} (h : 0 < n) :
    ∃ c s, digits n = c :: s ∧ byte '1' ≤ c ∧ c ≤ byte '9' ∧ c ≠ byte '-' ∧ c ≠ byte '0' := by
  obtain ⟨d, hd, hd10, hhead⟩ := head_toDigits h
  obtain ⟨s, hs⟩ := List.head?_eq_some_iff.mp hhead
  have hrange : ∀ d < 10, 0 < d → byte '1' ≤ byte (Nat.digitChar d) ∧ byte (Nat.digitChar d) ≤ byte '9' ∧
    byte (Nat.digitChar d) ≠ byte '-' ∧ byte (Nat.digitChar d) ≠ byte '0' := by decide
  exact ⟨byte (Nat.digitChar d), s.map byte, by rw [digits, hs, List.map_cons], hrange d hd10 hd⟩

/-- The text goes on with nothing that `parse_number` takes for a part of the number. -/
def Ends (rest : Text) : Prop :=
  ∀ c, rest.head? = some c → isDigit c = false ∧ c ≠ byte '.' ∧ c ≠ byte 'e' ∧ c ≠ byte 'E'

theorem Ends.startsWith {rest : Text} (h : Ends rest) {p : UInt8 → Bool}
    (hp : ∀ c, isDigit c = false ∧ c ≠ byte '.' ∧ c ≠ byte 'e' ∧ c ≠ byte 'E' → p c = false) : startsWith rest p = false := by
  cases rest with
  | nil => rfl
  | cons c s => exact hp c (h c rfl)

theorem Ends.takeWhile {rest : Text} (h : Ends rest) : rest.takeWhile isDigit = [] := by
  cases rest with
  | nil => rfl
  | cons c s => exact List.takeWhile_cons_of_neg (by rw [(h c rfl).1]; decide)

theorem printNumber_eq {num : Number} (h : num.Whole) :
    printNumber fmtDouble num = (if num.negative then [byte '-'] else []) ++ digits num.n := by
  rw [printNumber, if_pos h]
  split
  · next hcount => rw [if_neg hcount.1, List.nil_append, digits]
  · rfl

theorem takeWhile_digits {n : Nat} {rest : Text} (h : Ends rest) : (digits n ++ rest).takeWhile isDigit = digits n := by
  rw [List.takeWhile_append_of_pos isDigit_digits, h.takeWhile, List.append_nil]

theorem without_of_false {s : Text} {p : UInt8 → Bool} (h : startsWith s p = false) : without s p = s := by
  rw [without, h]
  rfl

theorem without_of_true {s : Text} {p : UInt8 → Bool} (h : startsWith s p = true) : without s p = s.tail := by
  rw [without, if_pos h]

/-- Behind the sign, `parse_number` reads the digits and nothing else. -/
theorem parseNumber_print {num : Number} {rest : Text} (hnum : num.Whole) (h : Ends rest) :
    parseNumber (printNumber fmtDouble num ++ rest) = some (.number num, rest) := by
  obtain ⟨negative, n, scale, exponent⟩ := num
  have hwhole := hnum
  obtain ⟨rfl, rfl, -⟩ := hnum
  have hminus : startsWith (digits n ++ rest) (· = byte '-') = false := by
    rcases Nat.eq_zero_or_pos n with rfl | hpos
    · rfl
    · obtain ⟨c, s, hs, -, -, hc, -⟩ := digits_pos hpos
      rw [hs, List.cons_append, startsWith_cons, decide_eq_false hc]
  have hsign : startsWith (printNumber fmtDouble ⟨negative, n, 0, 0⟩ ++ rest) (· = byte '-') = negative := by
    rw [printNumber_eq fmtDouble hwhole]
    cases negative with
    | false => exact hminus
    | true => rfl
  have htail : without (printNumber fmtDouble ⟨negative, n, 0, 0⟩ ++ rest) (· = byte '-') = digits n ++ rest := by
    cases negative with
    | false =>
      rw [without_of_false hsign, printNumber_eq fmtDouble hwhole]
      rfl
    | true =>
      rw [without_of_true hsign, printNumber_eq fmtDouble hwhole]
      rfl
  have hdot : startsWith rest (· = byte '.') = false := h.startsWith fun c hc => decide_eq_false hc.2.1
  have hexp : startsWith rest (fun c => c = byte 'e' ∨ c = byte 'E') = false :=
    h.startsWith fun c hc => decide_eq_false (not_or.mpr hc.2.2)
  rw [parseNumber]
  simp only [hsign, htail]
  rcases Nat.eq_zero_or_pos n with rfl | hpos
  · -- the zero is no digit to the loop
    have hzero : without (digits 0 ++ rest) (· = byte '0') = rest := without_of_true rfl
    have hdigits : startsWith rest (fun c => byte '1' ≤ c ∧ c ≤ byte '9') = false :=
      h.startsWith fun c hc => decide_eq_false fun hr => by
        have hdigit : isDigit c = true := decide_eq_true ⟨UInt8.le_trans (by decide) hr.1, hr.2⟩
        rw [hc.1] at hdigit
        contradiction
    simp only [hzero, hdigits, Bool.false_eq_true, if_false, List.length_nil, List.drop_zero, List.append_nil, if_true, hdot, hexp]
    rfl
  · obtain ⟨c, s, hs, hlow, hhigh, -, hc⟩ := digits_pos hpos
    have hzero : without (digits n ++ rest) (· = byte '0') = digits n ++ rest := by
      refine without_of_false ?_
      rw [hs, List.cons_append, startsWith_cons, decide_eq_false hc]
    have hdigits : startsWith (digits n ++ rest) (fun c => byte '1' ≤ c ∧ c ≤ byte '9') = true := by
      rw [hs, List.cons_append, startsWith_cons, decide_eq_true ⟨hlow, hhigh⟩]
    have hdrop : (digits n ++ rest).drop (digits n).length = rest := List.drop_left
    simp only [hzero, hdigits, Bool.false_eq_true, if_false, if_true, takeWhile_digits h, hdrop, List.append_nil, value_digits, hdot,
      hexp, List.length_nil]

end Numbers

section Tokens

theorem onlyFmt_blank {fmt : Bool} {s : Text} (h : ∀ c ∈ s, c ≤ 32) : ∀ c ∈ onlyFmt fmt s, c ≤ 32 := by
  cases fmt with
  | false => exact fun c hc => absurd hc List.not_mem_nil
  | true => exact h

theorem newline_blank (depth : Nat) : ∀ c ∈ byte '\n' :: tabs depth, c ≤ 32 := by
  intro c hc
  rcases List.mem_cons.mp hc with rfl | hc
  · decide
  · rw [List.eq_of_mem_replicate hc]
    decide

theorem skip_blank {s : Text} (h : ∀ c ∈ s, c ≤ 32) {c : UInt8} (hc : 32 < c) (rest : Text) : skip (s ++ c :: rest) = c :: rest := by
  rw [skip, List.dropWhile_append_of_pos fun a ha => decide_eq_true (h a ha)]
  exact skip_cons hc rest

theorem digits_cons (n : Nat) : ∃ c s, digits n = c :: s ∧ isDigit c = true := by
  cases hs : digits n with
  | nil =>
    rcases Nat.eq_zero_or_pos n with rfl | hpos
    · contradiction
    · obtain ⟨c, s, hcons, -⟩ := digits_pos hpos
      rw [hcons] at hs
      contradiction
  | cons c s => exact ⟨c, s, rfl, isDigit_digits c (hs ▸ List.mem_cons_self)⟩

theorem printNumber_head {num : Number} (h : num.Whole) :
    ∃ c s, printNumber fmtDouble num = c :: s ∧ (c = byte '-' ∨ isDigit c = true) := by
  obtain ⟨c, s, hs, hc⟩ := digits_cons num.n
  rw [printNumber_eq fmtDouble h, hs]
  cases num.negative with
  | false => exact ⟨c, s, rfl, Or.inr hc⟩
  | true => exact ⟨byte '-', c :: s, rfl, Or.inl rfl⟩

/-- The bytes a number can start with. -/
theorem number_byte {c : UInt8} (h : c = byte '-' ∨ isDigit c = true) : byte '-' ≤ c ∧ c ≤ byte '9' := by
  rcases h with rfl | h
  · decide
  · have hrange := of_decide_eq_true h
    exact ⟨UInt8.le_trans (by decide) hrange.1, hrange.2⟩

/-- A value is printed from a character on that is no blank and closes no array. -/
theorem printValue_head (fmt : Bool) {item : Item} (h : item.Valid) (depth : Nat) :
    ∃ c s, printValue fmtDouble fmt item depth = c :: s ∧ 32 < c ∧ c ≠ byte ']' := by
  cases item with
  | null => exact ⟨_, _, rfl, by decide⟩
  | false => exact ⟨_, _, rfl, by decide⟩
  | true => exact ⟨_, _, rfl, by decide⟩
  | number num =>
    obtain ⟨c, s, hs, hc⟩ := printNumber_head fmtDouble h
    have hrange := number_byte hc
    refine ⟨c, s, by rw [printValue, hs], UInt8.lt_of_lt_of_le (by decide) hrange.1, ?_⟩
    rintro rfl
    exact absurd hrange.2 (by decide)
  | string valuestring => exact ⟨byte '"', _, rfl, by decide⟩
  | array child =>
    cases child with
    | nil => exact ⟨_, _, rfl, by decide⟩
    | cons item next => exact ⟨byte '[', _, rfl, by decide⟩
  | object child =>
    cases child with
    | nil => exact ⟨byte '{', _, rfl, by decide⟩
    | cons string item next => exact ⟨byte '{', _, rfl, by decide⟩

theorem skip_printValue (fmt : Bool) {item : Item} (h : item.Valid) (depth : Nat) (rest : Text) :
    skip (printValue fmtDouble fmt item depth ++ rest) = printValue fmtDouble fmt item depth ++ rest := by
  obtain ⟨c, s, hs, hc, -⟩ := printValue_head fmtDouble fmt h depth
  rw [hs, List.cons_append, skip_cons hc]

theorem skip_fmt_printValue {fmt : Bool} {blank : Text} (h : ∀ c ∈ blank, c ≤ 32) {item : Item} (hitem : item.Valid) (depth : Nat)
    (rest : Text) :
    skip (onlyFmt fmt blank ++ (printValue fmtDouble fmt item depth ++ rest)) = printValue fmtDouble fmt item depth ++ rest := by
  obtain ⟨c, s, hs, hc, -⟩ := printValue_head fmtDouble fmt hitem depth
  rw [hs, List.cons_append, skip_blank (onlyFmt_blank h) hc]

theorem Ends.cons {c : UInt8} (h : isDigit c = false ∧ c ≠ byte '.' ∧ c ≠ byte 'e' ∧ c ≠ byte 'E') (s : Text) : Ends (c :: s) := by
  intro d hd
  rw [List.head?_cons, Option.some.injEq] at hd
  exact hd ▸ h

end Tokens

section Dispatch

theorem ne_word {w : String} {d : Char} {t : Text} (hw : bytes w = byte d :: t) {c : UInt8} {s : Text} (h : c ≠ byte d) :
    ¬ bytes w <+: c :: s := by
  rw [hw, List.cons_prefix_cons]
  exact fun hp => h hp.1.symm

theorem parseValue_cons {c : UInt8} (hnull : c ≠ byte 'n') (hfalse : c ≠ byte 'f') (htrue : c ≠ byte 't') (n : Nat) (s : Text) :
    parseValue (n + 1) (c :: s) =
      if c = byte '"' then (parseString (c :: s)).map fun (str, value) => (.string str, value)
      else if c = byte '-' ∨ isDigit c then parseNumber (c :: s)
      else if c = byte '[' then
        if startsWith (skip s) (· = byte ']') then some (.array .nil, (skip s).tail)
        else do
          let (item, value) ← parseValue n (skip s)
          let (next, value) ← parseItems n (skip value)
          some (.array (.cons item next), value)
      else if c = byte '{' then
        if startsWith (skip s) (· = byte '}') then some (.object .nil, (skip s).tail)
        else do
          let (string, value) ← parseString (skip s)
          let value := skip value
          if startsWith value (· = byte ':') then
            let (item, value) ← parseValue n (skip value.tail)
            let (next, value) ← parseFields n (skip value)
            some (.object (.cons string item next), value)
          else none
      else none := by
  rw [parseValue, if_neg (ne_word (t := bytes "ull") rfl hnull), if_neg (ne_word (t := bytes "alse") rfl hfalse),
    if_neg (ne_word (t := bytes "rue") rfl htrue)]
  simp only [startsWith_cons, decide_eq_true_eq, List.tail_cons]
  rfl

theorem parseValue_null (n : Nat) (rest : Text) : parseValue (n + 1) (bytes "null" ++ rest) = some (.null, rest) := by
  rw [parseValue, if_pos (List.prefix_append _ _)]
  rfl

theorem parseValue_false (n : Nat) (rest : Text) : parseValue (n + 1) (bytes "false" ++ rest) = some (.false, rest) := by
  have hnull : ¬ bytes "null" <+: bytes "false" ++ rest := ne_word (t := bytes "ull") rfl (c := byte 'f') (by decide)
  rw [parseValue, if_neg hnull, if_pos (List.prefix_append _ _)]
  rfl

theorem parseValue_true (n : Nat) (rest : Text) : parseValue (n + 1) (bytes "true" ++ rest) = some (.true, rest) := by
  have hnull : ¬ bytes "null" <+: bytes "true" ++ rest := ne_word (t := bytes "ull") rfl (c := byte 't') (by decide)
  have hfalse : ¬ bytes "false" <+: bytes "true" ++ rest := ne_word (t := bytes "alse") rfl (c := byte 't') (by decide)
  rw [parseValue, if_neg hnull, if_neg hfalse, if_pos (List.prefix_append _ _)]
  rfl

theorem parseValue_string {str : Text} (h : 0 ∉ str) (n : Nat) (rest : Text) :
    parseValue (n + 1) (printStringPtr str ++ rest) = some (.string str, rest) := by
  have hstr := parseString_print h rest
  rw [printStringPtr, List.append_assoc, List.cons_append] at hstr ⊢
  rw [parseValue_cons (by decide) (by decide) (by decide), if_pos rfl, hstr]
  rfl

theorem parseValue_number {num : Number} {rest : Text} (hwhole : num.Whole) (h : Ends rest) (n : Nat) :
    parseValue (n + 1) (printNumber fmtDouble num ++ rest) = some (.number num, rest) := by
  have hnum : parseNumber (printNumber fmtDouble num ++ rest) = some (.number num, rest) :=
    parseNumber_print fmtDouble hwhole h
  obtain ⟨c, s, hs, hc⟩ : ∃ c s, printNumber fmtDouble num = c :: s ∧ (c = byte '-' ∨ isDigit c = true) :=
    printNumber_head fmtDouble hwhole
  have hrange := number_byte hc
  have hne : ∀ {d : UInt8}, byte '9' < d → c ≠ d := fun hd heq => UInt8.not_lt.mpr hrange.2 (heq ▸ hd)
  have hquote : c ≠ byte '"' := fun heq => absurd (heq ▸ hrange.1) (by decide)
  rw [hs, List.cons_append] at hnum ⊢
  rw [parseValue_cons (hne (by decide)) (hne (by decide)) (hne (by decide)), if_neg hquote, if_pos hc, hnum]

theorem parseValue_array (n : Nat) (s : Text) :
    parseValue (n + 1) (byte '[' :: s) =
      if startsWith (skip s) (· = byte ']') then some (.array .nil, (skip s).tail)
      else (do
        let (item, value) ← parseValue n (skip s)
        let (next, value) ← parseItems n (skip value)
        some (.array (.cons item next), value)) := by
  have hquote : byte '[' ≠ byte '"' := by decide
  rw [parseValue_cons (by decide) (by decide) (by decide), if_neg hquote, if_neg (by decide), if_pos rfl]

theorem parseValue_object (n : Nat) (s : Text) :
    parseValue (n + 1) (byte '{' :: s) =
      if startsWith (skip s) (· = byte '}') then some (.object .nil, (skip s).tail)
      else (do
        let (string, value) ← parseString (skip s)
        let value := skip value
        if startsWith value (· = byte ':') then
          let (item, value) ← parseValue n (skip value.tail)
          let (next, value) ← parseFields n (skip value)
          some (.object (.cons string item next), value)
        else none) := by
  have hquote : byte '{' ≠ byte '"' := by decide
  have hbracket : byte '{' ≠ byte '[' := by decide
  rw [parseValue_cons (by decide) (by decide) (by decide), if_neg hquote, if_neg (by decide), if_neg hbracket, if_pos rfl]

theorem parseItems_comma (n : Nat) (s : Text) :
    parseItems (n + 1) (byte ',' :: s) = (do
      let (item, value) ← parseValue n (skip s)
      let (next, value) ← parseItems n (skip value)
      some (.cons item next, value)) := by
  rw [parseItems]
  exact if_pos rfl

theorem parseItems_close (n : Nat) (s : Text) : parseItems (n + 1) (byte ']' :: s) = some (.nil, s) := by
  have hcomma : ¬ startsWith (byte ']' :: s) (· = byte ',') = true := by
    rw [startsWith_cons]
    decide
  rw [parseItems, if_neg hcomma]
  exact if_pos rfl

theorem parseFields_comma (n : Nat) (s : Text) :
    parseFields (n + 1) (byte ',' :: s) = (do
      let (string, value) ← parseString (skip s)
      let value := skip value
      if startsWith value (· = byte ':') then
        let (item, value) ← parseValue n (skip value.tail)
        let (next, value) ← parseFields n (skip value)
        some (.cons string item next, value)
      else none) := by
  rw [parseFields]
  exact if_pos rfl

theorem parseFields_close (n : Nat) (s : Text) : parseFields (n + 1) (byte '}' :: s) = some (.nil, s) := by
  have hcomma : ¬ startsWith (byte '}' :: s) (· = byte ',') = true := by
    rw [startsWith_cons]
    decide
  rw [parseFields, if_neg hcomma]
  exact if_pos rfl

end Dispatch

section RoundTrip

theorem ends_items (fmt : Bool) (next : Items) (depth : Nat) (rest : Text) :
    Ends (printItems fmtDouble fmt next depth ++ byte ']' :: rest) ∧
      skip (printItems fmtDouble fmt next depth ++ byte ']' :: rest) = printItems fmtDouble fmt next depth ++ byte ']' :: rest := by
  cases next with
  | nil => exact ⟨Ends.cons (by decide) _, skip_cons (by decide) _⟩
  | cons item next => exact ⟨Ends.cons (by decide) _, skip_cons (by decide) _⟩

/-- What closes an object. -/
def close (fmt : Bool) (depth : Nat) : Text := onlyFmt fmt (byte '\n' :: tabs depth)

theorem close_blank (fmt : Bool) (depth : Nat) : ∀ c ∈ close fmt depth, c ≤ 32 := onlyFmt_blank (newline_blank depth)

theorem ends_close (fmt : Bool) (depth : Nat) (rest : Text) : Ends (close fmt depth ++ byte '}' :: rest) := by
  cases fmt with
  | false => exact Ends.cons (by decide) _
  | true => exact Ends.cons (by decide) _

theorem ends_fields (fmt : Bool) (next : Fields) (depth d : Nat) (rest : Text) :
    Ends (printFields fmtDouble fmt next depth ++ (close fmt d ++ byte '}' :: rest)) := by
  cases next with
  | nil => exact ends_close fmt d rest
  | cons string item next => exact Ends.cons (by decide) _

/-- The blank before an entry of an object is skipped and its name read. -/
theorem parseString_name {string blank : Text} (h : 0 ∉ string) (hblank : ∀ c ∈ blank, c ≤ 32) (rest : Text) :
    parseString (skip (blank ++ (printStringPtr string ++ rest))) = some (string, rest) := by
  have hstr := parseString_print h rest
  rw [printStringPtr, List.append_assoc, List.cons_append] at hstr ⊢
  rw [skip_blank hblank (by decide), hstr]

theorem open_name {blank : Text} (hblank : ∀ c ∈ blank, c ≤ 32) (string rest : Text) :
    ¬ startsWith (skip (blank ++ (printStringPtr string ++ rest))) (· = byte '}') = true := by
  rw [printStringPtr, List.append_assoc, List.cons_append, skip_blank hblank (by decide), startsWith_cons]
  decide

theorem tab_blank : ∀ c ∈ [byte '\t'], c ≤ 32 := by
  intro c hc
  rw [List.mem_singleton.mp hc]
  decide

theorem space_blank : ∀ c ∈ [byte ' '], c ≤ 32 := by
  intro c hc
  rw [List.mem_singleton.mp hc]
  decide

theorem one_le_printValue (fmt : Bool) {item : Item} (h : item.Valid) (depth : Nat) : 1 ≤ (printValue fmtDouble fmt item depth).length := by
  obtain ⟨c, s, hs, -⟩ := printValue_head fmtDouble fmt h depth
  rw [hs, List.length_cons]
  exact Nat.le_add_left 1 s.length

mutual

/-- The bound on the open calls is met by the length of the text. -/
theorem parseValue_print (fmt : Bool) : ∀ (item : Item) (depth n : Nat) (rest : Text), item.Valid → Ends rest →
    (printValue fmtDouble fmt item depth).length ≤ n → parseValue n (printValue fmtDouble fmt item depth ++ rest) = some (item, rest)
  | _, depth, 0, _, h, _, hn => absurd (Nat.le_trans (one_le_printValue fmtDouble fmt h depth) hn) (by decide)
  | .null, _, n + 1, rest, _, _, _ => parseValue_null n rest
  | .false, _, n + 1, rest, _, _, _ => parseValue_false n rest
  | .true, _, n + 1, rest, _, _, _ => parseValue_true n rest
  | .number _, _, n + 1, _, h, hrest, _ => parseValue_number fmtDouble h hrest n
  | .string valuestring, _, n + 1, rest, h, _, _ => parseValue_string h n rest
  | .array .nil, _, n + 1, rest, _, _, _ => by
    have hskip : skip (byte ']' :: rest) = byte ']' :: rest := skip_cons (by decide) rest
    change parseValue (n + 1) (byte '[' :: byte ']' :: rest) = _
    rw [parseValue_array, hskip, startsWith_cons, if_pos (by decide), List.tail_cons]
  | .array (.cons item next), depth, n + 1, rest, h, _, hn => by
    have hlen : (printValue fmtDouble fmt item (depth + 1)).length + (printItems fmtDouble fmt next (depth + 1)).length < n := by
      rw [printValue] at hn
      simp only [List.length_append, List.length_cons, List.length_nil] at hn
      omega
    obtain ⟨hends, hskip⟩ := ends_items fmtDouble fmt next (depth + 1) rest
    have hitem := parseValue_print fmt item (depth + 1) n _ h.1 hends (by omega)
    have hnext := parseItems_print fmt next (depth + 1) n rest h.2 (by omega)
    obtain ⟨c, s, hs, -, hc⟩ := printValue_head fmtDouble fmt h.1 (depth + 1)
    have hopen : ¬ startsWith (printValue fmtDouble fmt item (depth + 1) ++ (printItems fmtDouble fmt next (depth + 1) ++ byte ']' :: rest))
        (· = byte ']') = true := by
      rw [hs, List.cons_append, startsWith_cons]
      exact fun heq => hc (of_decide_eq_true heq)
    rw [printValue]
    simp only [List.append_assoc, List.cons_append, List.nil_append]
    rw [parseValue_array, skip_printValue fmtDouble fmt h.1, if_neg hopen, hitem]
    simp only [Option.bind_eq_bind, Option.bind_some, hskip, hnext]
  | .object .nil, depth, n + 1, rest, _, _, _ => by
    have hskip : skip (onlyFmt fmt (byte '\n' :: tabs (depth - 1)) ++ ([byte '}'] ++ rest)) = byte '}' :: rest :=
      skip_blank (close_blank fmt (depth - 1)) (by decide) rest
    rw [printValue, List.append_assoc, List.cons_append, parseValue_object, hskip, startsWith_cons, if_pos (by decide),
      List.tail_cons]
  | .object (.cons string item next), depth, n + 1, rest, h, _, hn => by
    have hlen : (printValue fmtDouble fmt item (depth + 1)).length + (printFields fmtDouble fmt next (depth + 1)).length < n := by
      rw [printValue] at hn
      simp only [List.length_append, List.length_cons, List.length_nil] at hn
      omega
    have hitem := parseValue_print fmt item (depth + 1) n _ h.2.1 (ends_fields fmtDouble fmt next (depth + 1) depth rest) (by omega)
    have hnext := parseFields_print fmt next (depth + 1) depth n rest h.2.2 (by omega)
    rw [close] at hitem hnext
    rw [printValue]
    simp only [List.append_assoc, List.cons_append, List.nil_append]
    rw [parseValue_object, if_neg (open_name (onlyFmt_blank (newline_blank (depth + 1))) string _),
      parseString_name h.1 (onlyFmt_blank (newline_blank (depth + 1)))]
    simp only [Option.bind_eq_bind, Option.bind_some, skip_cons (show 32 < byte ':' by decide)]
    rw [if_pos (by rw [startsWith_cons]; decide), List.tail_cons, skip_fmt_printValue fmtDouble tab_blank h.2.1, hitem]
    simp only [Option.bind_some, hnext]

theorem parseItems_print (fmt : Bool) : ∀ (next : Items) (depth n : Nat) (rest : Text), next.Valid →
    (printItems fmtDouble fmt next depth).length < n → parseItems n (printItems fmtDouble fmt next depth ++ byte ']' :: rest) = some (next, rest)
  | _, _, 0, _, _, hn => absurd hn (Nat.not_lt_zero _)
  | .nil, _, n + 1, rest, _, _ => parseItems_close n rest
  | .cons item next, depth, n + 1, rest, h, hn => by
    have hlen : (printValue fmtDouble fmt item depth).length + (printItems fmtDouble fmt next depth).length < n := by
      rw [printItems] at hn
      simp only [List.length_append, List.length_cons] at hn
      omega
    obtain ⟨hends, hskip⟩ := ends_items fmtDouble fmt next depth rest
    have hitem := parseValue_print fmt item depth n _ h.1 hends (by omega)
    have hnext := parseItems_print fmt next depth n rest h.2 (by omega)
    rw [printItems]
    simp only [List.append_assoc, List.cons_append]
    rw [parseItems_comma, skip_fmt_printValue fmtDouble space_blank h.1, hitem]
    simp only [Option.bind_eq_bind, Option.bind_some, hskip, hnext]

theorem parseFields_print (fmt : Bool) : ∀ (next : Fields) (depth d n : Nat) (rest : Text), next.Valid →
    (printFields fmtDouble fmt next depth).length < n →
    parseFields n (skip (printFields fmtDouble fmt next depth ++ (close fmt d ++ byte '}' :: rest))) = some (next, rest)
  | _, _, _, 0, _, _, hn => absurd hn (Nat.not_lt_zero _)
  | .nil, _, d, n + 1, rest, _, _ => by
    rw [printFields, List.nil_append, skip_blank (close_blank fmt d) (by decide), parseFields_close]
  | .cons string item next, depth, d, n + 1, rest, h, hn => by
    have hlen : (printValue fmtDouble fmt item depth).length + (printFields fmtDouble fmt next depth).length < n := by
      rw [printFields] at hn
      simp only [List.length_append, List.length_cons] at hn
      omega
    have hitem := parseValue_print fmt item depth n _ h.2.1 (ends_fields fmtDouble fmt next depth d rest) (by omega)
    have hnext := parseFields_print fmt next depth d n rest h.2.2 (by omega)
    rw [printFields]
    simp only [List.append_assoc, List.cons_append]
    rw [skip_cons (by decide), parseFields_comma, parseString_name h.1 (onlyFmt_blank (newline_blank depth))]
    simp only [Option.bind_eq_bind, Option.bind_some, skip_cons (show 32 < byte ':' by decide)]
    rw [if_pos (by rw [startsWith_cons]; decide), List.tail_cons, skip_fmt_printValue fmtDouble tab_blank h.2.1, hitem]
    simp only [Option.bind_some, hnext]

end

end RoundTrip

section Accepted

theorem prepend_eq_some {s out ptr : Text} {r : Option (Text × Text)} (h : prepend s r = some (out, ptr)) :
    ∃ tail, r = some (tail, ptr) ∧ out = s ++ tail := by
  obtain ⟨⟨tail, rest⟩, hr, heq⟩ := Option.map_eq_some_iff.mp h
  cases heq
  exact ⟨tail, hr, rfl⟩

theorem ofNat_ne_zero {x : Nat} (h : x.testBit 7 = true) : UInt8.ofNat x ≠ 0 := by
  intro hzero
  have hmod : x % 2^8 = 0 := congrArg UInt8.toNat hzero
  have hbit : (x % 2^8).testBit 7 = true := by
    rw [Nat.testBit_mod_two_pow, h]
    rfl
  rw [hmod, Nat.zero_testBit] at hbit
  contradiction

theorem continuation_ne_zero (uc : Nat) : continuation uc ≠ 0 := by
  refine ofNat_ne_zero ?_
  rw [Nat.testBit_and, Nat.testBit_or, Bool.and_eq_true, Bool.or_eq_true]
  exact ⟨Or.inr (by decide), by decide⟩

theorem mark_ne_zero (uc : Nat) {mark : Nat} (h : mark.testBit 7 = true) : UInt8.ofNat (uc ||| mark) ≠ 0 :=
  ofNat_ne_zero (by rw [Nat.testBit_or, h, Bool.or_true])

theorem zero_notin_cons {c : UInt8} {s : Text} (hc : c ≠ 0) (hs : 0 ∉ s) : 0 ∉ c :: s :=
  List.not_mem_cons_of_ne_of_not_mem hc.symm hs

theorem zero_notin_utf8 {uc : Nat} (h : uc ≠ 0) : 0 ∉ utf8 uc := by
  have hcont := continuation_ne_zero
  rw [utf8]
  split_ifs with h1 h2 h3
  · rw [List.mem_singleton]
    intro hzero
    have hmod : 0 = uc % 2^8 := congrArg UInt8.toNat hzero
    omega
  · exact zero_notin_cons (mark_ne_zero _ (by decide)) (zero_notin_cons (hcont _) List.not_mem_nil)
  · exact zero_notin_cons (mark_ne_zero _ (by decide)) (zero_notin_cons (hcont _) (zero_notin_cons (hcont _) List.not_mem_nil))
  · exact zero_notin_cons (mark_ne_zero _ (by decide))
      (zero_notin_cons (hcont _) (zero_notin_cons (hcont _) (zero_notin_cons (hcont _) List.not_mem_nil)))

theorem unescape_ne_zero {c : UInt8} (h : c ≠ 0) : unescape c ≠ 0 := by
  rw [unescape]
  split_ifs <;> first | exact h | decide

theorem prepend_valid {s out ptr : Text} {r : Option (Text × Text)} (hs : 0 ∉ s)
    (hr : ∀ {tail}, r = some (tail, ptr) → 0 ∉ tail ∧ 0 ∉ ptr) (h : prepend s r = some (out, ptr)) : 0 ∉ out ∧ 0 ∉ ptr := by
  obtain ⟨tail, htail, rfl⟩ := prepend_eq_some h
  exact ⟨fun hmem => (List.mem_append.mp hmem).elim hs (hr htail).1, (hr htail).2⟩

theorem parseChars_valid {s out ptr : Text} (hs : 0 ∉ s) (h : parseChars s = some (out, ptr)) : 0 ∉ out ∧ 0 ∉ ptr := by
  fun_induction parseChars s generalizing out ptr with
  | case1 => cases h; exact ⟨hs, hs⟩
  | case2 ptr => cases h; exact ⟨List.not_mem_nil, fun hmem => hs (List.mem_cons_of_mem _ hmem)⟩
  | case3 c ptr hquote hslash ih =>
    rw [List.mem_cons, not_or] at hs
    exact prepend_valid (zero_notin_cons (Ne.symm hs.1) List.not_mem_nil) (ih hs.2) h
  | case4 => contradiction
  | case5 c hquote hslash e ptr hu ih =>
    simp only [List.mem_cons, not_or] at hs
    exact prepend_valid (zero_notin_cons (unescape_ne_zero (Ne.symm hs.2.1)) List.not_mem_nil) (ih hs.2.2) h
  | case6 c _ _ e _ a b c' d ptr uc _ =>
    rename_i ih
    simp only [List.mem_cons, not_or] at hs
    exact ih (by tauto) h
  | case7 c _ _ e _ a b c' d uc _ _ s u ptr _ =>
    rename_i ih
    simp only [List.mem_cons, not_or] at hs
    exact ih (by simp only [List.mem_cons, not_or]; tauto) h
  | case8 c _ _ e _ a b c' d uc _ _ s u _ a' b' c'' d' ptr uc2 =>
    rename_i ih
    simp only [List.mem_cons, not_or] at hs
    exact ih (by tauto) h
  | case9 c _ _ e _ a b c' d uc _ _ s u _ a' b' c'' d' ptr uc2 =>
    rename_i ih
    simp only [List.mem_cons, not_or] at hs
    exact prepend_valid (zero_notin_utf8 (by omega)) (ih (by tauto)) h
  | case10 => contradiction
  | case11 c _ _ e _ a b c' d uc _ _ ptr _ =>
    rename_i ih
    simp only [List.mem_cons, not_or] at hs
    exact ih (by tauto) h
  | case12 c _ _ e _ a b c' d ptr uc hvalid _ =>
    rename_i ih
    simp only [List.mem_cons, not_or] at hs
    exact prepend_valid (zero_notin_utf8 (not_or.mp hvalid).2) (ih (by tauto)) h
  | case13 => contradiction

theorem zero_notin_skip {s : Text} (h : 0 ∉ s) : 0 ∉ skip s := fun hmem => h ((List.dropWhile_suffix _).subset hmem)

theorem zero_notin_tail {s : Text} (h : 0 ∉ s) : 0 ∉ s.tail := fun hmem => h (List.mem_of_mem_tail hmem)

theorem zero_notin_drop {s : Text} (n : Nat) (h : 0 ∉ s) : 0 ∉ s.drop n := fun hmem => h (List.mem_of_mem_drop hmem)

theorem parseString_valid {s out ptr : Text} (hs : 0 ∉ s) (h : parseString s = some (out, ptr)) : 0 ∉ out ∧ 0 ∉ ptr := by
  rw [parseString.eq_def] at h
  split at h
  · split at h
    · obtain ⟨len, -, h⟩ := Option.bind_eq_some_iff.mp h
      obtain ⟨⟨out', ptr'⟩, hchars, h⟩ := Option.bind_eq_some_iff.mp h
      dsimp only at h
      split_ifs at h
      cases h
      exact parseChars_valid (fun hmem => hs (List.mem_cons_of_mem _ hmem)) hchars
    · contradiction
  · contradiction

theorem zero_notin_without {s : Text} (p : UInt8 → Bool) (h : 0 ∉ s) : 0 ∉ without s p := by
  rw [without]
  split
  · exact zero_notin_tail h
  · exact h

theorem parseNumber_valid {s rest : Text} {item : Item} (hs : 0 ∉ s) (h : parseNumber s = some (item, rest)) :
    item.Plain ∧ 0 ∉ rest := by
  dsimp only [parseNumber] at h
  have hnum := zero_notin_without (· = byte '0') (zero_notin_without (· = byte '-') hs)
  generalize without (without s (· = byte '-')) (· = byte '0') = num at h hnum
  generalize (if startsWith num (fun c => byte '1' ≤ c ∧ c ≤ byte '9') then num.takeWhile isDigit else []) = digits at h
  have hdrop := zero_notin_drop digits.length hnum
  generalize num.drop digits.length = num' at h hdrop
  generalize (if startsWith num' (· = byte '.') then num'.tail.takeWhile isDigit else []) = fraction at h
  have hfraction : 0 ∉ (if fraction = [] then num' else num'.tail.drop fraction.length) := by
    split
    · exact hdrop
    · exact zero_notin_drop _ (zero_notin_tail hdrop)
  generalize (if fraction = [] then num' else num'.tail.drop fraction.length) = num'' at h hfraction
  have hexponent : 0 ∉ (without num''.tail fun c => c = byte '+' ∨ c = byte '-').dropWhile isDigit := fun hmem =>
    zero_notin_without _ (zero_notin_tail hfraction) ((List.dropWhile_suffix _).subset hmem)
  split_ifs at h
  · cases h; exact ⟨trivial, hexponent⟩
  · cases h; exact ⟨trivial, hexponent⟩
  · cases h; exact ⟨trivial, hfraction⟩

mutual

theorem parseValue_valid : ∀ (n : Nat) {s rest : Text} {item : Item}, 0 ∉ s → parseValue n s = some (item, rest) →
    item.Plain ∧ 0 ∉ rest
  | 0, _, _, _, _, h => by cases h
  | n + 1, s, rest, item, hs, h => by
    rw [parseValue] at h
    split_ifs at h with hnull hfalse htrue hstring hnumber harray
    · cases h; exact ⟨trivial, zero_notin_drop 4 hs⟩
    · cases h; exact ⟨trivial, zero_notin_drop 5 hs⟩
    · cases h; exact ⟨trivial, zero_notin_drop 4 hs⟩
    · obtain ⟨⟨str, value⟩, hstr, heq⟩ := Option.map_eq_some_iff.mp h
      cases heq
      exact parseString_valid hs hstr
    · exact parseNumber_valid hs h
    · dsimp only at h
      split_ifs at h
      · cases h
        exact ⟨trivial, zero_notin_tail (zero_notin_skip (zero_notin_tail hs))⟩
      · obtain ⟨⟨item, value⟩, hitem, h⟩ := Option.bind_eq_some_iff.mp h
        obtain ⟨⟨next, value'⟩, hnext, h⟩ := Option.bind_eq_some_iff.mp h
        cases h
        have hvalid := parseValue_valid n (zero_notin_skip (zero_notin_tail hs)) hitem
        have hrest := parseItems_valid n (zero_notin_skip hvalid.2) hnext
        exact ⟨⟨hvalid.1, hrest.1⟩, hrest.2⟩
    · dsimp only at h
      split_ifs at h
      · cases h
        exact ⟨trivial, zero_notin_tail (zero_notin_skip (zero_notin_tail hs))⟩
      · obtain ⟨⟨string, value⟩, hname, h⟩ := Option.bind_eq_some_iff.mp h
        have hstring := parseString_valid (zero_notin_skip (zero_notin_tail hs)) hname
        dsimp only at h
        split_ifs at h
        obtain ⟨⟨item, value'⟩, hitem, h⟩ := Option.bind_eq_some_iff.mp h
        obtain ⟨⟨next, value''⟩, hnext, h⟩ := Option.bind_eq_some_iff.mp h
        cases h
        have hvalid := parseValue_valid n (zero_notin_skip (zero_notin_tail (zero_notin_skip hstring.2))) hitem
        have hrest := parseFields_valid n (zero_notin_skip hvalid.2) hnext
        exact ⟨⟨hstring.1, hvalid.1, hrest.1⟩, hrest.2⟩

theorem parseItems_valid : ∀ (n : Nat) {s rest : Text} {next : Items}, 0 ∉ s → parseItems n s = some (next, rest) →
    next.All (fun _ => True) (0 ∉ ·) ∧ 0 ∉ rest
  | 0, _, _, _, _, h => by cases h
  | n + 1, s, rest, next, hs, h => by
    rw [parseItems] at h
    split_ifs at h
    · obtain ⟨⟨item, value⟩, hitem, h⟩ := Option.bind_eq_some_iff.mp h
      obtain ⟨⟨next, value'⟩, hnext, h⟩ := Option.bind_eq_some_iff.mp h
      cases h
      have hvalid := parseValue_valid n (zero_notin_skip (zero_notin_tail hs)) hitem
      have hrest := parseItems_valid n (zero_notin_skip hvalid.2) hnext
      exact ⟨⟨hvalid.1, hrest.1⟩, hrest.2⟩
    · cases h
      exact ⟨trivial, zero_notin_tail hs⟩

theorem parseFields_valid : ∀ (n : Nat) {s rest : Text} {next : Fields}, 0 ∉ s → parseFields n s = some (next, rest) →
    next.All (fun _ => True) (0 ∉ ·) ∧ 0 ∉ rest
  | 0, _, _, _, _, h => by cases h
  | n + 1, s, rest, next, hs, h => by
    rw [parseFields] at h
    split_ifs at h
    · obtain ⟨⟨string, value⟩, hname, h⟩ := Option.bind_eq_some_iff.mp h
      have hstring := parseString_valid (zero_notin_skip (zero_notin_tail hs)) hname
      dsimp only at h
      split_ifs at h
      obtain ⟨⟨item, value'⟩, hitem, h⟩ := Option.bind_eq_some_iff.mp h
      obtain ⟨⟨next, value''⟩, hnext, h⟩ := Option.bind_eq_some_iff.mp h
      cases h
      have hvalid := parseValue_valid n (zero_notin_skip (zero_notin_tail (zero_notin_skip hstring.2))) hitem
      have hrest := parseFields_valid n (zero_notin_skip hvalid.2) hnext
      exact ⟨⟨hstring.1, hvalid.1, hrest.1⟩, hrest.2⟩
    · cases h
      exact ⟨trivial, zero_notin_tail hs⟩

end

theorem zero_notin_cstr (s : Text) : 0 ∉ cstr s := fun hmem => absurd (List.mem_takeWhile_imp hmem) (by decide)

/-- A text is accepted for an item whose strings have no terminator inside. -/
theorem plain_of_parse {s : Text} {t : Item} (h : parse s = some t) : t.Plain := by
  obtain ⟨⟨item, rest⟩, hvalue, rfl⟩ := Option.map_eq_some_iff.mp h
  exact (parseValue_valid _ (zero_notin_skip (zero_notin_cstr s)) hvalue).1

end Accepted

section Printed

theorem zero_notin_append {s t : Text} (hs : 0 ∉ s) (ht : 0 ∉ t) : 0 ∉ s ++ t := List.not_mem_append hs ht

theorem zero_notin_onlyFmt {fmt : Bool} {s : Text} (h : 0 ∉ s) : 0 ∉ onlyFmt fmt s := by
  cases fmt with
  | false => exact List.not_mem_nil
  | true => exact h

theorem zero_notin_newline (depth : Nat) : 0 ∉ byte '\n' :: tabs depth :=
  zero_notin_cons (by decide) fun hmem => absurd (List.eq_of_mem_replicate hmem) (by decide)

theorem zero_notin_hex4 (token : UInt8) : 0 ∉ hex4 token := by
  have h : ∀ d < 16, byte (Nat.digitChar d) ≠ 0 := by decide
  have hlt := token.toNat_lt
  exact zero_notin_cons (by decide) (zero_notin_cons (by decide) (zero_notin_cons (h _ (by omega))
    (zero_notin_cons (h _ (by omega)) List.not_mem_nil)))

theorem zero_notin_escaped {token : UInt8} (h : token ≠ 0) : 0 ∉ escaped token := by
  rw [escaped]
  split_ifs
  · exact zero_notin_cons h List.not_mem_nil
  all_goals first | decide | exact zero_notin_cons (by decide) (zero_notin_cons (by decide) (zero_notin_hex4 token))

theorem zero_notin_printStringPtr (str : Text) : 0 ∉ printStringPtr str := by
  refine zero_notin_cons (by decide) (zero_notin_append ?_ (by decide))
  intro hmem
  obtain ⟨token, htoken, hzero⟩ := List.mem_flatMap.mp hmem
  exact zero_notin_escaped (fun heq => zero_notin_cstr str (heq ▸ htoken)) hzero

theorem zero_notin_printNumber {num : Number} (h : num.Whole) : 0 ∉ printNumber fmtDouble num := by
  rw [printNumber_eq fmtDouble h]
  refine zero_notin_append ?_ fun hmem => absurd (isDigit_digits 0 hmem) (by decide)
  cases num.negative with
  | false => exact List.not_mem_nil
  | true => decide

theorem zero_notin_name (fmt : Bool) {c : UInt8} (hc : c ≠ 0) (depth : Nat) (string : Text) :
    0 ∉ c :: onlyFmt fmt (byte '\n' :: tabs depth) ++ printStringPtr string ++ byte ':' :: onlyFmt fmt [byte '\t'] :=
  zero_notin_append (zero_notin_append (zero_notin_cons hc (zero_notin_onlyFmt (zero_notin_newline depth)))
    (zero_notin_printStringPtr string)) (zero_notin_cons (by decide) (zero_notin_onlyFmt (by decide)))

mutual

theorem zero_notin_printValue (fmt : Bool) : ∀ {item : Item} (_ : item.Valid) (depth : Nat), 0 ∉ printValue fmtDouble fmt item depth
  | .null, _, _ => by rw [printValue]; decide
  | .false, _, _ => by rw [printValue]; decide
  | .true, _, _ => by rw [printValue]; decide
  | .number _, h, _ => zero_notin_printNumber fmtDouble h
  | .string valuestring, _, _ => zero_notin_printStringPtr valuestring
  | .array .nil, _, _ => by rw [printValue]; decide
  | .array (.cons _ _), h, depth =>
    zero_notin_append (zero_notin_append (zero_notin_cons (by decide) (zero_notin_printValue fmt h.1 (depth + 1)))
      (zero_notin_printItems fmt h.2 (depth + 1))) (by decide)
  | .object .nil, _, depth =>
    zero_notin_append (zero_notin_cons (by decide) (zero_notin_onlyFmt (zero_notin_newline (depth - 1)))) (by decide)
  | .object (.cons string _ _), h, depth =>
    zero_notin_append (zero_notin_append (zero_notin_append (zero_notin_append (zero_notin_name fmt (by decide) (depth + 1) string)
      (zero_notin_printValue fmt h.2.1 (depth + 1))) (zero_notin_printFields fmt h.2.2 (depth + 1)))
      (zero_notin_onlyFmt (zero_notin_newline depth))) (by decide)

theorem zero_notin_printItems (fmt : Bool) : ∀ {next : Items} (_ : next.Valid) (depth : Nat), 0 ∉ printItems fmtDouble fmt next depth
  | .nil, _, _ => List.not_mem_nil
  | .cons _ _, h, depth =>
    zero_notin_append (zero_notin_append (zero_notin_cons (by decide) (zero_notin_onlyFmt (by decide)))
      (zero_notin_printValue fmt h.1 depth)) (zero_notin_printItems fmt h.2 depth)

theorem zero_notin_printFields (fmt : Bool) : ∀ {next : Fields} (_ : next.Valid) (depth : Nat),
    0 ∉ printFields fmtDouble fmt next depth
  | .nil, _, _ => List.not_mem_nil
  | .cons string _ _, h, depth =>
    zero_notin_append (zero_notin_append (zero_notin_name fmt (by decide) depth string)
      (zero_notin_printValue fmt h.2.1 depth)) (zero_notin_printFields fmt h.2.2 depth)

end

end Printed

theorem ends_nil : Ends [] := fun _ h => by cases h

/-- What is printed is parsed back, formatted or not, when no string has a terminator inside and a double counts the
numbers exactly. -/
theorem parse_print (fmt : Bool) {t : Item} (h : t.Valid) : parse (print fmtDouble fmt t) = some t := by
  have hskip : skip (print fmtDouble fmt t) = print fmtDouble fmt t := by
    have := skip_printValue fmtDouble fmt h 0 []
    rwa [List.append_nil] at this
  have hvalue := parseValue_print fmtDouble fmt t 0 ((print fmtDouble fmt t).length + 1) [] h ends_nil (Nat.le_add_right _ 1)
  rw [List.append_nil] at hvalue
  have hcstr : cstr (print fmtDouble fmt t) = print fmtDouble fmt t := cstr_eq (zero_notin_printValue fmtDouble fmt h 0)
  rw [parse]
  simp only [hcstr, hskip]
  exact congrArg (Option.map Prod.fst) hvalue

def nestedItem : Item :=
  .object (.cons [byte 'a', 10] (.array (.cons (.number ⟨true, 7, 0, 0⟩) (.cons (.string [0xC3, 0xA9, byte '"'])
    (.cons (.object .nil) .nil)))) (.cons [byte 'b'] (.number ⟨false, 2^53, 0, 0⟩) .nil))

theorem nestedItem_printed : parse (print (fun _ => []) true nestedItem) = some nestedItem := by
  have hseven : Number.Whole ⟨true, 7, 0, 0⟩ := by decide
  have hlast : Number.Whole ⟨false, 2^53, 0, 0⟩ := by decide
  have hname : (0 : UInt8) ∉ [byte 'a', 10] ∧ (0 : UInt8) ∉ [0xC3, 0xA9, byte '"'] ∧ (0 : UInt8) ∉ [byte 'b'] := by decide
  exact parse_print _ true ⟨hname.1, ⟨hseven, hname.2.1, trivial, trivial⟩, hname.2.2, hlast, trivial⟩

end SuperNet.Utils.CJSON
