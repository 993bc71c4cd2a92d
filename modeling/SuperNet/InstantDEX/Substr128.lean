import Mathlib.Tactic
import SuperNet.Utils.NXT777

/-! The short form of an unsigned transaction in trades.h: `substr128` of the sender, and the string that
`swap_verifyNXT` makes of it again. -/
namespace SuperNet.InstantDEX.Substr128
open Utils.NXT777 (NUL)

def UTXSIZE : Nat := 32768

/-- An array with some characters stored from place `i` on; none where they do not all fit. -/
def put (buf : List Char) (i : Nat) (cs : List Char) : Option (List Char) :=
  if i + cs.length ≤ buf.length then some (buf.take i ++ cs ++ buf.drop (i + cs.length)) else none

def cstr (buf : List Char) : List Char := buf.takeWhile (· ≠ NUL)

def strstr (s pat : List Char) : Option Nat := (List.range (s.length + 1)).find? fun m => pat.isPrefixOf (s.drop m)

def zeroes : List Char := List.replicate 128 '0'

def shiftLoop (m : Nat) : Nat → Nat → List Char → Option (List Char)
  | 0, _, _ => none
  | n + 1, i, dest =>
    match dest[m + 128 + i]? with
    | none => none
    | some c => if c = NUL then put dest (m + i + 1) [NUL] else (put dest (m + i + 1) [c]).bind (shiftLoop m n (i + 1))

def substr128 (dest src : List Char) : Option (List Char) :=
  (put dest 0 (src ++ [NUL])).bind fun dest =>
    match strstr (cstr dest) zeroes with
    | none => some dest
    | some m => (put dest m ['Z', NUL]).bind fun dest => shiftLoop m dest.length 0 dest

/-- The check of `swap_verifyNXT`, which answers with -1 where it fails: "UTX overflow". -/
def UTXFits (utx : List Char) : Prop := utx.length ≤ UTXSIZE

/-- What `swap_verifyNXT` then does to `UTX`. -/
def expandUTX (UTX utx : List Char) : Option (List Char) :=
  match utx.findIdx? (· = 'Z') with
  | none => some UTX
  | some i =>
    (put UTX 0 (utx.take i)).bind fun UTX => (put UTX i zeroes).bind fun UTX => (put UTX (i + 128) [NUL]).bind fun UTX =>
      put UTX (cstr UTX).length (utx.drop (i + 1) ++ [NUL])

def Hexstr (s : List Char) : Prop := ∀ c ∈ s, c ∈ "0123456789abcdef".toList

/-- Where the check is passed, `UTX` holds the string that was sent in the end, whatever it held before. -/
def Rebuilds (dest s : List Char) : Prop :=
  ∃ utx, substr128 dest s = some utx ∧ (UTXFits (cstr utx) → ∀ UTX : List Char, UTX.length = UTXSIZE →
    ∃ UTX', expandUTX UTX (cstr utx) = some UTX' ∧ cstr UTX' = s ∧ NUL ∈ UTX')

section Strings
variable {a b c s : List Char}

theorem cstr_append (h : NUL ∉ a) (b : List Char) : cstr (a ++ NUL :: b) = a := by
  have hall : ∀ x ∈ a, decide (x ≠ NUL) = true := fun x hx => decide_eq_true fun heq => h (heq ▸ hx)
  rw [cstr, List.takeWhile_append_of_pos hall, List.takeWhile_cons_of_neg (by simp), List.append_nil]

theorem put_append {w : List Char} (h : b.length = w.length) : put (a ++ b ++ c) a.length w = some (a ++ w ++ c) := by
  rw [put, if_pos (by simp only [List.length_append]; omega), List.append_assoc a b c, List.take_left, ← List.append_assoc,
    ← h, ← List.length_append, List.drop_left]

/-- Characters stored behind the first ones take the place of as many. -/
theorem put_behind {w : List Char} (h : w.length ≤ b.length) : put (a ++ b) a.length w = some (a ++ w ++ b.drop w.length) := by
  have hput := put_append (a := a) (b := b.take w.length) (c := b.drop w.length) (w := w) (by rw [List.length_take]; omega)
  rw [List.append_assoc, List.take_append_drop] at hput
  exact hput

theorem put_fits {i : Nat} {cs buf buf' : List Char} (h : put buf i cs = some buf') :
    i + cs.length ≤ buf.length ∧ buf'.length = buf.length := by
  rw [put] at h
  split at h
  case isTrue hfit =>
    obtain rfl := Option.some.inj h
    refine ⟨hfit, ?_⟩
    simp only [List.length_append, List.length_take, List.length_drop]
    omega
  case isFalse => cases h

theorem strstr_some {pat : List Char} {m : Nat} (h : strstr s pat = some m) :
    ∃ rest, s = s.take m ++ pat ++ rest ∧ (s.take m).length = m := by
  have hprefix := List.find?_some h
  have hm := List.mem_range.mp (List.mem_of_find?_eq_some h)
  obtain ⟨rest, hrest⟩ := List.isPrefixOf_iff_prefix.mp hprefix
  refine ⟨rest, ?_, by rw [List.length_take]; omega⟩
  rw [List.append_assoc, hrest, List.take_append_drop]

theorem strstr_isSome {pat : List Char} : (strstr s pat).isSome ↔ pat <:+: s := by
  constructor
  · intro h
    obtain ⟨m, hm⟩ := Option.isSome_iff_exists.mp h
    obtain ⟨rest, hs, -⟩ := strstr_some hm
    exact ⟨s.take m, rest, hs.symm⟩
  · rintro ⟨front, rest, rfl⟩
    rw [strstr, List.find?_isSome]
    refine ⟨front.length, ?_, ?_⟩
    · rw [List.mem_range]
      simp only [List.length_append]
      omega
    · rw [List.append_assoc, List.drop_left, List.isPrefixOf_iff_prefix]
      exact List.prefix_append pat rest

theorem Hexstr.nul (h : Hexstr s) : NUL ∉ s := fun hmem => absurd (h _ hmem) (by decide)

theorem Hexstr.mark (h : Hexstr s) : 'Z' ∉ s := fun hmem => absurd (h _ hmem) (by decide)

end Strings

section Compress
variable {s dest : List Char}

/-- The loop moves the rest of the string to its place behind the mark, over a gap of 127 characters. -/
theorem shiftLoop_spec (m : Nat) (rest : List Char) (hrest : NUL ∉ rest) (junk : List Char) :
    ∀ (done gap : List Char) (n i : Nat), done.length = m + i + 1 → gap.length = 127 → rest.length < n →
      ∃ tail, shiftLoop m n i (done ++ gap ++ (rest ++ NUL :: junk)) = some (done ++ rest ++ NUL :: tail) := by
  induction rest with
  | nil =>
    intro done gap n i hdone hgap hn
    obtain ⟨n, rfl⟩ := Nat.exists_eq_add_of_lt hn
    obtain ⟨g, gap, rfl⟩ := List.exists_cons_of_length_pos (l := gap) (by omega)
    have hat : (done ++ g :: gap ++ ([] ++ NUL :: junk))[m + 128 + i]? = some NUL := by
      rw [List.getElem?_append_right (by simp only [List.length_append]; omega)]
      have hzero : m + 128 + i - (done ++ g :: gap).length = 0 := by
        rw [List.length_append]
        omega
      rw [hzero]
      rfl
    refine ⟨gap ++ NUL :: junk, ?_⟩
    have hput := put_append (a := done) (b := [g]) (c := gap ++ NUL :: junk) (w := [NUL]) rfl
    rw [hdone] at hput
    rw [shiftLoop, hat]
    dsimp only
    rw [if_pos rfl, List.append_nil, List.nil_append]
    simpa using hput
  | cons c rest ih =>
    intro done gap n i hdone hgap hn
    rw [List.mem_cons, not_or] at hrest
    obtain ⟨n, rfl⟩ := Nat.exists_eq_add_of_lt (Nat.zero_lt_of_lt hn)
    obtain ⟨g, gap, rfl⟩ := List.exists_cons_of_length_pos (l := gap) (by omega)
    have hat : (done ++ g :: gap ++ (c :: rest ++ NUL :: junk))[m + 128 + i]? = some c := by
      rw [List.getElem?_append_right (by simp only [List.length_append]; omega)]
      have hzero : m + 128 + i - (done ++ g :: gap).length = 0 := by
        rw [List.length_append]
        omega
      rw [hzero]
      rfl
    have hput := put_append (a := done) (b := [g]) (c := gap ++ (c :: rest ++ NUL :: junk)) (w := [c]) rfl
    have hdest : done ++ [g] ++ (gap ++ (c :: rest ++ NUL :: junk)) = done ++ g :: gap ++ (c :: rest ++ NUL :: junk) := by
      simp
    have hnext : done ++ [c] ++ (gap ++ (c :: rest ++ NUL :: junk)) = done ++ [c] ++ (gap ++ [c]) ++ (rest ++ NUL :: junk) := by
      simp
    rw [hdest, hdone, hnext] at hput
    rw [List.length_cons] at hn hgap
    obtain ⟨tail, htail⟩ := ih hrest.2 (done ++ [c]) (gap ++ [c]) n (i + 1)
      (by rw [List.length_append, List.length_singleton]; omega) (by rw [List.length_append, List.length_singleton]; omega)
      (by omega)
    refine ⟨tail, ?_⟩
    rw [Nat.zero_add, shiftLoop, hat]
    dsimp only
    rw [if_neg (Ne.symm hrest.1), hput, Option.bind_some, htail, List.append_assoc done [c] rest, List.singleton_append]

/-- The string with its first run of 128 zeroes replaced by the mark. -/
def short (s : List Char) : List Char :=
  match strstr s zeroes with
  | none => s
  | some m => s.take m ++ 'Z' :: s.drop (m + 128)

theorem short_of_run (front rest : List Char) (h : strstr (front ++ zeroes ++ rest) zeroes = some front.length) :
    short (front ++ zeroes ++ rest) = front ++ 'Z' :: rest := by
  have hlen : (front ++ zeroes).length = front.length + 128 := by
    rw [List.length_append, zeroes, List.length_replicate]
  rw [short, h]
  dsimp only
  rw [← hlen, List.drop_left, List.append_assoc, List.take_left]

theorem substr128_eq (hs : NUL ∉ s) (hfit : s.length < dest.length) :
    ∃ utx, substr128 dest s = some utx ∧ cstr utx = short s := by
  have hcopy : put dest 0 (s ++ [NUL]) = some (s ++ NUL :: dest.drop (s.length + 1)) := by
    have hput := put_behind (a := []) (b := dest) (w := s ++ [NUL])
      (by rw [List.length_append, List.length_singleton]; omega)
    rw [List.nil_append, List.nil_append, List.length_append, List.length_singleton, List.append_assoc] at hput
    exact hput
  rw [substr128, hcopy, Option.bind_some, cstr_append hs]
  cases hfind : strstr s zeroes with
  | none =>
    refine ⟨_, rfl, ?_⟩
    rw [short, hfind]
    exact cstr_append hs _
  | some m =>
    obtain ⟨rest, hrest, hm⟩ := strstr_some hfind
    generalize s.take m = front at hrest hm
    subst hrest hm
    rw [List.mem_append, List.mem_append, not_or, not_or] at hs
    have hmark : put (front ++ zeroes ++ rest ++ NUL :: dest.drop ((front ++ zeroes ++ rest).length + 1)) front.length
        ['Z', NUL] = some (front ++ ['Z'] ++ (NUL :: List.replicate 126 '0') ++
          (rest ++ NUL :: dest.drop ((front ++ zeroes ++ rest).length + 1))) := by
      have hput := put_append (a := front) (b := ['0', '0'])
        (c := List.replicate 126 '0' ++ (rest ++ NUL :: dest.drop ((front ++ zeroes ++ rest).length + 1)))
        (w := ['Z', NUL]) rfl
      have hzeroes : zeroes = ['0', '0'] ++ List.replicate 126 '0' := rfl
      have hbefore : front ++ ['0', '0'] ++ (List.replicate 126 '0' ++
          (rest ++ NUL :: dest.drop ((front ++ zeroes ++ rest).length + 1))) =
          front ++ zeroes ++ rest ++ NUL :: dest.drop ((front ++ zeroes ++ rest).length + 1) := by
        simp only [hzeroes, List.append_assoc]
      rw [hbefore] at hput
      rw [hput]
      simp only [List.append_assoc, List.cons_append, List.nil_append]
    obtain ⟨tail, htail⟩ := shiftLoop_spec front.length rest hs.2 (dest.drop ((front ++ zeroes ++ rest).length + 1))
      (front ++ ['Z']) (NUL :: List.replicate 126 '0')
      (front ++ ['Z'] ++ (NUL :: List.replicate 126 '0') ++
        (rest ++ NUL :: dest.drop ((front ++ zeroes ++ rest).length + 1))).length 0
      (by rw [List.length_append, List.length_singleton]) (by rw [List.length_cons, List.length_replicate])
      (by simp only [List.length_append, List.length_cons]; omega)
    dsimp only
    rw [hmark, Option.bind_some, htail, short_of_run front rest hfind]
    refine ⟨_, rfl, ?_⟩
    have hnul : NUL ∉ front ++ ['Z'] ++ rest := by
      rw [List.mem_append, List.mem_append, List.mem_singleton, not_or, not_or]
      exact ⟨⟨hs.1.1, by decide⟩, hs.2⟩
    rw [cstr_append hnul, List.append_assoc, List.singleton_append]

end Compress

section Expand
variable {UTX front rest : List Char}

theorem findIdx?_mark (h : 'Z' ∉ front) (rest : List Char) :
    (front ++ 'Z' :: rest).findIdx? (· = 'Z') = some front.length := by
  induction front with
  | nil => rfl
  | cons c front ih =>
    rw [List.mem_cons, not_or] at h
    rw [List.cons_append, List.findIdx?_cons, ih h.2, if_neg (by simpa using Ne.symm h.1), Option.map_some, List.length_cons]

/-- The array before the rest of the string is stored. -/
theorem expandUTX_eq (UTX rest : List Char) (hmark : 'Z' ∉ front) (hnul : NUL ∉ front) (hroom : front.length + 129 ≤ UTX.length) :
    ∃ junk, junk.length = UTX.length - (front.length + 129) ∧ expandUTX UTX (front ++ 'Z' :: rest) =
      put (front ++ zeroes ++ NUL :: junk) (front ++ zeroes).length (rest ++ [NUL]) := by
  have hlen : (front ++ zeroes).length = front.length + 128 := by
    rw [List.length_append, zeroes, List.length_replicate]
  have hzeroes : zeroes.length = 128 := List.length_replicate
  have hfirst : put UTX 0 front = some (front ++ UTX.drop front.length) := by
    have hput := put_behind (a := []) (b := UTX) (w := front) (by omega)
    rw [List.nil_append, List.nil_append] at hput
    exact hput
  have hsecond := put_behind (a := front) (b := UTX.drop front.length) (w := zeroes) (by rw [List.length_drop]; omega)
  have hthird := put_behind (a := front ++ zeroes) (b := (UTX.drop front.length).drop zeroes.length) (w := [NUL])
    (by rw [List.length_drop, List.length_drop, List.length_singleton]; omega)
  rw [hlen] at hthird
  have hboth : NUL ∉ front ++ zeroes := by
    rw [List.mem_append, not_or]
    exact ⟨hnul, fun h => absurd (List.eq_of_mem_replicate h) (by decide)⟩
  have hdrop : (front ++ 'Z' :: rest).drop (front.length + 1) = rest := by
    rw [← List.singleton_append, ← List.append_assoc]
    have hskip : front.length + 1 = (front ++ ['Z']).length := by rw [List.length_append, List.length_singleton]
    rw [hskip, List.drop_left]
  refine ⟨((UTX.drop front.length).drop zeroes.length).drop 1, ?_, ?_⟩
  · rw [List.length_drop, List.length_drop, List.length_drop]
    omega
  · rw [expandUTX, findIdx?_mark hmark]
    dsimp only
    rw [List.take_left, hfirst, Option.bind_some, hsecond, Option.bind_some, hthird, Option.bind_some, hdrop,
      List.append_assoc _ [NUL], List.singleton_append, cstr_append hboth]
    rfl

/-- The string is put together again where it fits. -/
theorem expandUTX_iff (hmark : 'Z' ∉ front) (hnul : NUL ∉ front) (hrest : NUL ∉ rest) :
    (∃ UTX', expandUTX UTX (front ++ 'Z' :: rest) = some UTX' ∧ cstr UTX' = front ++ zeroes ++ rest ∧ NUL ∈ UTX') ↔
      (front ++ zeroes ++ rest).length < UTX.length := by
  have hlen : (front ++ zeroes ++ rest).length = front.length + 128 + rest.length := by
    rw [List.length_append, List.length_append, zeroes, List.length_replicate]
  constructor
  · rintro ⟨UTX', hexpand, -⟩
    have hroom : front.length + 129 ≤ UTX.length := by
      rw [expandUTX, findIdx?_mark hmark] at hexpand
      obtain ⟨first, hfirst, hexpand⟩ := Option.bind_eq_some_iff.mp hexpand
      obtain ⟨second, hsecond, hexpand⟩ := Option.bind_eq_some_iff.mp hexpand
      obtain ⟨third, hthird, -⟩ := Option.bind_eq_some_iff.mp hexpand
      have hfit := (put_fits hthird).1
      rw [(put_fits hsecond).2, (put_fits hfirst).2, List.length_singleton] at hfit
      omega
    obtain ⟨junk, hjunk, heq⟩ := expandUTX_eq UTX rest hmark hnul hroom
    rw [heq] at hexpand
    have hfit := (put_fits hexpand).1
    simp only [List.length_append, List.length_cons, List.length_nil] at hfit hlen ⊢
    omega
  · intro hfit
    obtain ⟨junk, hjunk, heq⟩ := expandUTX_eq UTX rest hmark hnul (by omega)
    have hput := put_behind (a := front ++ zeroes) (b := NUL :: junk) (w := rest ++ [NUL])
      (by simp only [List.length_append, List.length_cons, List.length_nil]; omega)
    have hall : NUL ∉ front ++ zeroes ++ rest := by
      rw [List.mem_append, List.mem_append, not_or, not_or]
      exact ⟨⟨hnul, fun h => absurd (List.eq_of_mem_replicate h) (by decide)⟩, hrest⟩
    refine ⟨_, heq.trans hput, ?_, by simp⟩
    rw [← List.append_assoc, List.append_assoc _ [NUL], List.singleton_append]
    exact cstr_append hall _

theorem expandUTX_no_mark {utx : List Char} (h : 'Z' ∉ utx) (UTX : List Char) : expandUTX UTX utx = some UTX := by
  have hnone : utx.findIdx? (· = 'Z') = none := by
    rw [List.findIdx?_eq_none_iff]
    exact fun c hc => decide_eq_false fun heq => h (heq ▸ hc)
  rw [expandUTX, hnone]

end Expand

section Swap
variable {s dest : List Char}

theorem rebuilds_of_run (hs : Hexstr s) (hroom : s.length < dest.length) (hrun : zeroes <:+: s) :
    Rebuilds dest s ↔ s.length < UTXSIZE ∨ UTXSIZE + 127 < s.length := by
  obtain ⟨utx, hutx, hshort⟩ := substr128_eq hs.nul hroom
  obtain ⟨m, hm⟩ := Option.isSome_iff_exists.mp (strstr_isSome.mpr hrun)
  obtain ⟨rest, hrest, hlen⟩ := strstr_some hm
  generalize s.take m = front at hrest hlen
  subst hrest hlen
  rw [short_of_run front rest hm] at hshort
  have hmark : 'Z' ∉ front := fun h => hs.mark (List.mem_append_left rest (List.mem_append_left zeroes h))
  have hnul : NUL ∉ front := fun h => hs.nul (List.mem_append_left rest (List.mem_append_left zeroes h))
  have hrest : NUL ∉ rest := fun h => hs.nul (List.mem_append_right (front ++ zeroes) h)
  have hcheck : UTXFits (cstr utx) ↔ (front ++ zeroes ++ rest).length ≤ UTXSIZE + 127 := by
    rw [UTXFits, hshort, zeroes]
    simp only [List.length_append, List.length_cons, List.length_replicate]
    omega
  constructor
  · rintro ⟨utx', hutx', hall⟩
    obtain rfl := Option.some.inj (hutx.symm.trans hutx')
    rcases Nat.lt_or_ge (UTXSIZE + 127) (front ++ zeroes ++ rest).length with hlong | hshorter
    · exact Or.inr hlong
    · have hsome := hall (hcheck.mpr hshorter) (List.replicate UTXSIZE NUL) List.length_replicate
      rw [hshort, expandUTX_iff hmark hnul hrest, List.length_replicate] at hsome
      exact Or.inl hsome
  · intro hfit
    refine ⟨utx, hutx, fun hpassed UTX hUTX => ?_⟩
    rw [hcheck] at hpassed
    rw [hshort, expandUTX_iff hmark hnul hrest, hUTX]
    exact hfit.resolve_right (Nat.not_lt.mpr hpassed)

/-- Without a run of zeroes the receiver stores nothing, so what it has does not depend on the string. -/
theorem rebuilds_of_no_run (hs : Hexstr s) (hroom : s.length < dest.length) (hrun : ¬ zeroes <:+: s) :
    Rebuilds dest s ↔ UTXSIZE < s.length := by
  obtain ⟨utx, hutx, hshort⟩ := substr128_eq hs.nul hroom
  have hnone : strstr s zeroes = none := by
    rw [← Option.not_isSome_iff_eq_none, strstr_isSome]
    exact hrun
  have hsame : cstr utx = s := by rw [hshort, short, hnone]
  constructor
  · rintro ⟨utx', hutx', hall⟩
    obtain rfl := Option.some.inj (hutx.symm.trans hutx')
    by_contra hpassed
    rw [hsame] at hall
    obtain ⟨UTX', hUTX', hcstr, -⟩ := hall (Nat.not_lt.mp hpassed) ('Z' :: List.replicate (UTXSIZE - 1) NUL) (by
      rw [List.length_cons, List.length_replicate]
      rfl)
    rw [expandUTX_no_mark hs.mark] at hUTX'
    obtain rfl := Option.some.inj hUTX'
    have hmem : 'Z' ∈ s := by
      rw [← hcstr, cstr, List.takeWhile_cons_of_pos (by decide)]
      exact List.mem_cons_self
    exact hs.mark hmem
  · intro hlong
    refine ⟨utx, hutx, fun hpassed => ?_⟩
    rw [UTXFits, hsame] at hpassed
    exact absurd hlong (Nat.not_lt.mpr hpassed)

/-- The receiver makes the string again where it has a run to leave out and ends within `UTX`; a string whose
short form the check refuses makes no difference. -/
theorem rebuilds_iff (s dest : List Char) (hs : Hexstr s) (hroom : s.length < dest.length) :
    Rebuilds dest s ↔ if zeroes <:+: s then s.length < UTXSIZE ∨ UTXSIZE + 127 < s.length else UTXSIZE < s.length := by
  split
  case isTrue hrun => exact rebuilds_of_run hs hroom hrun
  case isFalse hrun => exact rebuilds_of_no_run hs hroom hrun

theorem rebuilds_iff_zeroes : Rebuilds (List.replicate 200 NUL) zeroes ↔
    if zeroes <:+: zeroes then zeroes.length < UTXSIZE ∨ UTXSIZE + 127 < zeroes.length else UTXSIZE < zeroes.length :=
  rebuilds_iff zeroes (List.replicate 200 NUL)
    (fun c hc => by rw [List.eq_of_mem_replicate hc]; decide)
    (by rw [zeroes, List.length_replicate, List.length_replicate]; decide)

/-- The string `00` has no run: the receiver is left with what happened to be in `UTX`. -/
theorem not_rebuilds_00 : Hexstr ['0', '0'] ∧ ¬ Rebuilds (List.replicate 4096 NUL) ['0', '0'] := by
  have hhex : Hexstr ['0', '0'] := by
    intro c hc
    obtain rfl : c = '0' := by simpa using hc
    decide
  refine ⟨hhex, fun h => ?_⟩
  have hrun : ¬ zeroes <:+: ['0', '0'] := fun h => absurd h.length_le (by rw [zeroes, List.length_replicate]; decide)
  rw [rebuilds_of_no_run hhex (by rw [List.length_replicate]; decide) hrun] at h
  exact absurd h (by decide)

end Swap

end SuperNet.InstantDEX.Substr128
