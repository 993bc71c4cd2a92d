import SuperNet.Coins.CointxRoundTrip

/-! Which strings the decoder treats soundly: it stays inside its memory and
accepts nothing but complete encodings. -/
namespace SuperNet.Coins.Cointx
open Lib.AccessLog Lib.Bytes Utils.Hex

/-- The four forms of a variable length integer, canonical or not. -/
inductive IsVarint : List UInt8 → Nat → Prop
  | byte (c : UInt8) (h : c.toNat < 0xfd) : IsVarint [c] c.toNat
  | two (bs : List UInt8) (h : bs.length = 2) : IsVarint (0xfd :: bs) (leValue bs)
  | four (bs : List UInt8) (h : bs.length = 4) : IsVarint (0xfe :: bs) (leValue bs)
  | eight (bs : List UInt8) (h : bs.length = 8) : IsVarint (0xff :: bs) (leValue bs)

def IsCounted (bytes : List UInt8) : Prop :=
  ∃ count body n, bytes = count ++ body ∧ IsVarint count n ∧ body.length = n

def IsInput (bytes : List UInt8) : Prop :=
  ∃ outpoint sigs sequence, bytes = outpoint ++ (sigs ++ sequence) ∧ outpoint.length = 36 ∧ IsCounted sigs ∧
    sequence.length = 4

def IsOutput (bytes : List UInt8) : Prop :=
  ∃ value script, bytes = value ++ script ∧ value.length = 8 ∧ IsCounted script

def IsList (item : List UInt8 → Prop) (bytes : List UInt8) : Prop :=
  ∃ (count : List UInt8) (items : List (List UInt8)), bytes = count ++ items.flatten ∧ IsVarint count items.length ∧ ∀ i ∈ items, item i

/-- A complete encoding of a transaction, with nothing left over. -/
def IsComplete (oldtx : Int) (bytes : List UInt8) : Prop :=
  ∃ header inputs outputs locktime, bytes = header ++ (inputs ++ (outputs ++ locktime)) ∧
    header.length = (if oldtx = 0 then 8 else 4) ∧ IsList IsInput inputs ∧ IsList IsOutput outputs ∧ locktime.length = 4

/-- The decoder reads only the bytes of the string, stores only what fits and
accepts only complete encodings. -/
structure Sound (junk : Memory) (hexstr : List Char) (oldtx : Int) : Prop where
  safe : (decodeRawtransaction junk hexstr oldtx).Safe (hexstr.length >>> 1)
  complete : (decodeRawtransaction junk hexstr oldtx).value ≠ none →
    IsComplete oldtx (decodeHex (hexstr.length >>> 1) hexstr)

/-- The scan consumes all bytes or is caught. -/
def Scan.Ends {α : Type} : Scan α → Prop
  | .item _ rest => rest = []
  | .caught => True
  | .fault => False

/-- The string is refused at once, or it is a complete encoding whose strings fit,
or its first defect is one that the decoder tests for before it reads on: a length
of signatures or script that is cut off or too large, too many outputs, or too many
inputs with four bytes after their number. -/
def Tolerated (hexstr : List Char) (oldtx : Int) : Prop :=
  refused hexstr = true ∨ (scanTx oldtx (decodeHex (hexstr.length >>> 1) hexstr)).Ends

section Invert
variable {α β : Type}

theorem andThen_item {s : Scan α} {g : α → List UInt8 → Scan β} {b : β} {rest : List UInt8}
    (h : s.andThen g = .item b rest) : ∃ a tail, s = .item a tail ∧ g a tail = .item b rest := by
  cases s with
  | item a tail => exact ⟨a, tail, rfl, h⟩
  | caught => cases h
  | fault => cases h

theorem scanUint32_item {tail rest : List UInt8} {x : UInt32} (h : scanUint32 tail = .item x rest) :
    ∃ a, tail = a ++ rest ∧ a.length = 4 := by
  rw [scanUint32] at h
  split at h
  · rename_i h4
    injection h with _ hrest
    exact ⟨tail.take 4, by rw [← hrest, List.take_append_drop], by rw [List.length_take, Nat.min_eq_left h4]⟩
  · cases h

private theorem scanFixed_some {w v : Nat} {tail rest : List UInt8} (h : scanFixed w tail = some (v, rest)) :
    ∃ a, tail = a ++ rest ∧ a.length = w ∧ v = leValue a := by
  rw [scanFixed] at h
  split at h
  · rename_i hw
    obtain ⟨hv, hrest⟩ := Prod.mk.inj (Option.some.inj h)
    exact ⟨tail.take w, by rw [← hrest, List.take_append_drop], by rw [List.length_take, Nat.min_eq_left hw], hv.symm⟩
  · cases h

theorem scanVarint_some {tail rest : List UInt8} {v : Nat} (h : scanVarint tail = some (v, rest)) :
    ∃ a, tail = a ++ rest ∧ IsVarint a v := by
  cases tail with
  | nil => cases h
  | cons c tail =>
    rw [scanVarint] at h
    by_cases hfd : c = 0xfd
    · rw [if_pos hfd] at h
      obtain ⟨a, ha, hl, rfl⟩ := scanFixed_some h
      exact ⟨c :: a, by rw [ha]; rfl, by rw [hfd]; exact .two a hl⟩
    rw [if_neg hfd] at h
    by_cases hfe : c = 0xfe
    · rw [if_pos hfe] at h
      obtain ⟨a, ha, hl, rfl⟩ := scanFixed_some h
      exact ⟨c :: a, by rw [ha]; rfl, by rw [hfe]; exact .four a hl⟩
    rw [if_neg hfe] at h
    by_cases hff : c = 0xff
    · rw [if_pos hff] at h
      obtain ⟨a, ha, hl, rfl⟩ := scanFixed_some h
      exact ⟨c :: a, by rw [ha]; rfl, by rw [hff]; exact .eight a hl⟩
    rw [if_neg hff] at h
    obtain ⟨rfl, rfl⟩ := Prod.mk.inj (Option.some.inj h)
    refine ⟨[c], rfl, .byte c ?_⟩
    have hlt := UInt8.toNat_lt c
    have hne : ∀ d : UInt8, c ≠ d → c.toNat ≠ d.toNat := fun d hd he => hd (UInt8.toNat_inj.mp he)
    have h1 : c.toNat ≠ 253 := hne 0xfd hfd
    have h2 : c.toNat ≠ 254 := hne 0xfe hfe
    have h3 : c.toNat ≠ 255 := hne 0xff hff
    omega

theorem IsVarint.scan {a rest : List UInt8} {v : Nat} (h : IsVarint a v) : scanVarint (a ++ rest) = some (v, rest) := by
  have hfixed : ∀ (w : Nat) (bs : List UInt8), bs.length = w → scanFixed w (bs ++ rest) = some (leValue bs, rest) := by
    intro w bs hl
    rw [scanFixed, if_pos (by rw [List.length_append]; omega), List.take_left' hl, List.drop_left' hl]
  cases h with
  | byte c hc =>
    have hne : ∀ d : UInt8, 0xfd ≤ d.toNat → c ≠ d := by
      rintro d hd rfl
      omega
    rw [List.cons_append, scanVarint, if_neg (hne 0xfd (by decide)), if_neg (hne 0xfe (by decide)),
      if_neg (hne 0xff (by decide))]
    rfl
  | two bs hl => exact hfixed 2 bs hl
  | four bs hl => exact hfixed 4 bs hl
  | eight bs hl => exact hfixed 8 bs hl

theorem scanHex_item {limit : Nat} {tail rest : List UInt8} {s : List Char} (h : scanHex limit tail = .item s rest) :
    ∃ a, tail = a ++ rest ∧ IsCounted a := by
  rw [scanHex] at h
  cases hv : scanVarint tail with
  | none => rw [hv] at h; cases h
  | some p =>
    obtain ⟨n, tail₁⟩ := p
    rw [hv] at h
    dsimp only at h
    split at h
    · cases h
    · split at h
      · rename_i hn
        injection h with _ hrest
        obtain ⟨count, rfl, hcount⟩ := scanVarint_some hv
        refine ⟨count ++ tail₁.take n, ?_, count, tail₁.take n, n, rfl, hcount, ?_⟩
        · rw [← hrest, List.append_assoc, List.take_append_drop]
        · rw [List.length_take, Nat.min_eq_left hn.1]
      · cases h

/-- A counted string is scanned past or stops the scan. -/
theorem IsCounted.scan {limit : Nat} {a rest rest' : List UInt8} {s : List Char} (ha : IsCounted a)
    (h : scanHex limit (a ++ rest) = .item s rest') : rest' = rest := by
  obtain ⟨count, body, n, rfl, hcount, hbody⟩ := ha
  rw [scanHex, List.append_assoc, hcount.scan] at h
  dsimp only at h
  split at h
  · cases h
  · split at h
    · injection h with _ hrest
      rw [← hrest, List.drop_left' hbody]
    · cases h

theorem scanVin_item {tail rest : List UInt8} {vin : CointxInput} (h : scanVin tail = .item vin rest) :
    ∃ a, tail = a ++ rest ∧ IsInput a := by
  rw [scanVin] at h
  split at h
  · rename_i h32
    obtain ⟨vout, tail₁, h1, h⟩ := andThen_item h
    obtain ⟨sigs, tail₂, h2, h⟩ := andThen_item h
    obtain ⟨sequence, tail₃, h3, h⟩ := andThen_item h
    injection h with _ hrest
    obtain ⟨v, hv, hvl⟩ := scanUint32_item h1
    obtain ⟨s, rfl, hs⟩ := scanHex_item h2
    obtain ⟨q, rfl, hq⟩ := scanUint32_item h3
    subst hrest
    refine ⟨(tail.take 32 ++ v) ++ (s ++ q), ?_, tail.take 32 ++ v, s, q, rfl, ?_, hs, hq⟩
    · conv_lhs => rw [← List.take_append_drop 32 tail, hv]
      simp only [List.append_assoc]
    · rw [List.length_append, List.length_take, Nat.min_eq_left h32, hvl]
  · cases h

theorem IsInput.scan {a rest rest' : List UInt8} {vin : CointxInput} (ha : IsInput a)
    (h : scanVin (a ++ rest) = .item vin rest') : rest' = rest := by
  obtain ⟨outpoint, sigs, sequence, rfl, hout, hsigs, hseq⟩ := ha
  rw [scanVin] at h
  split at h
  · obtain ⟨vout, tail₁, h1, h⟩ := andThen_item h
    obtain ⟨str, tail₂, h2, h⟩ := andThen_item h
    obtain ⟨q, tail₃, h3, h⟩ := andThen_item h
    injection h with _ hrest
    obtain ⟨v, hv, hvl⟩ := scanUint32_item h1
    have hv' : outpoint.drop 32 ++ (sigs ++ (sequence ++ rest)) = v ++ tail₁ := by
      rw [← hv, List.append_assoc, List.append_assoc, List.drop_append_of_le_length (by omega)]
    obtain ⟨-, rfl⟩ := List.append_inj hv' (by rw [List.length_drop]; omega)
    obtain rfl := hsigs.scan h2
    obtain ⟨q', hq, hql⟩ := scanUint32_item h3
    obtain ⟨-, htail⟩ := List.append_inj hq (by omega)
    rw [← hrest, htail]
  · cases h

theorem scanVout_item {tail rest : List UInt8} {vout : Rawvout} (h : scanVout tail = .item vout rest) :
    ∃ a, tail = a ++ rest ∧ IsOutput a := by
  rw [scanVout] at h
  obtain ⟨low, tail₁, h1, h⟩ := andThen_item h
  obtain ⟨high, tail₂, h2, h⟩ := andThen_item h
  obtain ⟨script, tail₃, h3, h⟩ := andThen_item h
  injection h with _ hrest
  obtain ⟨v, rfl, hv⟩ := scanUint32_item h1
  obtain ⟨w, rfl, hw⟩ := scanUint32_item h2
  obtain ⟨s, rfl, hs⟩ := scanHex_item h3
  subst hrest
  refine ⟨(v ++ w) ++ s, ?_, v ++ w, s, rfl, ?_, hs⟩
  · simp only [List.append_assoc]
  · rw [List.length_append, hv, hw]

theorem IsOutput.scan {a rest rest' : List UInt8} {vout : Rawvout} (ha : IsOutput a)
    (h : scanVout (a ++ rest) = .item vout rest') : rest' = rest := by
  obtain ⟨value, script, rfl, hvalue, hscript⟩ := ha
  rw [scanVout] at h
  obtain ⟨low, tail₁, h1, h⟩ := andThen_item h
  obtain ⟨high, tail₂, h2, h⟩ := andThen_item h
  obtain ⟨str, tail₃, h3, h⟩ := andThen_item h
  injection h with _ hrest
  obtain ⟨v, hv, hvl⟩ := scanUint32_item h1
  obtain ⟨w, rfl, hwl⟩ := scanUint32_item h2
  have hcut : value ++ (script ++ rest) = (v ++ w) ++ tail₂ := by
    rw [← List.append_assoc, hv, List.append_assoc]
  obtain ⟨-, rfl⟩ := List.append_inj hcut (by rw [List.length_append]; omega)
  rw [← hrest, hscript.scan h3]

variable {scan : List UInt8 → Scan α} {item : List UInt8 → Prop}

theorem scanItems_item (hscan : ∀ tail a rest, scan tail = .item a rest → ∃ i, tail = i ++ rest ∧ item i)
    {n : Nat} {tail rest : List UInt8} {as : List α} (h : scanItems scan n tail = .item as rest) :
    ∃ items : List (List UInt8), tail = items.flatten ++ rest ∧ items.length = n ∧ ∀ i ∈ items, item i := by
  induction n generalizing tail as with
  | zero =>
    injection h with _ hrest
    subst hrest
    exact ⟨[], rfl, rfl, fun i hi => absurd hi List.not_mem_nil⟩
  | succ n ih =>
    obtain ⟨a, tail₁, h1, h⟩ := andThen_item h
    obtain ⟨as', tail₂, h2, h⟩ := andThen_item h
    injection h with _ hrest
    subst hrest
    obtain ⟨i, rfl, hi⟩ := hscan _ _ _ h1
    obtain ⟨items, rfl, hlen, hitems⟩ := ih h2
    refine ⟨i :: items, ?_, by rw [List.length_cons, hlen], ?_⟩
    · rw [List.flatten_cons, List.append_assoc]
    · intro j hj
      rcases List.mem_cons.mp hj with rfl | hj
      · exact hi
      · exact hitems j hj

theorem scanItems_rest (hscan : ∀ i rest a rest', item i → scan (i ++ rest) = .item a rest' → rest' = rest)
    {items : List (List UInt8)} (hitems : ∀ i ∈ items, item i) {rest rest' : List UInt8} {as : List α}
    (h : scanItems scan items.length (items.flatten ++ rest) = .item as rest') : rest' = rest := by
  induction items generalizing as with
  | nil =>
    injection h with _ hrest
    exact hrest.symm
  | cons i items ih =>
    rw [List.flatten_cons, List.append_assoc] at h
    obtain ⟨a, tail₁, h1, h⟩ := andThen_item h
    obtain ⟨as', tail₂, h2, h⟩ := andThen_item h
    injection h with _ hrest
    obtain rfl := hscan _ _ _ _ (hitems i (List.mem_cons_self ..)) h1
    subst hrest
    exact ih (fun j hj => hitems j (List.mem_cons_of_mem i hj)) h2

end Invert

private theorem header_item {oldtx : Int} {tail rest : List UInt8} {t : UInt32}
    (h : (if oldtx = 0 then scanUint32 tail else .item 0 tail) = .item t rest) :
    ∃ a, tail = a ++ rest ∧ a.length = if oldtx = 0 then 4 else 0 := by
  split at h
  · rename_i hold
    rw [if_pos hold]
    exact scanUint32_item h
  · rename_i hold
    injection h with _ hrest
    rw [if_neg hold]
    exact ⟨[], by rw [hrest]; rfl, rfl⟩

theorem scanTx_parts {oldtx : Int} {bytes rest : List UInt8} {tx : CointxInfo} (h : scanTx oldtx bytes = .item tx rest) :
    ∃ header tail numinputs tail₁ ins tail₂ numoutputs tail₃ outs tail₄ lock, bytes = header ++ tail ∧
      header.length = (if oldtx = 0 then 8 else 4) ∧ scanVarint tail = some (numinputs, tail₁) ∧
      scanItems scanVin numinputs tail₁ = .item ins tail₂ ∧ scanVarint tail₂ = some (numoutputs, tail₃) ∧
      scanItems scanVout numoutputs tail₃ = .item outs tail₄ ∧ scanUint32 tail₄ = .item lock rest := by
  obtain ⟨version, tail₁, h1, hafter⟩ := andThen_item h
  clear h
  obtain ⟨timestamp, tail₂, h2, h⟩ := andThen_item hafter
  clear hafter
  obtain ⟨v, rfl, hv⟩ := scanUint32_item h1
  obtain ⟨t, rfl, ht⟩ := header_item h2
  cases h3 : scanVarint tail₂ with
  | none => rw [h3] at h; cases h
  | some p =>
    rw [h3] at h
    dsimp only at h
    split at h
    · split at h <;> cases h
    · obtain ⟨ins, tail₃, h4, h⟩ := andThen_item h
      rw [scanRest] at h
      cases h5 : scanVarint tail₃ with
      | none => rw [h5] at h; cases h
      | some q =>
        rw [h5] at h
        dsimp only at h
        split at h
        · cases h
        · obtain ⟨outs, tail₄, h6, h⟩ := andThen_item h
          obtain ⟨lock, tail₅, h7, h⟩ := andThen_item h
          injection h with _ hrest
          subst hrest
          refine ⟨v ++ t, tail₂, p.1, p.2, ins, tail₃, q.1, q.2, outs, tail₄, lock, ?_, ?_, h3, h4, h5, h6, h7⟩
          · rw [List.append_assoc]
          · rw [List.length_append, hv, ht]
            split <;> rfl

theorem scanTx_complete {oldtx : Int} {bytes : List UInt8} {tx : CointxInfo} (h : scanTx oldtx bytes = .item tx []) :
    IsComplete oldtx bytes := by
  obtain ⟨header, tail, numinputs, tail₁, ins, tail₂, numoutputs, tail₃, outs, tail₄, lock, rfl, hheader, h1, h2, h3,
    h4, h5⟩ := scanTx_parts h
  obtain ⟨c₁, rfl, hc₁⟩ := scanVarint_some h1
  obtain ⟨inputs, rfl, hn₁, hinputs⟩ := scanItems_item (fun _ _ _ => scanVin_item) h2
  obtain ⟨c₂, rfl, hc₂⟩ := scanVarint_some h3
  obtain ⟨outputs, rfl, hn₂, houtputs⟩ := scanItems_item (fun _ _ _ => scanVout_item) h4
  obtain ⟨l, rfl, hl⟩ := scanUint32_item h5
  refine ⟨header, c₁ ++ inputs.flatten, c₂ ++ outputs.flatten, l, ?_, hheader, ?_, ?_, hl⟩
  · simp only [List.append_assoc, List.append_nil]
  · exact ⟨c₁, inputs, rfl, by rw [hn₁]; exact hc₁, hinputs⟩
  · exact ⟨c₂, outputs, rfl, by rw [hn₂]; exact hc₂, houtputs⟩

/-- A complete encoding leaves nothing for the scan to stop in front of. -/
theorem IsComplete.scan {oldtx : Int} {bytes rest : List UInt8} {tx : CointxInfo} (hc : IsComplete oldtx bytes)
    (h : scanTx oldtx bytes = .item tx rest) : rest = [] := by
  obtain ⟨header', inputs, outputs, locktime, rfl, hheader', ⟨c₁, ins', rfl, hc₁, hins⟩, ⟨c₂, outs', rfl, hc₂, houts⟩,
    hlock⟩ := hc
  obtain ⟨header, tail, numinputs, tail₁, ins, tail₂, numoutputs, tail₃, outs, tail₄, lock, hbytes, hheader, h1, h2, h3,
    h4, h5⟩ := scanTx_parts h
  obtain ⟨-, rfl⟩ := List.append_inj hbytes (by rw [hheader, hheader'])
  rw [List.append_assoc, hc₁.scan] at h1
  obtain ⟨rfl, rfl⟩ := Prod.mk.inj (Option.some.inj h1)
  obtain rfl := scanItems_rest (fun _ _ _ _ => IsInput.scan) hins h2
  rw [List.append_assoc, hc₂.scan] at h3
  obtain ⟨rfl, rfl⟩ := Prod.mk.inj (Option.some.inj h3)
  obtain rfl := scanItems_rest (fun _ _ _ _ => IsOutput.scan) houts h4
  obtain ⟨l, hl, hlen⟩ := scanUint32_item h5
  have hcount := congrArg List.length hl
  rw [List.length_append] at hcount
  exact List.length_eq_zero_iff.mp (by omega)

/-- The decoder is sound on exactly the tolerated strings, whatever lies around its buffer. -/
theorem sound_iff_tolerated (junk : Memory) (hexstr : List Char) (oldtx : Int) :
    Sound junk hexstr oldtx ↔ Tolerated hexstr oldtx := by
  cases hgate : refused hexstr with
  | true =>
    have hrun : decodeRawtransaction junk hexstr oldtx = pure none := by
      rw [decodeRawtransaction, hgate, if_pos rfl]
    refine ⟨fun _ => .inl hgate, fun _ => ⟨?_, ?_⟩⟩
    · rw [hrun]
      exact safe_pure _ _
    · rw [hrun]
      exact fun hne => absurd rfl hne
  | false =>
    obtain ⟨hdec, hlen⟩ := decodeHex_accepted hgate
    have hbytes : (decodeHex (hexstr.length >>> 1) hexstr).length = hexstr.length >>> 1 := by
      rw [hdec, hexLoop_length]
    have hrun : decodeRawtransaction junk hexstr oldtx =
        decodeData (memory (decodeHex (hexstr.length >>> 1) hexstr) junk)
          (decodeHex (hexstr.length >>> 1) hexstr).length hexstr oldtx := by
      rw [decodeRawtransaction, hgate, if_neg Bool.false_ne_true, hbytes]
    have hfollow := decodeData_follows junk hexstr oldtx (decodeHex (hexstr.length >>> 1) hexstr)
    rw [← hrun] at hfollow
    cases hscan : scanTx oldtx (decodeHex (hexstr.length >>> 1) hexstr) with
    | item tx rest =>
      rw [hscan] at hfollow
      obtain ⟨hsafe, pos, -, hvalue⟩ := hfollow
      rw [hbytes] at hsafe
      have hends : Tolerated hexstr oldtx ↔ rest = [] := by
        rw [Tolerated, hgate, hscan]
        exact ⟨fun h => h.resolve_left Bool.false_ne_true, .inr⟩
      rw [hends]
      constructor
      · intro hsound
        refine (hsound.complete ?_).scan hscan
        rw [hvalue, returned]
        exact Option.some_ne_none _
      · rintro rfl
        exact ⟨hsafe, fun _ => scanTx_complete hscan⟩
    | caught =>
      rw [hscan] at hfollow
      obtain ⟨hsafe, hvalue⟩ := hfollow
      rw [hbytes] at hsafe
      refine ⟨fun _ => .inr ?_, fun _ => ⟨hsafe, fun hne => absurd hvalue hne⟩⟩
      rw [hscan]
      trivial
    | fault =>
      rw [hscan] at hfollow
      constructor
      · intro hsound
        refine absurd ?_ hfollow
        rw [hbytes]
        exact hsound.safe
      · rintro (h | h)
        · exact absurd (hgate.symm.trans h) Bool.false_ne_true
        · rw [hscan] at h
          exact h.elim

/-- The one byte string 00 is decoded as a transaction from memory around the buffer. -/
theorem not_sound_single_byte : ¬ Sound (fun _ => 0) ['0', '0'] 1 := by
  intro h
  have hread : Access.read 3 ∈ (decodeRawtransaction (fun _ => 0) ['0', '0'] 1).log := by decide +kernel
  have hinside := h.safe _ hread
  exact absurd hinside.2 (by decide)

end SuperNet.Coins.Cointx
