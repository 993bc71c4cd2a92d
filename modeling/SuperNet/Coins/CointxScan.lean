import SuperNet.Coins.Cointx

/-! The decoder against a scan of the byte list. A scan consumes fields from the
front; it says `caught` where the decoder notices a defect before touching memory
it should not touch, and `fault` where it does not. -/
namespace SuperNet.Coins.Cointx
open Lib.AccessLog Lib.Bytes Utils.Hex

inductive Scan (α : Type) where
  | item (a : α) (rest : List UInt8)
  | caught
  | fault

variable {α β γ δ : Type}

def Scan.andThen : Scan α → (α → List UInt8 → Scan β) → Scan β
  | .item a rest, f => f a rest
  | .caught, _ => .caught
  | .fault, _ => .fault

def scanUint32 (tail : List UInt8) : Scan UInt32 :=
  if 4 ≤ tail.length then .item (UInt32.ofNat (leValue (tail.take 4))) (tail.drop 4) else .fault

def scanFixed (w : Nat) (tail : List UInt8) : Option (Nat × List UInt8) :=
  if w ≤ tail.length then some (leValue (tail.take w), tail.drop w) else none

def scanVarint : List UInt8 → Option (Nat × List UInt8)
  | [] => none
  | c :: tail =>
    if c = 0xfd then scanFixed 2 tail
    else if c = 0xfe then scanFixed 4 tail
    else if c = 0xff then scanFixed 8 tail
    else some (c.toNat, tail)

/-- A counted string: the decoder tests the count against `limit` bytes but stores
two characters for each byte and an end mark in `limit` characters. -/
def scanHex (limit : Nat) (tail : List UInt8) : Scan (List Char) :=
  match scanVarint tail with
  | none => .caught
  | some (n, rest) =>
    if n > limit then .caught
    else if n ≤ rest.length ∧ 2 * n + 1 ≤ limit then .item (initHexbytesNoT (rest.take n)) (rest.drop n)
    else .fault

def scanVin (tail : List UInt8) : Scan CointxInput :=
  if 32 ≤ tail.length then
    (scanUint32 (tail.drop 32)).andThen fun vout tail' =>
      (scanHex sizeofSigs tail').andThen fun sigs tail'' =>
        (scanUint32 tail'').andThen fun sequence rest =>
          .item ⟨initHexbytesNoT (tail.take 32).reverse, vout.toUInt16, sigs, sequence⟩ rest
  else .fault

def scanVout (tail : List UInt8) : Scan Rawvout :=
  (scanUint32 tail).andThen fun low tail =>
    (scanUint32 tail).andThen fun high tail =>
      (scanHex sizeofScript tail).andThen fun script rest =>
        .item ⟨high.toUInt64 <<< 32 ||| low.toUInt64, script⟩ rest

def scanItems (scan : List UInt8 → Scan α) : Nat → List UInt8 → Scan (List α)
  | 0, tail => .item [] tail
  | n+1, tail => (scan tail).andThen fun a tail =>
      (scanItems scan n tail).andThen fun items rest => .item (a :: items) rest

/-- The outputs and the lock time. -/
def scanRest (version timestamp : UInt32) (inputs : List CointxInput) (tail : List UInt8) : Scan CointxInfo :=
  match scanVarint tail with
  | none => .fault
  | some (numoutputs, tail) =>
    if numoutputs > maxCointxOutputs then .caught
    else (scanItems scanVout numoutputs tail).andThen fun outputs tail =>
      (scanUint32 tail).andThen fun nlocktime rest => .item ⟨version, timestamp, inputs, outputs, nlocktime⟩ rest

def scanTx (oldtx : Int) (bytes : List UInt8) : Scan CointxInfo :=
  (scanUint32 bytes).andThen fun version tail =>
    (if oldtx = 0 then scanUint32 tail else .item 0 tail).andThen fun timestamp tail =>
      match scanVarint tail with
      | none => .fault
      | some (numinputs, tail) =>
        if numinputs > maxCointxInputs then (if 4 ≤ tail.length then .caught else .fault)
        else (scanItems scanVin numinputs tail).andThen (scanRest version timestamp)

section Follow
variable {bytes tail : List UInt8} {pos : Nat} (junk : Memory)

private theorem Tail.split (h : Tail bytes pos tail) (n : Nat) : Tail bytes pos (tail.take n ++ tail.drop n) := by
  rw [List.take_append_drop]
  exact h

private theorem shifted_value (b0 b1 b2 b3 : UInt8) :
    ((b3.toNat <<< 8 ||| b2.toNat) <<< 8 ||| b1.toNat) <<< 8 ||| b0.toNat = leValue [b0, b1, b2, b3] := by
  have h : ∀ (x : Nat) (b : UInt8), x <<< 8 ||| b.toNat = 256 * x + b.toNat := by
    intro x b
    rw [← Nat.shiftLeft_add_eq_or_of_lt (UInt8.toNat_lt b), Nat.shiftLeft_eq]
    omega
  rw [h, h, h, leValue_cons, leValue_cons, leValue_cons, leValue_cons]
  simp [leValue]
  omega

theorem decodeUint32_item (h : Tail bytes pos tail) (h4 : 4 ≤ tail.length) :
    (decodeUint32 (memory bytes junk) pos bytes.length).Safe bytes.length ∧
    (decodeUint32 (memory bytes junk) pos bytes.length).value =
      (UInt32.ofNat (leValue (tail.take 4)), ((pos + 4 : Nat) : Int)) ∧ Tail bytes (pos + 4) (tail.drop 4) := by
  have hl := h.length
  have hnext := (Tail.split h 4).advance
  have h0 := h.byte junk 0 (by omega)
  have h1 := h.byte junk 1 (by omega)
  have h2 := h.byte junk 2 (by omega)
  have h3 := h.byte junk 3 (by omega)
  push_cast at h0 h1 h2 h3
  rw [List.length_take, Nat.min_eq_left h4] at hnext
  refine ⟨?_, ?_, hnext⟩
  · rw [decodeUint32]
    simp only [safe_bind, safe_readByte, safe_pure, and_true]
    omega
  · rw [decodeUint32]
    simp only [value_bind, value_pure, readByte, shifted_value, h0, h1, h2, h3]
    rw [if_neg (by omega)]
    match tail, h4 with
    | b0 :: b1 :: b2 :: b3 :: rest, _ => rfl

theorem decodeUint32_fault (h : Tail bytes pos tail) (h4 : tail.length < 4) :
    ¬ (decodeUint32 (memory bytes junk) pos bytes.length).Safe bytes.length := by
  have hl := h.length
  rw [decodeUint32]
  simp only [safe_bind, safe_readByte, safe_pure, and_true]
  omega

private theorem readFixed (h : Tail bytes pos tail) (w : Nat) (hw : w ≤ tail.length) :
    (readBytes (memory bytes junk) pos w).Safe bytes.length ∧
    (readBytes (memory bytes junk) pos w).value = tail.take w ∧ Tail bytes (pos + w) (tail.drop w) := by
  have hl := h.length
  have hsplit := Tail.split h w
  have hv := hsplit.readBytes_value junk
  have hnext := hsplit.advance
  rw [List.length_take, Nat.min_eq_left hw] at hv hnext
  exact ⟨safe_readBytes.mpr (.inr (by omega)), hv, hnext⟩

private theorem varintField_spec (h : Tail bytes pos tail) (w : Nat) :
    (varintField (memory bytes junk) pos bytes.length w).Safe bytes.length ∧
    match scanFixed w tail with
    | none => (varintField (memory bytes junk) pos bytes.length w).value = (0, -1)
    | some (v, rest) => ∃ pos' : Nat, Tail bytes pos' rest ∧
        (varintField (memory bytes junk) pos bytes.length w).value = (v, (pos' : Int)) := by
  have hl := h.length
  rw [scanFixed, varintField]
  by_cases hw : w ≤ tail.length
  · obtain ⟨hs, hv, ht⟩ := readFixed junk h w hw
    rw [if_neg (by omega), if_pos hw]
    refine ⟨safe_bind.mpr ⟨hs, safe_pure _ _⟩, pos + w, ht, ?_⟩
    rw [value_bind, hv, value_pure, Nat.cast_add]
  · rw [if_pos (by omega), if_neg hw]
    exact ⟨safe_pure _ _, rfl⟩

/-- `hdecode_varint` tests every bound before it reads. -/
theorem hdecodeVarint_spec (h : Tail bytes pos tail) :
    (hdecodeVarint (memory bytes junk) pos bytes.length).Safe bytes.length ∧
    match scanVarint tail with
    | none => (hdecodeVarint (memory bytes junk) pos bytes.length).value = (0, -1)
    | some (v, rest) => ∃ pos' : Nat, Tail bytes pos' rest ∧
        (hdecodeVarint (memory bytes junk) pos bytes.length).value = (v, (pos' : Int)) := by
  have hl := h.length
  cases tail with
  | nil =>
    rw [List.length_nil] at hl
    rw [hdecodeVarint, if_pos (by omega)]
    exact ⟨safe_pure _ _, rfl⟩
  | cons c tail =>
    rw [List.length_cons] at hl
    have hbyte := h.byte junk 0 (by simp)
    have hnext : Tail bytes (pos + 1) tail := h.advance (a := [c])
    have hread : (readByte (memory bytes junk) pos).value = c := by simpa [readByte] using hbyte
    have hsafe : (readByte (memory bytes junk) pos).Safe bytes.length := safe_readByte.mpr (by omega)
    have hfield := varintField_spec junk hnext
    rw [Nat.cast_add, Nat.cast_one] at hfield
    rw [hdecodeVarint, if_neg (by omega), scanVarint, safe_bind, value_bind, hread]
    by_cases hfd : c = 0xfd
    · rw [if_pos hfd, if_pos hfd]
      exact ⟨⟨hsafe, (hfield 2).1⟩, (hfield 2).2⟩
    rw [if_neg hfd, if_neg hfd]
    by_cases hfe : c = 0xfe
    · rw [if_pos hfe, if_pos hfe]
      exact ⟨⟨hsafe, (hfield 4).1⟩, (hfield 4).2⟩
    rw [if_neg hfe, if_neg hfe]
    by_cases hff : c = 0xff
    · rw [if_pos hff, if_pos hff]
      exact ⟨⟨hsafe, (hfield 8).1⟩, (hfield 8).2⟩
    rw [if_neg hff, if_neg hff]
    exact ⟨⟨hsafe, safe_pure _ _⟩, pos + 1, hnext, rfl⟩

/-- A computation does what the scan of the rest of the string says: `ok` is its
value for a scanned item and the position after it, `no` its value for a caught defect. -/
def Follows (bytes : List UInt8) (ok : α → Nat → γ) (no : γ) (m : Logged γ) : Scan α → Prop
  | .item a rest => m.Safe bytes.length ∧ ∃ pos, Tail bytes pos rest ∧ m.value = ok a pos
  | .caught => m.Safe bytes.length ∧ m.value = no
  | .fault => ¬ m.Safe bytes.length

variable {ok : β → Nat → γ} {no : γ}

theorem follows_step {m : Logged δ} {f : δ → Logged γ} {s : Scan β} {v : δ} (hm : m.Safe bytes.length)
    (hv : m.value = v) (hf : Follows bytes ok no (f v) s) : Follows bytes ok no (m >>= f) s := by
  subst hv
  cases s with
  | item a rest => exact ⟨safe_bind.mpr ⟨hm, hf.1⟩, hf.2⟩
  | caught => exact ⟨safe_bind.mpr ⟨hm, hf.1⟩, hf.2⟩
  | fault => exact fun hs => hf (safe_bind.mp hs).2

theorem follows_fault {m : Logged δ} {f : δ → Logged γ} (hm : ¬ m.Safe bytes.length) :
    Follows bytes ok no (m >>= f) .fault :=
  fun hs => hm (safe_bind.mp hs).1

/-- The value of an item decoder: the item and the next offset. -/
def found (a : α) (pos : Nat) : Option (α × Int) := some (a, (pos : Int))

theorem follows_andThen {m : Logged (Option (α × Int))} {s : Scan α} {f : Option (α × Int) → Logged γ}
    {g : α → List UInt8 → Scan β} (hm : Follows bytes found none m s)
    (hf : ∀ a (pos : Nat) rest, Tail bytes pos rest → Follows bytes ok no (f (some (a, (pos : Int)))) (g a rest))
    (hnone : f none = pure no) : Follows bytes ok no (m >>= f) (s.andThen g) := by
  cases s with
  | item a rest =>
    obtain ⟨hs, pos, ht, hv⟩ := hm
    exact follows_step hs hv (hf a pos rest ht)
  | caught =>
    obtain ⟨hs, hv⟩ := hm
    refine follows_step (s := .caught) hs hv ?_
    rw [hnone]
    exact ⟨safe_pure _ _, rfl⟩
  | fault => exact follows_fault hm

theorem follows_uint32 (h : Tail bytes pos tail) {f : UInt32 × Int → Logged γ} {g : UInt32 → List UInt8 → Scan β}
    (hf : ∀ x (pos' : Nat) rest, Tail bytes pos' rest → Follows bytes ok no (f (x, (pos' : Int))) (g x rest)) :
    Follows bytes ok no (decodeUint32 (memory bytes junk) pos bytes.length >>= f) ((scanUint32 tail).andThen g) := by
  rw [scanUint32]
  by_cases h4 : 4 ≤ tail.length
  · obtain ⟨hs, hv, ht⟩ := decodeUint32_item junk h h4
    rw [if_pos h4]
    exact follows_step hs hv (hf _ _ _ ht)
  · rw [if_neg h4]
    exact follows_fault (decodeUint32_fault junk h (not_le.mp h4))

/-- The counted strings of `_decode_vin` and `_decode_vout`. -/
theorem follows_hex (h : Tail bytes pos tail) (limit : Nat) (f : List Char → Int → Logged γ)
    {g : List Char → List UInt8 → Scan β}
    (hf : ∀ str (pos' : Nat) rest, Tail bytes pos' rest → Follows bytes ok no (f str pos') (g str rest)) :
    Follows bytes ok no
      (hdecodeVarint (memory bytes junk) pos bytes.length >>= fun p =>
        if p.2 < 0 ∨ p.1 > limit then pure no
        else readBytes (memory bytes junk) p.2 p.1 >>= fun bs => storeHex limit bs >>= fun str => f str (p.2 + p.1))
      ((scanHex limit tail).andThen g) := by
  obtain ⟨hs, hv⟩ := hdecodeVarint_spec junk h
  rw [scanHex]
  cases hscan : scanVarint tail with
  | none =>
    rw [hscan] at hv
    refine follows_step hs hv ?_
    rw [if_pos (.inl (by decide))]
    exact ⟨safe_pure _ _, rfl⟩
  | some p =>
    obtain ⟨n, rest⟩ := p
    rw [hscan] at hv
    obtain ⟨pos', ht, hv⟩ := hv
    have hl := ht.length
    refine follows_step hs hv ?_
    dsimp only
    by_cases hn : n > limit
    · rw [if_pos (.inr hn), if_pos hn]
      exact ⟨safe_pure _ _, rfl⟩
    rw [if_neg (by omega), if_neg hn]
    by_cases hroom : n ≤ rest.length ∧ 2 * n + 1 ≤ limit
    · obtain ⟨hr, hrv, hrt⟩ := readFixed junk ht n hroom.1
      rw [if_pos hroom]
      refine follows_step hr hrv (follows_step (v := initHexbytesNoT (rest.take n)) ?_ rfl ?_)
      · refine safe_bind.mpr ⟨safe_logStore.mpr ?_, safe_pure _ _⟩
        rw [List.length_take, Nat.min_eq_left hroom.1]
        exact hroom.2
      · have hnext := hf (initHexbytesNoT (rest.take n)) (pos' + n) (rest.drop n) hrt
        rwa [Nat.cast_add] at hnext
    · rw [if_neg hroom]
      by_cases hlen : n ≤ rest.length
      · obtain ⟨hr, hrv, -⟩ := readFixed junk ht n hlen
        refine follows_step hr hrv (follows_fault fun hst => hroom ⟨hlen, ?_⟩)
        have hfit := safe_logStore.mp (safe_bind.mp hst).1
        rwa [List.length_take, Nat.min_eq_left hlen] at hfit
      · refine follows_fault fun hr => ?_
        have hread := safe_readBytes.mp hr
        omega

theorem decodeVin_follows (h : Tail bytes pos tail) :
    Follows bytes found none (decodeVin (memory bytes junk) pos bytes.length) (scanVin tail) := by
  rw [decodeVin, scanVin]
  by_cases h32 : 32 ≤ tail.length
  · obtain ⟨hs, hv, ht⟩ := readFixed junk h 32 h32
    rw [if_pos h32]
    refine follows_step hs hv (follows_step (v := initHexbytesNoT (tail.take 32).reverse) ?_ rfl ?_)
    · refine safe_bind.mpr ⟨safe_logStore.mpr ?_, safe_pure _ _⟩
      rw [List.length_reverse, List.length_take, Nat.min_eq_left h32]
      decide
    rw [show (pos : Int) + 32 = ((pos + 32 : Nat) : Int) from (Nat.cast_add pos 32).symm]
    generalize pos + 32 = pos₀ at ht ⊢
    generalize tail.drop 32 = tail₀ at ht ⊢
    generalize initHexbytesNoT (tail.take 32).reverse = txidstr
    refine follows_uint32 junk ht fun vout pos₁ tail₁ ht₁ => ?_
    dsimp only
    rw [if_neg (by omega)]
    refine follows_hex junk ht₁ sizeofSigs (fun sigs offset =>
      decodeUint32 (memory bytes junk) offset bytes.length >>= fun p =>
        if p.2 < 0 then pure none
        else pure (some ((⟨txidstr, vout.toUInt16, sigs, p.1⟩ : CointxInput), p.2)))
      fun sigs pos₂ tail₂ ht₂ => ?_
    refine follows_uint32 junk ht₂ fun sequence pos₃ tail₃ ht₃ => ?_
    dsimp only
    rw [if_neg (by omega)]
    exact ⟨safe_pure _ _, pos₃, ht₃, rfl⟩
  · rw [if_neg h32]
    refine follows_fault fun hs => h32 ?_
    have hl := h.length
    have hread := safe_readBytes.mp hs
    omega

theorem decodeVout_follows (h : Tail bytes pos tail) :
    Follows bytes found none (decodeVout (memory bytes junk) pos bytes.length) (scanVout tail) := by
  rw [decodeVout, scanVout]
  refine follows_uint32 junk h fun low pos₁ tail₁ ht₁ => ?_
  dsimp only
  rw [if_neg (by omega)]
  refine follows_uint32 junk ht₁ fun high pos₂ tail₂ ht₂ => ?_
  dsimp only
  rw [if_neg (by omega)]
  refine follows_hex junk ht₂ sizeofScript (fun script offset =>
    pure (some ((⟨high.toUInt64 <<< 32 ||| low.toUInt64, script⟩ : Rawvout), offset))) fun script pos₃ tail₃ ht₃ => ?_
  exact ⟨safe_pure _ _, pos₃, ht₃, rfl⟩

theorem decodeItems_follows {decode : Int → Logged (Option (α × Int))} {scan : List UInt8 → Scan α}
    (hd : ∀ (pos : Nat) tail, Tail bytes pos tail → Follows bytes found none (decode pos) (scan tail))
    (h : Tail bytes pos tail) (n : Nat) :
    Follows bytes found none (decodeItems decode n pos) (scanItems scan n tail) := by
  induction n generalizing pos tail with
  | zero => exact ⟨safe_pure _ _, pos, h, rfl⟩
  | succ n ih =>
    rw [decodeItems, scanItems]
    refine follows_andThen (hd pos tail h) (fun a pos₁ tail₁ ht₁ => ?_) rfl
    refine follows_andThen (ih ht₁) (fun items pos₂ tail₂ ht₂ => ?_) rfl
    exact ⟨safe_pure _ _, pos₂, ht₂, rfl⟩

end Follow

/-- The value of `_decode_rawtransaction` for a scanned transaction. -/
def returned (hexstr : List Char) (oldtx : Int) (tx : CointxInfo) (pos : Nat) : Option Decoded :=
  some ⟨tx, (pos : Int), validateDecoderawtransaction hexstr tx oldtx⟩

section Whole
variable {bytes tail : List UInt8} {pos : Nat} (junk : Memory) (hexstr : List Char) (oldtx : Int)
variable (version timestamp : UInt32) (inputs : List CointxInput)

/-- Going on after a count that was cut off reads the byte before the buffer. -/
theorem decodeRest_cut {offset : Int} (hv : (hdecodeVarint (memory bytes junk) offset bytes.length).value = (0, -1)) :
    ¬ (decodeRest (memory bytes junk) bytes.length hexstr oldtx version timestamp inputs offset).Safe bytes.length := by
  intro hs
  rw [decodeRest, safe_bind, hv] at hs
  have hread := hs.2
  dsimp only at hread
  rw [if_neg (by decide), decodeItems, safe_bind] at hread
  have hword := (safe_bind.mp hread.2).1
  rw [decodeUint32] at hword
  simp only [safe_bind, safe_readByte, safe_pure, and_true] at hword
  omega

theorem decodeRest_follows (h : Tail bytes pos tail) :
    Follows bytes (returned hexstr oldtx) none
      (decodeRest (memory bytes junk) bytes.length hexstr oldtx version timestamp inputs pos)
      (scanRest version timestamp inputs tail) := by
  obtain ⟨hs, hv⟩ := hdecodeVarint_spec junk h
  rw [scanRest]
  cases hscan : scanVarint tail with
  | none =>
    rw [hscan] at hv
    exact decodeRest_cut junk hexstr oldtx version timestamp inputs hv
  | some p =>
    obtain ⟨numoutputs, tail₁⟩ := p
    rw [hscan] at hv
    obtain ⟨pos₁, ht₁, hv⟩ := hv
    rw [decodeRest]
    refine follows_step hs hv ?_
    dsimp only
    by_cases hn : numoutputs > maxCointxOutputs
    · rw [if_pos hn, if_pos hn]
      exact ⟨safe_pure _ _, rfl⟩
    rw [if_neg hn, if_neg hn]
    refine follows_andThen (decodeItems_follows (fun p t ht => decodeVout_follows junk ht) ht₁ numoutputs)
      (fun outputs pos₂ tail₂ ht₂ => ?_) rfl
    refine follows_uint32 junk ht₂ fun nlocktime pos₃ tail₃ ht₃ => ?_
    exact ⟨safe_pure _ _, pos₃, ht₃, rfl⟩

private theorem inputs_follow (h : Tail bytes pos tail) :
    Follows bytes (returned hexstr oldtx) none
      (hdecodeVarint (memory bytes junk) pos bytes.length >>= fun p =>
        if p.1 > maxCointxInputs then readBytes (memory bytes junk) p.2 4 >>= fun _ => pure none
        else decodeItems (decodeVin (memory bytes junk) · bytes.length) p.1 p.2 >>= fun r =>
          match r with
          | none => pure none
          | some (inputs, offset) =>
            decodeRest (memory bytes junk) bytes.length hexstr oldtx version timestamp inputs offset)
      (match scanVarint tail with
      | none => .fault
      | some (numinputs, tail) =>
        if numinputs > maxCointxInputs then (if 4 ≤ tail.length then .caught else .fault)
        else (scanItems scanVin numinputs tail).andThen (scanRest version timestamp)) := by
  obtain ⟨hs, hv⟩ := hdecodeVarint_spec junk h
  cases hscan : scanVarint tail with
  | none =>
    rw [hscan] at hv
    refine follows_step hs hv fun hsafe => ?_
    dsimp only at hsafe
    rw [if_neg (by decide), decodeItems, safe_bind] at hsafe
    refine decodeRest_cut junk hexstr oldtx version timestamp [] ?_ hsafe.2
    rw [hdecodeVarint, if_pos (.inl (by decide)), value_pure]
  | some p =>
    obtain ⟨numinputs, tail₁⟩ := p
    rw [hscan] at hv
    obtain ⟨pos₁, ht₁, hv⟩ := hv
    have hl := ht₁.length
    refine follows_step hs hv ?_
    dsimp only
    by_cases hn : numinputs > maxCointxInputs
    · rw [if_pos hn, if_pos hn]
      by_cases h4 : 4 ≤ tail₁.length
      · rw [if_pos h4]
        obtain ⟨hr, hrv, -⟩ := readFixed junk ht₁ 4 h4
        exact follows_step hr hrv ⟨safe_pure _ _, rfl⟩
      · rw [if_neg h4]
        refine follows_fault fun hr => h4 ?_
        have hread := safe_readBytes.mp hr
        omega
    rw [if_neg hn, if_neg hn]
    refine follows_andThen (decodeItems_follows (fun p t ht => decodeVin_follows junk ht) ht₁ numinputs)
      (fun inputs pos₂ tail₂ ht₂ => ?_) rfl
    exact decodeRest_follows junk hexstr oldtx version timestamp inputs ht₂

theorem decodeData_follows (bytes : List UInt8) : Follows bytes (returned hexstr oldtx) none
    (decodeData (memory bytes junk) bytes.length hexstr oldtx) (scanTx oldtx bytes) := by
  rw [decodeData, scanTx]
  refine follows_uint32 junk (tail_zero bytes) fun version pos₁ tail₁ ht₁ => ?_
  dsimp only
  by_cases hold : oldtx = 0
  · rw [if_pos hold, if_pos hold]
    refine follows_uint32 junk ht₁ fun timestamp pos₂ tail₂ ht₂ => ?_
    exact inputs_follow junk hexstr oldtx version timestamp ht₂
  · rw [if_neg hold, if_neg hold]
    exact inputs_follow junk hexstr oldtx version 0 ht₁

end Whole

end SuperNet.Coins.Cointx
