import SuperNet.Games.PangeaSummary
import SuperNet.Lib.AccessLog

/-! The display of a hand summary that came in a message: pangea_dispsummary over any bytes, with what it reads of them
and which entries of its arrays it takes. -/
namespace SuperNet.Games.Pangea
open SuperNet.Lib.Words SuperNet.Lib.Memory SuperNet.Lib.Bytes SuperNet.Lib.AccessLog

/-- What `pangea_parsesummary` sets and returns. -/
structure Shown where
  type : UInt8
  valA : Nat
  bits64 : List UInt8
  card : List UInt8
  len : Int

/-- Bytes behind the key of a record. -/
def payloadSize (type : UInt8) (valA : Nat) : Nat :=
  if type = Act.faceup.byte then 32 else parseDatasize type valA

def readPayload (data : Memory) (type : UInt8) (valA : Nat) (len : Int) : Logged Shown := do
  let payload ← readBytes data len (payloadSize type valA)
  if type = Act.faceup.byte then pure ⟨type, valA, [], payload, len + payloadSize type valA⟩
  else pure ⟨type, valA, payload, List.replicate 32 0, len + payloadSize type valA⟩

/-- `pangea_parsesummary` at any offset; `valA` stays what it was when the type is 0. -/
def readSummary (data : Memory) (valA : Nat) (len : Int) : Logged Shown := do
  let type ← readByte data len
  if type = 0 then do
    -- the message about it reads the type once more
    let _ ← readByte data len
    pure ⟨type, valA, [], List.replicate 32 0, -1⟩
  else do
    let key ← readBytes data (len + 1) (parseKeysize type)
    readPayload data type (parseVal type key) (len + 1 + parseKeysize type)

/-- The card of `pangea_handitem`. -/
def Shown.cardi (p : Shown) : Int := if p.type = Act.faceup.byte then signed 32 (p.valA >>> 8 : Nat) else -1

/-- `pangea_handitem` makes an item for a player. -/
def Shown.hasPitem (p : Shown) : Bool :=
  p.type ∉ [Act.start.byte, Act.rakes.byte, Act.snapshot.byte, Act.changes.byte, Act.faceup.byte]

/-- The variables of the loop of `pangea_dispsummary`, with the records in place of their items. -/
structure Display where
  len : Int
  valA : Nat
  n : Nat
  array : List Shown
  cardis : Nat → Option Shown
  players : Nat → List (Nat × Shown)

/-- The entry `i` of an array with `room` entries is taken. -/
def takeEntry (i room : Nat) : Logged Unit := logStore (i + 1) room

def Display.addItem (d : Display) (p : Shown) : Logged Display :=
  if 0 ≤ p.cardi ∧ p.cardi < CARDS777_MAXCARDS then do
    takeEntry p.cardi.toNat CARDS777_MAXCARDS
    pure { d with cardis := Function.update d.cardis p.cardi.toNat (some p) }
  else pure { d with array := d.array ++ [p] }

def Display.addPitem (numplayers : Nat) (d : Display) (p : Shown) : Logged Display :=
  if p.hasPitem then
    if 0 ≤ signed 32 p.valA ∧ p.valA < numplayers then do
      takeEntry p.valA CARDS777_MAXPLAYERS
      pure { d with n := d.n + 1, players := Function.update d.players p.valA (d.players p.valA ++ [(d.n, p)]) }
    else pure { d with n := d.n + 1 }
  else pure d

/-- The loop of `pangea_dispsummary` with the rounds left to it; `none` when these are not enough. -/
def displayLoop (data : Memory) (summarysize numplayers : Nat) : Nat → Display → Logged (Option Display)
  | 0, _ => pure none
  | rounds + 1, d =>
    if d.len < summarysize then do
      let p ← readSummary data d.valA d.len
      let d ← d.addItem p
      let d ← d.addPitem numplayers p
      displayLoop data summarysize numplayers rounds { d with len := p.len, valA := p.valA }
    else pure (some d)

/-- `pangea_dispsummary`: the items of the players, and those of the hand with the cards behind them. `valA` is what the
variable holds before anything is stored in it. -/
def pangeaDispsummary (data : Memory) (summarysize numplayers valA rounds : Nat) :
    Logged (Option (List (List (Nat × Shown)) × List Shown)) := do
  logStore numplayers CARDS777_MAXPLAYERS
  let shown ← displayLoop data summarysize numplayers rounds ⟨0, valA, 0, [], fun _ => none, fun _ => []⟩
  logStore numplayers CARDS777_MAXPLAYERS
  pure (shown.map fun d =>
    ((List.range numplayers).map d.players, d.array ++ (List.range CARDS777_MAXCARDS).filterMap d.cardis))

/-- The display ends, and it reads only bytes of the summary and takes only entries of its arrays. -/
def SafeDisplay (junk : Memory) (numplayers valA : Nat) (summary : List UInt8) : Prop :=
  ∃ rounds,
    (pangeaDispsummary (memory summary junk) summary.length numplayers valA rounds).value.isSome ∧
    (pangeaDispsummary (memory summary junk) summary.length numplayers valA rounds).Safe summary.length

/-- The summaries that `pangea_gotsummary` displays: its own and the received one, when they have the same length and
are not the same. -/
def displayed (summary data : List UInt8) : List (List UInt8) :=
  if data.length = summary.length ∧ data ≠ summary then [summary, data] else []

/-- Complete records, none of type 0, and nothing else. -/
inductive Records : List UInt8 → Prop
  | done : Records []
  | record (type : UInt8) (key payload rest : List UInt8) (htype : type ≠ 0) (hkey : key.length = parseKeysize type)
      (hpayload : payload.length = payloadSize type (parseVal type key)) (hrest : Records rest) :
      Records (type :: (key ++ (payload ++ rest)))

section Rounds
variable {bytes tail : List UInt8} {junk : Memory} {numplayers rounds : Nat} {d : Display} {p : Shown}

private theorem safe_takeEntry {i room size : Nat} : (takeEntry i room).Safe size ↔ i < room := safe_logStore

private theorem addItem_safe (d : Display) (p : Shown) (size : Nat) : (d.addItem p).Safe size := by
  rw [Display.addItem]
  split
  case isTrue h => exact safe_bind.mpr ⟨safe_takeEntry.mpr (by omega), safe_pure size _⟩
  case isFalse => exact safe_pure size _

private theorem addPitem_safe (d : Display) (p : Shown) (size : Nat) (hN : numplayers ≤ CARDS777_MAXPLAYERS) :
    (d.addPitem numplayers p).Safe size := by
  rw [Display.addPitem]
  split
  case isTrue =>
    split
    case isTrue h => exact safe_bind.mpr ⟨safe_takeEntry.mpr (Nat.lt_of_lt_of_le h.2 hN), safe_pure size _⟩
    case isFalse => exact safe_pure size _
  case isFalse => exact safe_pure size _

private theorem readPayload_value (data : Memory) (type : UInt8) (valA : Nat) (len : Int) :
    (readPayload data type valA len).value.len = len + payloadSize type valA := by
  rw [readPayload, value_bind]
  split
  case isTrue => rfl
  case isFalse => rfl

private theorem readPayload_safe {data : Memory} {type : UInt8} {valA size : Nat} {len : Int} :
    (readPayload data type valA len).Safe size ↔
      payloadSize type valA = 0 ∨ 0 ≤ len ∧ len + payloadSize type valA ≤ size := by
  rw [readPayload, safe_bind, safe_readBytes, and_iff_left]
  split
  case isTrue => exact safe_pure size _
  case isFalse => exact safe_pure size _

private theorem parseKeysize_pos (type : UInt8) : 0 < parseKeysize type := by
  rw [parseKeysize]
  split_ifs <;> decide

private theorem readSummary_typed {type : UInt8} (data : Memory) (len : Int) (valA size : Nat)
    (hread : data len = type) (htype : type ≠ 0) :
    let key := (readBytes data (len + 1) (parseKeysize type)).value
    let payload := readPayload data type (parseVal type key) (len + 1 + parseKeysize type)
    (readSummary data valA len).value = payload.value ∧
      ((readSummary data valA len).Safe size ↔
        (0 ≤ len ∧ len < size) ∧ (readBytes data (len + 1) (parseKeysize type)).Safe size ∧ payload.Safe size) := by
  subst hread
  intro key payload
  rw [readSummary, value_bind, safe_bind, safe_readByte]
  have hbody : (readByte data len).value = data len := rfl
  rw [hbody, if_neg htype, value_bind, safe_bind]
  exact ⟨rfl, Iff.rfl⟩

private theorem readSummary_record {type : UInt8} {key payload rest : List UInt8} {pos : Nat} (junk : Memory) (valA : Nat)
    (htype : type ≠ 0) (hkey : key.length = parseKeysize type)
    (hpayload : payload.length = payloadSize type (parseVal type key))
    (htail : Tail bytes pos (type :: (key ++ (payload ++ rest)))) :
    (readSummary (memory bytes junk) valA pos).Safe bytes.length ∧
      ∃ next : Nat, (readSummary (memory bytes junk) valA pos).value.len = next ∧ Tail bytes next rest := by
  have hread : memory bytes junk (pos : Int) = type := htail.byte junk 0 (Nat.succ_pos _)
  have hkeys : Tail bytes (pos + 1) (key ++ (payload ++ rest)) := htail.advance (a := [type])
  have hpayloads := hkeys.advance
  have hrest := hpayloads.advance
  have hvalue : (readBytes (memory bytes junk) (pos + 1 : Int) (parseKeysize type)).value = key := by
    rw [← hkey]
    exact_mod_cast hkeys.readBytes_value junk
  obtain ⟨hlen, hsafe⟩ := readSummary_typed (memory bytes junk) _ valA bytes.length hread htype
  rw [hvalue] at hlen hsafe
  have hinside := hrest.inside
  have hpos : pos + 1 ≤ bytes.length := hkeys.inside
  refine ⟨hsafe.mpr ⟨⟨by omega, by omega⟩, safe_readBytes.mpr (.inr ⟨by omega, ?_⟩),
    readPayload_safe.mpr (.inr ⟨by omega, ?_⟩)⟩, _, ?_, hrest⟩
  · have := hpayloads.inside
    omega
  · omega
  · rw [hlen, readPayload_value]
    push_cast
    omega

private theorem readSummary_complete {type : UInt8} {pos valA : Nat} (htype : type ≠ 0)
    (htail : Tail bytes pos (type :: tail)) (hsafe : (readSummary (memory bytes junk) valA pos).Safe bytes.length) :
    ∃ key payload rest, tail = key ++ (payload ++ rest) ∧ key.length = parseKeysize type ∧
      payload.length = payloadSize type (parseVal type key) := by
  have hread : memory bytes junk (pos : Int) = type := htail.byte junk 0 (Nat.succ_pos _)
  have hlength := htail.length
  rw [List.length_cons] at hlength
  obtain ⟨-, hkey, hpayload⟩ := (readSummary_typed _ _ valA bytes.length hread htype).2.mp hsafe
  have hkeysize := parseKeysize_pos type
  rw [safe_readBytes] at hkey
  have hsplit : (tail.take (parseKeysize type)).length = parseKeysize type := by
    rw [List.length_take]
    omega
  have hkeys : Tail bytes (pos + 1) (tail.take (parseKeysize type) ++ tail.drop (parseKeysize type)) := by
    rw [List.take_append_drop]
    exact htail.advance (a := [type])
  have hvalue := hkeys.readBytes_value junk
  rw [hsplit, Nat.cast_add, Nat.cast_one] at hvalue
  rw [hvalue, readPayload_safe] at hpayload
  refine ⟨tail.take (parseKeysize type), (tail.drop (parseKeysize type)).take
    (payloadSize type (parseVal type (tail.take (parseKeysize type)))), (tail.drop (parseKeysize type)).drop
    (payloadSize type (parseVal type (tail.take (parseKeysize type)))), ?_, hsplit, ?_⟩
  · rw [List.take_append_drop, List.take_append_drop]
  · rw [List.length_take, List.length_drop]
    omega

private theorem displayLoop_round (data : Memory) (size numplayers rounds : Nat) (d : Display) (h : d.len < size) :
    ∃ d' : Display, d'.len = (readSummary data d.valA d.len).value.len ∧
      (displayLoop data size numplayers (rounds + 1) d).value = (displayLoop data size numplayers rounds d').value ∧
      ((displayLoop data size numplayers (rounds + 1) d).Safe size → (readSummary data d.valA d.len).Safe size ∧
        (displayLoop data size numplayers rounds d').Safe size) ∧
      (numplayers ≤ CARDS777_MAXPLAYERS → (readSummary data d.valA d.len).Safe size →
        (displayLoop data size numplayers rounds d').Safe size →
        (displayLoop data size numplayers (rounds + 1) d).Safe size) := by
  let p := (readSummary data d.valA d.len).value
  let item := (d.addItem p).value
  let pitem := (item.addPitem numplayers p).value
  refine ⟨{ pitem with len := p.len, valA := p.valA }, rfl, ?_, ?_, ?_⟩
  · rw [displayLoop, if_pos h]
    rfl
  · rw [displayLoop, if_pos h, safe_bind, safe_bind, safe_bind]
    exact fun hsafe => ⟨hsafe.1, hsafe.2.2.2⟩
  · intro hN hread hrest
    rw [displayLoop, if_pos h, safe_bind, safe_bind, safe_bind]
    exact ⟨hread, addItem_safe d p size, addPitem_safe item p size hN, hrest⟩

private theorem displayLoop_records (hrecords : Records tail) (junk : Memory) {pos : Nat} (htail : Tail bytes pos tail)
    (hd : d.len = pos) (hN : numplayers ≤ CARDS777_MAXPLAYERS) (hrounds : tail.length < rounds) :
    (displayLoop (memory bytes junk) bytes.length numplayers rounds d).value.isSome ∧
      (displayLoop (memory bytes junk) bytes.length numplayers rounds d).Safe bytes.length := by
  induction hrecords generalizing pos d rounds with
  | done =>
    obtain ⟨n, rfl⟩ := Nat.exists_eq_succ_of_ne_zero (Nat.ne_zero_of_lt hrounds)
    have hend := htail.length
    rw [List.length_nil] at hend
    rw [displayLoop, if_neg (by omega)]
    exact ⟨rfl, safe_pure _ _⟩
  | record type key payload rest htype hkey hpayload _ ih =>
    obtain ⟨n, rfl⟩ := Nat.exists_eq_succ_of_ne_zero (Nat.ne_zero_of_lt hrounds)
    have hlength := htail.length
    rw [List.length_cons] at hlength
    obtain ⟨hread, next, hnext, hrest⟩ := readSummary_record junk d.valA htype hkey hpayload htail
    rw [← hd] at hread hnext
    obtain ⟨d', hlen, hvalue, -, hsafe⟩ := displayLoop_round (memory bytes junk) bytes.length numplayers n d
      (by omega)
    have hfewer : rest.length < n := by
      rw [List.length_cons, List.length_append, List.length_append] at hrounds
      omega
    obtain ⟨hsome, hinside⟩ := ih hrest (hlen.trans hnext) hfewer
    exact ⟨hvalue ▸ hsome, hsafe hN hread hinside⟩

private theorem records_of_displayLoop {pos : Nat} (htail : Tail bytes pos tail) (hd : d.len = pos)
    (hsome : (displayLoop (memory bytes junk) bytes.length numplayers rounds d).value.isSome)
    (hsafe : (displayLoop (memory bytes junk) bytes.length numplayers rounds d).Safe bytes.length) : Records tail := by
  induction rounds generalizing pos d tail with
  | zero => cases hsome
  | succ n ih =>
    have hlength := htail.length
    cases tail with
    | nil => exact .done
    | cons type tail =>
      rw [List.length_cons] at hlength
      obtain ⟨d', hlen, hvalue, hparts, -⟩ := displayLoop_round (memory bytes junk) bytes.length numplayers n d
        (by omega)
      obtain ⟨hread, hrest⟩ := hparts hsafe
      rw [hvalue] at hsome
      rw [hd] at hread hlen
      by_cases htype : type = 0
      case pos =>
        -- the next round reads the byte before the summary
        have hback : d'.len = -1 := by
          have hbyte : memory bytes junk (pos : Int) = type := htail.byte junk 0 (Nat.succ_pos _)
          rw [hlen, readSummary, value_bind]
          have hbody : (readByte (memory bytes junk) pos).value = 0 := hbyte.trans htype
          rw [if_pos hbody]
          rfl
        cases n with
        | zero => cases hsome
        | succ n =>
          obtain ⟨_, _, _, hparts', _⟩ := displayLoop_round (memory bytes junk) bytes.length numplayers n d'
            (by omega)
          have hbefore := (hparts' hrest).1
          rw [readSummary, safe_bind, safe_readByte] at hbefore
          omega
      case neg =>
        obtain ⟨key, payload, rest, rfl, hkey, hpayload⟩ := readSummary_complete htype htail hread
        obtain ⟨-, next, hnext, hrest'⟩ := readSummary_record junk d.valA htype hkey hpayload htail
        exact .record type key payload rest htype hkey hpayload (ih hrest' (hlen.trans hnext) hsome hrest)

end Rounds

section Parser
variable (data : Memory) (valA len : Nat)

private theorem readBytes_field (n : Nat) {pos : Int} (hpos : pos = len) :
    (readBytes data pos n).value = parseField (fun i => data i) len n := by
  rw [parseField_eq, hpos]
  clear hpos
  induction n generalizing len with
  | zero => rfl
  | succ n ih =>
    have hnext := ih (len + 1)
    rw [Nat.cast_add, Nat.cast_one] at hnext
    rw [readBytes, value_bind, value_bind, value_pure, hnext]
    rfl

/-- Inside of the array it is the parser that the engine checks its own records with. -/
theorem readSummary_eq : (readSummary data valA len).value =
    match pangeaParsesummary (fun i => data i) len with
    | none => ⟨0, valA, [], List.replicate 32 0, -1⟩
    | some p => ⟨p.type, p.valA, p.bits64, p.card, p.len⟩ := by
  by_cases htype : data len = 0
  case pos =>
    rw [readSummary, value_bind]
    have hbody : (readByte data len).value = 0 := htype
    have hhead : (parseField (fun i => data i) len 1).headD 0 = 0 := by
      rw [parseField_eq]
      exact htype
    simp only [hbody, pangeaParsesummary, hhead, if_true]
    rfl
  case neg =>
    obtain ⟨hvalue, -⟩ := readSummary_typed data len valA 0 rfl htype
    rw [hvalue, readBytes_field data (len + 1) _ (by push_cast; rfl), readPayload, value_bind,
      readBytes_field data (len + 1 + parseKeysize (data len)) _ (by push_cast; rfl)]
    have hhead : (parseField (fun i => data i) len 1).headD 0 = data len := by
      rw [parseField_eq]
      rfl
    simp only [pangeaParsesummary, hhead, if_neg htype]
    by_cases hface : data len = Act.faceup.byte
    case pos =>
      simp only [payloadSize, if_pos hface, value_pure]
      push_cast
      rfl
    case neg =>
      simp only [payloadSize, if_neg hface, value_pure]
      push_cast
      rfl

end Parser

/-- The display of any bytes is safe exactly when they are complete records and the players have entries. -/
theorem pangeaDispsummary_safe_iff (junk : Memory) (numplayers valA : Nat) (summary : List UInt8) :
    SafeDisplay junk numplayers valA summary ↔ numplayers ≤ CARDS777_MAXPLAYERS ∧ Records summary := by
  constructor
  · rintro ⟨rounds, hsome, hsafe⟩
    rw [pangeaDispsummary, safe_bind, safe_logStore, safe_bind] at hsafe
    rw [pangeaDispsummary, value_bind, value_bind, value_bind, value_pure, Option.isSome_map] at hsome
    exact ⟨hsafe.1, records_of_displayLoop (tail_zero summary) rfl hsome hsafe.2.1⟩
  · rintro ⟨hN, hrecords⟩
    let start : Display := ⟨0, valA, 0, [], fun _ => none, fun _ => []⟩
    obtain ⟨hsome, hsafe⟩ :
        (displayLoop (memory summary junk) summary.length numplayers (summary.length + 1) start).value.isSome ∧
          (displayLoop (memory summary junk) summary.length numplayers (summary.length + 1) start).Safe summary.length :=
      displayLoop_records hrecords junk (tail_zero summary) rfl hN (Nat.lt_succ_self _)
    refine ⟨summary.length + 1, ?_, ?_⟩
    · rw [pangeaDispsummary, value_bind, value_bind, value_bind, value_pure, Option.isSome_map]
      exact hsome
    · rw [pangeaDispsummary, safe_bind, safe_logStore, safe_bind, safe_bind, safe_logStore]
      exact ⟨hN, hsafe, hN, safe_pure _ _⟩

theorem records_of_calls (calls : List SummaryCall) : Records (calls.flatMap SummaryCall.bytes) := by
  induction calls with
  | nil => exact .done
  | cons c calls ih =>
    obtain ⟨hkey, hval, hdata⟩ := c.widths
    rw [List.flatMap_cons, SummaryCall.bytes, List.cons_append, List.append_assoc]
    refine .record _ _ _ _ (Act.byte_ne_zero c.type) hkey.symm ?_ ih
    rw [hval, payloadSize, ← hdata]
    exact if_congr Act.byte_inj.symm rfl rfl

/-- What a summary message makes a player display is safe exactly when nothing is displayed, or when there is an entry for
each player and both summaries are complete records. -/
theorem gotsummary_safe_iff (junk : Memory) (numplayers valA : Nat) (summary data : List UInt8) :
    (∀ shown ∈ displayed summary data, SafeDisplay junk numplayers valA shown) ↔
      displayed summary data = [] ∨ numplayers ≤ CARDS777_MAXPLAYERS ∧ Records summary ∧ Records data := by
  simp only [pangeaDispsummary_safe_iff]
  rw [displayed]
  split
  case isTrue =>
    rw [or_iff_right (List.cons_ne_nil _ _), List.forall_mem_cons, List.forall_mem_singleton]
    exact ⟨fun ⟨hown, hgot⟩ => ⟨hown.1, hown.2, hgot.2⟩, fun ⟨hN, hown, hgot⟩ => ⟨⟨hN, hown⟩, hN, hgot⟩⟩
  case isFalse => exact ⟨fun _ => .inl rfl, fun _ _ h => absurd h List.not_mem_nil⟩

/-- The summary of a hand in which one ante has been paid. -/
def anteSummary : List UInt8 := [Act.ante.byte, 0, 3, 0, 0, 0, 0, 0, 0, 0]

private theorem Records.head {bytes : List UInt8} (h : Records bytes) : bytes.head? ≠ some 0 := by
  cases h with
  | done => exact fun hnone => by cases hnone
  | record type key payload rest htype => exact fun hzero => htype (Option.some.inj hzero)

/-- Ten bytes 0 in a message are not displayed safely: the parser returns -1 as the next offset. -/
theorem anteSummary_zeros :
    ¬ ∀ shown ∈ displayed anteSummary (List.replicate 10 0), SafeDisplay (fun _ => 0) 2 0 shown := by
  intro h
  have hshown : List.replicate 10 0 ∈ displayed anteSummary (List.replicate 10 0) := by decide
  exact ((pangeaDispsummary_safe_iff _ _ _ _).mp (h _ hshown)).2.head rfl

end SuperNet.Games.Pangea
