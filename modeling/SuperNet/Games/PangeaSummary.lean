import SuperNet.Common.Hostnet777
import SuperNet.Games.Pangea
import SuperNet.Lib.Bytes

/-! The hand summary as the bytes of its array: the records that the engine appends and their parser. -/
namespace SuperNet.Games.Pangea
open SuperNet.Lib.Words SuperNet.Lib.Memory SuperNet.Lib.Bytes SuperNet.Common.Hostnet777

def summaryRoom : Nat := 65536

def Act.byte (type : Act) : UInt8 := UInt8.ofNat (u8 type.code)

structure Summary where
  summary : Nat → UInt8
  summarysize : Nat

/-- The summary that `pangea_newhand` clears. -/
def clearedSummary : Summary := ⟨fun _ => 0, 0⟩

/-- One `hostnet777_copybits` to the end of the summary; `none` is a store behind its array. -/
def Summary.copybits (s : Summary) (arg : List UInt8) : Option Summary :=
  if s.summarysize + arg.length ≤ summaryRoom then
    some ⟨atPtr s.summary s.summarysize fun dest => hostnet777Copybits dest (fun d => arg.getD d 0) arg.length,
      s.summarysize + arg.length⟩
  else none

/-- The stores of `pangea_summary`; its check of the record just written only prints. -/
def Summary.pangeaSummary (s : Summary) (type : UInt8) (arg0 arg1 : List UInt8) : Option Summary := do
  let s ← s.copybits [type]
  let s ← s.copybits arg0
  s.copybits arg1

structure Parsed where
  type : UInt8
  valA : Nat
  bits64 : List UInt8
  card : List UInt8
  len : Nat
  deriving DecidableEq

/-- A field of `n` bytes read by `hostnet777_copybits`. -/
def parseField (summary : Nat → UInt8) (len n : Nat) : List UInt8 :=
  slice (hostnet777Copybits (fun _ => 0) (fun d => summary (len + d)) n) 0 n

def parseKeysize (type : UInt8) : Nat :=
  if type = Act.start.byte ∨ type = Act.snapshot.byte then 4
  else if type = Act.changes.byte then 4
  else if type = Act.rakes.byte then 8
  else if type = Act.faceup.byte then 2
  else 1

/-- `*valAp`: a hand id is an `int32_t`, the other keys are unsigned. -/
def parseVal (type : UInt8) (key : List UInt8) : Nat :=
  if type = Act.start.byte ∨ type = Act.snapshot.byte then u64 (signed 32 (leValue key)) else leValue key

/-- Bytes copied to `bits64p` for a record other than a face up card. -/
def parseDatasize (type : UInt8) (valA : Nat) : Nat :=
  if type = Act.start.byte then 32 * (CARDS777_MAXCARDS + 1)
  else if type = Act.snapshot.byte then 8 * CARDS777_MAXPLAYERS
  else if type = Act.changes.byte then 8 * (valA &&& 0xf)
  else 8

/-- `pangea_parsesummary` at offset `len`; `none` is its return value -1. -/
def pangeaParsesummary (summary : Nat → UInt8) (len : Nat) : Option Parsed :=
  let type := (parseField summary len 1).headD 0
  if type = 0 then none
  else
    let valA := parseVal type (parseField summary (len + 1) (parseKeysize type))
    let len := len + 1 + parseKeysize type
    if type = Act.faceup.byte then some ⟨type, valA, [], parseField summary len 32, len + 32⟩
    else
      let size := parseDatasize type valA
      some ⟨type, valA, parseField summary len size, List.replicate 32 0, len + size⟩

/-- The loop of `pangea_dispsummary` from offset `len`, with the rounds left to it. -/
def parseLoop (summary : Nat → UInt8) (summarysize : Nat) : Nat → Nat → Option (List Parsed)
  | 0, _ => none
  | rounds+1, len =>
    if len < summarysize then do
      let p ← pangeaParsesummary summary len
      let ps ← parseLoop summary summarysize rounds p.len
      some (p :: ps)
    else some []

/-- What a parsed record says: its type, its key and its payload. -/
def Parsed.triple (p : Parsed) : UInt8 × Nat × List UInt8 :=
  (p.type, p.valA, if p.type = Act.faceup.byte then p.card else p.bits64)

/-- A record with a player's index as key and one 64-bit word: folds, bets and winnings. -/
def Act.ofPlayer : Act → Bool
  | .start | .snapshot | .changes | .rakes | .faceup => false
  | _ => true

abbrev ByteString (n : Nat) := { bs : List UInt8 // bs.length = n }

/-- The calls of `pangea_summary` in the engine, with what each passes. -/
inductive SummaryCall where
  | start (handid : BitVec 32) (cardpubs : ByteString (32 * (CARDS777_MAXCARDS + 1)))
  | snapshot (handid : BitVec 32) (funds : ByteString (8 * CARDS777_MAXPLAYERS))
  | changes (rebuy busted : UInt16) (N : Nat) (hN : N ≤ CARDS777_MAXPLAYERS) (balances : ByteString (8 * N))
  | rakes (rake pangearake : UInt64)
  | faceup (tmp : UInt16) (data : ByteString 32)
  | player (type : Act) (htype : type.ofPlayer) (tmp : UInt8) (word : UInt64)

namespace SummaryCall

def type : SummaryCall → Act
  | .start .. => .start
  | .snapshot .. => .snapshot
  | .changes .. => .changes
  | .rakes .. => .rakes
  | .faceup .. => .faceup
  | .player type .. => type

/-- The word `changes` of `pangea_finish`. -/
def changesWord (rebuy busted : UInt16) (N : Nat) : Nat :=
  u32 ((rebuy.toNat <<< 20 : Nat) : Int) ||| busted.toNat <<< 4 ||| (N &&& 0xf)

def arg0 : SummaryCall → List UInt8
  | .start handid _ => leBytes 4 handid.toNat
  | .snapshot handid _ => leBytes 4 handid.toNat
  | .changes rebuy busted N _ _ => leBytes 4 (changesWord rebuy busted N)
  | .rakes rake _ => leBytes 8 rake.toNat
  | .faceup tmp _ => leBytes 2 tmp.toNat
  | .player _ _ tmp _ => leBytes 1 tmp.toNat

def arg1 : SummaryCall → List UInt8
  | .start _ cardpubs => cardpubs.val
  | .snapshot _ funds => funds.val
  | .changes _ _ _ _ balances => balances.val
  | .rakes _ pangearake => leBytes 8 pangearake.toNat
  | .faceup _ data => data.val
  | .player _ _ _ word => leBytes 8 word.toNat

/-- The first argument as a number of 64 bits. -/
def valA : SummaryCall → Nat
  | .start handid _ => u64 handid.toInt
  | .snapshot handid _ => u64 handid.toInt
  | .changes rebuy busted N _ _ => changesWord rebuy busted N
  | .rakes rake _ => rake.toNat
  | .faceup tmp _ => tmp.toNat
  | .player _ _ tmp _ => tmp.toNat

def triple (c : SummaryCall) : UInt8 × Nat × List UInt8 := (c.type.byte, c.valA, c.arg1)

def bytes (c : SummaryCall) : List UInt8 := c.type.byte :: (c.arg0 ++ c.arg1)

def size (c : SummaryCall) : Nat := 1 + (c.arg0.length + c.arg1.length)

end SummaryCall

/-- A sequence of calls, with the end of the summary after each. -/
def Summary.appendAll (s : Summary) : List SummaryCall → Option (Summary × List Nat)
  | [] => some (s, [])
  | c :: calls => do
    let s ← s.pangeaSummary c.type.byte c.arg0 c.arg1
    let (t, ends) ← s.appendAll calls
    some (t, s.summarysize :: ends)

/-- The records appended to an empty summary are parsed back one by one, each up to the start of the next
and the last up to the end of the summary. -/
def RoundTrips (calls : List SummaryCall) : Prop :=
  ∃ s ends ps, clearedSummary.appendAll calls = some (s, ends) ∧
    parseLoop s.summary s.summarysize (s.summarysize + 1) 0 = some ps ∧
    ps.map Parsed.triple = calls.map SummaryCall.triple ∧ ps.map Parsed.len = ends ∧
    ends.getLastD 0 = s.summarysize

/-- Bytes that a sequence of calls appends. -/
def summaryTotal (calls : List SummaryCall) : Nat := (calls.map SummaryCall.size).sum

section Records
variable {summary : Nat → UInt8} {len : Nat}

theorem parseField_eq (summary : Nat → UInt8) (len n : Nat) : parseField summary len n = slice summary len n := by
  apply List.ext_getElem (by simp [parseField])
  intro k hk _
  rw [parseField, slice_length] at hk
  simp [parseField, slice, hostnet777Copybits_eq, hk]

theorem Act.byte_ne_zero (type : Act) : type.byte ≠ 0 := by
  cases type <;> decide

theorem Act.byte_inj {a b : Act} : a.byte = b.byte ↔ a = b := by
  cases a <;> cases b <;> decide

/-- The four low bits of the changes are the number of balances that follow. -/
theorem SummaryCall.changesWord_spec (rebuy busted : UInt16) {N : Nat} (hN : N ≤ CARDS777_MAXPLAYERS) :
    changesWord rebuy busted N < 2^32 ∧ changesWord rebuy busted N &&& 0xf = N := by
  have hN16 : N < 2^4 := lt_of_le_of_lt hN (by decide)
  have hlow : N &&& 0xf = N := by
    rw [show (0xf : Nat) = 2^4 - 1 from rfl, Nat.and_two_pow_sub_one_eq_mod, Nat.mod_eq_of_lt hN16]
  have hbusted : busted.toNat <<< 4 < 2^32 := by
    have := busted.toNat_lt
    rw [Nat.shiftLeft_eq]
    omega
  have hrebuy : u32 ((rebuy.toNat <<< 20 : Nat) : Int) = rebuy.toNat <<< 20 % 2^32 := unsigned_natCast 32 _
  refine ⟨Nat.or_lt_two_pow (Nat.or_lt_two_pow (unsigned_lt 32 _) hbusted) (by rw [hlow]; omega), ?_⟩
  apply Nat.eq_of_testBit_eq
  intro b
  rw [changesWord, hrebuy, hlow, show (0xf : Nat) = 2^4 - 1 from rfl]
  simp only [Nat.testBit_and, Nat.testBit_or, Nat.testBit_mod_two_pow, Nat.testBit_shiftLeft,
    Nat.testBit_two_pow_sub_one]
  by_cases hb : b < 4
  · simp [hb, show ¬ 20 ≤ b by omega, show ¬ 4 ≤ b by omega]
  · have := Nat.testBit_lt_two_pow (lt_of_lt_of_le hN16 (Nat.pow_le_pow_right (by decide) (not_lt.mp hb)))
    simp [hb, this]

private theorem parseVal_handid (handid : BitVec 32) :
    u64 (signed 32 (leValue (leBytes 4 handid.toNat))) = u64 handid.toInt := by
  rw [leValue_leBytes_of_lt (lt_of_lt_of_eq handid.isLt (by norm_num)), signed, BitVec.toInt_eq_toNat_bmod]

theorem SummaryCall.widths (c : SummaryCall) : parseKeysize c.type.byte = c.arg0.length ∧
    parseVal c.type.byte c.arg0 = c.valA ∧
    (if c.type = .faceup then 32 else parseDatasize c.type.byte c.valA) = c.arg1.length := by
  cases c with
  | start handid cardpubs =>
    refine ⟨?_, ?_, ?_⟩
    · simp [parseKeysize, type, arg0, leBytes_length]
    · simp [parseVal, type, arg0, valA, parseVal_handid]
    · simp [parseDatasize, type, arg1, cardpubs.property]
  | snapshot handid funds =>
    refine ⟨?_, ?_, ?_⟩
    · simp [parseKeysize, type, arg0, leBytes_length]
    · simp [parseVal, type, arg0, valA, parseVal_handid]
    · simp [parseDatasize, type, arg1, funds.property, Act.byte_inj]
  | changes rebuy busted N hN balances =>
    obtain ⟨hlt, hlow⟩ := changesWord_spec rebuy busted hN
    have hval : leValue (leBytes 4 (changesWord rebuy busted N)) = changesWord rebuy busted N :=
      leValue_leBytes_of_lt (lt_of_lt_of_eq hlt (by norm_num))
    refine ⟨?_, ?_, ?_⟩
    · simp [parseKeysize, type, arg0, leBytes_length, Act.byte_inj]
    · simp [parseVal, type, arg0, valA, hval, Act.byte_inj]
    · simp [parseDatasize, type, arg1, balances.property, valA, hlow, Act.byte_inj]
  | rakes rake pangearake =>
    have hval : leValue (leBytes 8 rake.toNat) = rake.toNat :=
      leValue_leBytes_of_lt (lt_of_lt_of_eq rake.toNat_lt (by norm_num))
    refine ⟨?_, ?_, ?_⟩
    · simp [parseKeysize, type, arg0, leBytes_length, Act.byte_inj]
    · simp [parseVal, type, arg0, valA, Act.byte_inj, hval]
    · simp [parseDatasize, type, arg1, leBytes_length, Act.byte_inj]
  | faceup tmp data =>
    have hval : leValue (leBytes 2 tmp.toNat) = tmp.toNat :=
      leValue_leBytes_of_lt (lt_of_lt_of_eq tmp.toNat_lt (by norm_num))
    refine ⟨?_, ?_, ?_⟩
    · simp [parseKeysize, type, arg0, leBytes_length, Act.byte_inj]
    · simp [parseVal, type, arg0, valA, Act.byte_inj, hval]
    · simp [type, arg1, data.property]
  | player type htype tmp word =>
    have hval : leValue (leBytes 1 tmp.toNat) = tmp.toNat :=
      leValue_leBytes_of_lt (lt_of_lt_of_eq tmp.toNat_lt (by norm_num))
    cases type <;> first | exact absurd htype (by decide) | skip
    all_goals
      refine ⟨?_, ?_, ?_⟩
      · simp [parseKeysize, SummaryCall.type, arg0, leBytes_length, Act.byte_inj]
      · simp [parseVal, SummaryCall.type, arg0, valA, Act.byte_inj, hval]
      · simp [parseDatasize, SummaryCall.type, arg1, leBytes_length, Act.byte_inj]

/-- The parser reads a record where its bytes stand and ends behind it. -/
theorem SummaryCall.parse (c : SummaryCall) (h : slice summary len c.size = c.bytes) :
    ∃ p, pangeaParsesummary summary len = some p ∧ p.triple = c.triple ∧ p.len = len + c.size := by
  obtain ⟨hkey, hval, hdata⟩ := c.widths
  rw [size, slice_append, slice_append, bytes, ← List.singleton_append] at h
  obtain ⟨htype, hargs⟩ := List.append_inj h (by simp)
  obtain ⟨harg0, harg1⟩ := List.append_inj hargs (by simp)
  have hhead : (parseField summary len 1).headD 0 = c.type.byte := by rw [parseField_eq, htype]; rfl
  rw [← parseField_eq] at harg0 harg1
  simp only [pangeaParsesummary, hhead, hkey, harg0, hval, if_neg (Act.byte_ne_zero c.type)]
  by_cases hface : c.type = .faceup
  · rw [if_pos hface] at hdata
    rw [if_pos (Act.byte_inj.mpr hface), hdata, harg1]
    refine ⟨_, rfl, ?_, ?_⟩
    · simp [Parsed.triple, triple, hface]
    · simp only [size, Nat.add_assoc]
  · rw [if_neg hface] at hdata
    rw [if_neg (mt Act.byte_inj.mp hface), hdata, harg1]
    refine ⟨_, rfl, ?_, ?_⟩
    · simp [Parsed.triple, triple, mt Act.byte_inj.mp hface]
    · simp only [size, Nat.add_assoc]

end Records

section Appends
variable {s t : Summary} {bs arg0 arg1 : List UInt8} {calls : List SummaryCall} {ends : List Nat}

/-- The state after bytes have been appended. -/
def Summary.extend (s : Summary) (bs : List UInt8) : Summary :=
  ⟨blit s.summary s.summarysize bs, s.summarysize + bs.length⟩

private theorem copybits_eq (s : Summary) (bs : List UInt8) :
    s.copybits bs = if s.summarysize + bs.length ≤ summaryRoom then some (s.extend bs) else none := by
  rw [Summary.copybits, blit_of_copybits, Summary.extend]

private theorem extend_extend (s : Summary) (bs cs : List UInt8) : (s.extend bs).extend cs = s.extend (bs ++ cs) := by
  simp [Summary.extend, blit_append, Nat.add_assoc]

/-- A record is appended as a whole, or its call stores behind the array. -/
theorem Summary.pangeaSummary_eq (s : Summary) (c : SummaryCall) :
    s.pangeaSummary c.type.byte c.arg0 c.arg1 =
      if s.summarysize + c.size ≤ summaryRoom then some (s.extend c.bytes) else none := by
  have hsize (bs : List UInt8) : (s.extend bs).summarysize = s.summarysize + bs.length := rfl
  rw [pangeaSummary, copybits_eq, SummaryCall.size]
  by_cases h0 : s.summarysize + [c.type.byte].length ≤ summaryRoom
  · rw [if_pos h0, Option.bind_eq_bind, Option.bind_some, copybits_eq, hsize]
    by_cases h1 : s.summarysize + [c.type.byte].length + c.arg0.length ≤ summaryRoom
    · rw [if_pos h1, Option.bind_some, copybits_eq, extend_extend, extend_extend, hsize]
      have hlen : s.summarysize + ([c.type.byte] ++ c.arg0).length + c.arg1.length =
          s.summarysize + (1 + (c.arg0.length + c.arg1.length)) := by
        rw [List.length_append, List.length_singleton]
        omega
      rw [hlen]
      rfl
    · rw [if_neg h1, if_neg (by rw [List.length_singleton] at h1; omega)]
      rfl
  · rw [if_neg h0, if_neg (by rw [List.length_singleton] at h0; omega)]
    rfl

theorem SummaryCall.bytes_length (c : SummaryCall) : c.bytes.length = c.size := by
  rw [bytes, size, List.length_cons, List.length_append, Nat.add_comm]

/-- A run of calls that fits keeps what was there; the loop of the parser, from where the run started,
returns its records. -/
theorem Summary.appendAll_parse (calls : List SummaryCall) (s : Summary)
    (hfit : s.summarysize + summaryTotal calls ≤ summaryRoom) :
    ∃ t ends ps, s.appendAll calls = some (t, ends) ∧ t.summarysize = s.summarysize + summaryTotal calls ∧
      (∀ i n, i + n ≤ s.summarysize → slice t.summary i n = slice s.summary i n) ∧
      (∀ rounds, calls.length < rounds → parseLoop t.summary t.summarysize rounds s.summarysize = some ps) ∧
      ps.map Parsed.triple = calls.map SummaryCall.triple ∧ ps.map Parsed.len = ends ∧
      ends.getLastD s.summarysize = t.summarysize := by
  induction calls generalizing s with
  | nil =>
    refine ⟨s, [], [], rfl, rfl, fun _ _ _ => rfl, ?_, rfl, rfl, rfl⟩
    intro rounds hrounds
    obtain ⟨rounds, rfl⟩ := Nat.exists_eq_succ_of_ne_zero (Nat.ne_of_gt hrounds)
    rw [parseLoop, if_neg (lt_irrefl _)]
  | cons c calls ih =>
    rw [summaryTotal, List.map_cons, List.sum_cons, ← summaryTotal, ← Nat.add_assoc] at hfit
    have hsize : (s.extend c.bytes).summarysize = s.summarysize + c.size := by rw [extend, c.bytes_length]
    obtain ⟨t, ends, ps, hrun, htotal, hkeep, hloop, htriples, hlens, hlast⟩ :=
      ih (s.extend c.bytes) (by rw [hsize]; exact hfit)
    rw [hsize] at htotal hkeep hloop hlast
    have hbytes : slice t.summary s.summarysize c.size = c.bytes := by
      rw [hkeep _ _ le_rfl, ← c.bytes_length]
      exact slice_blit _ _ _
    obtain ⟨p, hp, htriple, hlen⟩ := c.parse hbytes
    refine ⟨t, (s.summarysize + c.size) :: ends, p :: ps, ?_, ?_, ?_, ?_, ?_, ?_, ?_⟩
    · rw [appendAll, pangeaSummary_eq, if_pos (by omega)]
      simp [hrun, hsize]
    · rw [htotal, summaryTotal, summaryTotal, List.map_cons, List.sum_cons, Nat.add_assoc]
    · intro i n h
      rw [hkeep i n (by omega)]
      exact slice_blit_before h
    · intro rounds hrounds
      obtain ⟨rounds, rfl⟩ := Nat.exists_eq_succ_of_ne_zero (Nat.ne_zero_of_lt hrounds)
      have hpos : 0 < c.size := by rw [SummaryCall.size]; omega
      rw [parseLoop, if_pos (by omega), hp]
      simp [hlen, hloop rounds (by simpa using hrounds)]
    · rw [List.map_cons, List.map_cons, htriple, htriples]
    · rw [List.map_cons, hlen, hlens]
    · rw [List.getLastD_cons, hlast]

/-- A run of calls that does not fit stores behind the array. -/
theorem Summary.appendAll_overruns (calls : List SummaryCall) (s : Summary) (hs : s.summarysize ≤ summaryRoom)
    (hover : summaryRoom < s.summarysize + summaryTotal calls) : s.appendAll calls = none := by
  induction calls generalizing s with
  | nil => exact absurd hover (not_lt.mpr hs)
  | cons c calls ih =>
    rw [summaryTotal, List.map_cons, List.sum_cons, ← summaryTotal, ← Nat.add_assoc] at hover
    rw [appendAll, pangeaSummary_eq]
    by_cases hroom : s.summarysize + c.size ≤ summaryRoom
    · have hsize : (s.extend c.bytes).summarysize = s.summarysize + c.size := by rw [extend, c.bytes_length]
      rw [if_pos hroom, Option.bind_eq_bind, Option.bind_some,
        ih (s.extend c.bytes) (by rw [hsize]; exact hroom) (by rw [hsize]; exact hover)]
      rfl
    · rw [if_neg hroom]
      rfl

private theorem length_le_total (calls : List SummaryCall) : calls.length ≤ summaryTotal calls := by
  induction calls with
  | nil => exact le_rfl
  | cons c calls ih =>
    rw [summaryTotal, List.map_cons, List.sum_cons, ← summaryTotal, List.length_cons, SummaryCall.size]
    omega

private theorem not_roundTrips_of_overrun {calls : List SummaryCall} (h : summaryRoom < summaryTotal calls) :
    ¬ RoundTrips calls := by
  rintro ⟨s, ends, ps, hrun, -⟩
  rw [Summary.appendAll_overruns calls clearedSummary (Nat.zero_le _) (by simpa [clearedSummary] using h)] at hrun
  exact absurd hrun (by simp)

end Appends

/-- The history of a hand is read back exactly if its records fit in the summary. -/
theorem roundTrips_iff_fits (calls : List SummaryCall) : RoundTrips calls ↔ summaryTotal calls ≤ summaryRoom := by
  constructor
  · intro h
    by_contra hover
    exact not_roundTrips_of_overrun (not_le.mp hover) h
  · intro hfit
    have hzero : clearedSummary.summarysize = 0 := rfl
    obtain ⟨t, ends, ps, hrun, htotal, -, hloop, htriples, hlens, hlast⟩ :=
      Summary.appendAll_parse calls clearedSummary (by rw [hzero, Nat.zero_add]; exact hfit)
    rw [hzero, Nat.zero_add] at htotal
    rw [hzero] at hloop hlast
    refine ⟨t, ends, ps, hrun, hloop _ ?_, htriples, hlens, hlast⟩
    rw [htotal]
    exact Nat.lt_succ_of_le (length_le_total calls)

/-- A hand in which 1873 face up messages arrive: one record of 35 bytes for each. -/
theorem faceups_overrun : ¬ RoundTrips (List.replicate 1873 (.faceup 0 ⟨List.replicate 32 1, rfl⟩)) := by
  apply not_roundTrips_of_overrun
  rw [summaryTotal, List.map_replicate, List.sum_replicate]
  decide

end SuperNet.Games.Pangea
