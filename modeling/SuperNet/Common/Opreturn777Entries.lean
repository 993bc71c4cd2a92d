import Mathlib.Data.List.GetD
import SuperNet.Common.Opreturn777
import SuperNet.Common.Txind777Restart

/-! Which opreturn entries reach their protocol: each on its own bytes, or not. -/
namespace SuperNet.Common.Opreturn777
open SuperNet.Lib.AccessLog SuperNet.Lib.Bytes SuperNet.Lib.Words SuperNet.Coins.Cointx SuperNet.Common.Txind777

/-- The protocol of an entry by its own data: OP_RETURN, a varint behind it whose value and offset make up `datalen`,
and the id of a protocol that has been set up. -/
def ownProtocol (protocols : List Protocol) (opreturn : Entry) : Option Nat :=
  let (len, offset) := opreturn.varint 1
  if opreturn.data.val.headD 0 = OP_RETURN_OPCODE ∧ (len : Int) + offset = opreturn.datalen.toNat then
    protocols.findIdx? fun p => p.registered && p.id = (opreturn.data.val.drop offset.toNat).take 3
  else none

/-- What an entry should lead to by its own data: it is logged and processed by its protocol. -/
def ownEvents (call : Call) (protocols : List Protocol) (opreturn : Entry) : List Event :=
  match ownProtocol protocols opreturn with
  | none => []
  | some p => [.logged p call.currentblocknum call.blocktimestamp opreturn,
      processEvent call p 0 opreturn (opreturn.varint 1).2 (opreturn.varint 1).1 call.currentblocknum call.blocktimestamp]

/-- The entries of a call in the order in which they are taken. -/
def Call.staked (call : Call) : List Entry := call.peggyopreturn.toList.map fun bs => (stakedEntry bs).mark 1

def Call.listed (call : Call) : List Entry := call.list.map (Entry.mark 0)

/-- Every entry is judged on its own data, the flushes apart. -/
def Judged (env : Env) (fuel : Nat) (ops : Opreturns) (call : Call) : Prop :=
  ∃ ops' numvalid, opreturnsProcess env fuel ops call = some (ops', numvalid) ∧
    ops'.events = ops.events ++ flushEvents call ops.protocols ++
      (call.staked ++ call.listed).flatMap (ownEvents call ops.protocols)

/-- The offset that an entry leaves behind. -/
def nextOffset (offset : Int) (opreturn : Entry) : Int :=
  if opreturn.data.val.headD 0 = OP_RETURN_OPCODE then (opreturn.varint offset).2 else offset

/-- Read from a varint at `offset` on, an entry has the length it says and the id of a slot, or no room for an id. -/
def Accepted (protocols : List Protocol) (offset : Int) (opreturn : Entry) : Prop :=
  opreturn.data.val.headD 0 = OP_RETURN_OPCODE ∧
    u64 ((opreturn.varint offset).1 + (opreturn.varint offset).2) = opreturn.datalen.toNat ∧
    ((opreturn.varint offset).2 + 3 ≤ 4096 →
      (opreturnsFind protocols (some ((opreturn.data.val.drop (opreturn.varint offset).2.toNat).take 3)) none).isSome)

/-- The log has a position and an entry in its table for one more item. -/
def Takes (env : Env) (log : Info) (blocknum : Nat) : Prop :=
  log.H.nextpos < 2^47 ∧ (log.blocks.ensure env.junk blocknum log.H.num).isSome

/-- The calls whose entries are judged on their own data: the block is new, the staked entry has room and is taken
only with the id of a protocol, and no entry of the list is taken, neither on its own data nor at the offset that the
entries before it have left behind. -/
structure Clean (env : Env) (ops : Opreturns) (call : Call) : Prop where
  newer : ops.prevblocknum = 0 ∨ u32 (ops.prevblocknum + 1) ≤ call.currentblocknum
  room : ∀ bs ∈ call.peggyopreturn, bs.length ≤ MAX_OPRETURNSIZE
  staked : ∀ opreturn ∈ call.staked, Accepted ops.protocols 1 opreturn →
    (ownProtocol ops.protocols opreturn).isSome ∧ ∀ p ∈ ops.protocols, ∀ log, p.opreturns = some log → Takes env log call.currentblocknum
  listed : ∀ before opreturn after, call.listed = before ++ opreturn :: after →
    ownProtocol ops.protocols opreturn = none ∧
      ¬ Accepted ops.protocols ((call.staked ++ before).foldl nextOffset 1) opreturn

variable {env : Env} {fuel : Nat} {ops ops' : Opreturns} {call : Call}

/-- The table as every call finds it: one protocol with its log, and seven slots of zeros. -/
def Ready (protocols : List Protocol) : Prop :=
  ∃ p log, protocols = p :: List.replicate 7 Protocol.unset ∧ p.id = [0x50, 0x41, 0x58] ∧ p.registered = true ∧
    p.numcontexts = 0 ∧ p.opreturns = some log

theorem Ready.find {protocols : List Protocol} (h : Ready protocols) (id : List UInt8) :
    opreturnsFind protocols (some id) none =
      if id = [0x50, 0x41, 0x58] then some 0 else if id = [0, 0, 0] then some 1 else none := by
  obtain ⟨p, log, rfl, hid, _⟩ := h
  rw [opreturnsFind, List.findIdx?_cons]
  simp only [Option.any_some, Option.any_none, Bool.or_false, hid, decide_eq_true_eq]
  by_cases hpax : id = [0x50, 0x41, 0x58]
  · rw [if_pos hpax.symm, if_pos hpax]
  · rw [if_neg (Ne.symm hpax), if_neg hpax]
    by_cases hzero : id = [0, 0, 0]
    · subst hzero
      rfl
    · have hnone : List.findIdx? (fun p : Protocol => decide (p.id = id)) (List.replicate 7 Protocol.unset) = none := by
        apply List.findIdx?_eq_none_iff.mpr
        intro q hq
        rw [List.eq_of_mem_replicate hq]
        exact decide_eq_false (Ne.symm hzero)
      rw [hnone, if_neg hzero]
      rfl

theorem Ready.own {protocols : List Protocol} (h : Ready protocols) (id : List UInt8) :
    (protocols.findIdx? fun p => p.registered && p.id = id) = if id = [0x50, 0x41, 0x58] then some 0 else none := by
  obtain ⟨p, log, rfl, hid, hregistered, _⟩ := h
  rw [List.findIdx?_cons]
  simp only [hid, hregistered, Bool.true_and, decide_eq_true_eq]
  by_cases hpax : id = [0x50, 0x41, 0x58]
  · rw [if_pos hpax.symm, if_pos hpax]
  · rw [if_neg (Ne.symm hpax), if_neg hpax]
    rfl

theorem Ready.contexts {protocols : List Protocol} (h : Ready protocols) : ∀ p ∈ protocols, p.numcontexts = 0 := by
  obtain ⟨p, log, rfl, _, _, hcontexts, _⟩ := h
  intro q hq
  rcases List.mem_cons.mp hq with rfl | hq
  · exact hcontexts
  · rw [List.eq_of_mem_replicate hq]
    rfl

/-- No protocol has contexts, so the loops over the past blocks are never entered. -/
theorem Ready.lookback {s : Past} (h : Ready s.protocols) (call : Call) (fuel : Nat) : lookback call fuel s = some s := by
  have hskip : ∀ is : List Nat, (∀ i ∈ is, i < s.protocols.length) →
      is.foldlM (fun s i => lookbackContexts call fuel i s) s = some s := by
    intro is his
    induction is with
    | nil => rfl
    | cons i is ih =>
      have hi := his i List.mem_cons_self
      have hcontexts := h.contexts _ (List.getElem_mem hi)
      have hnone : lookbackContexts call fuel i s = some s := by
        rw [lookbackContexts, List.getElem?_eq_getElem hi]
        simp only [hcontexts]
        rfl
      rw [List.foldlM_cons, hnone]
      exact ih fun j hj => his j (List.mem_cons_of_mem _ hj)
  exact hskip _ fun i hi => List.mem_range.mp hi

theorem Ready.flush {protocols : List Protocol} (h : Ready protocols) (call : Call) :
    Ready (protocols.map (Protocol.flush call)) := by
  obtain ⟨p, log, rfl, hid, hregistered, hcontexts, hlog⟩ := h
  refine ⟨p.flush call, txinds777Flush log call.currentblocknum call.blocktimestamp, ?_, hid, hregistered, hcontexts, ?_⟩
  · rw [List.map_cons, List.map_replicate]
    rfl
  · rw [Protocol.flush, hlog]
    rfl

section Entry
variable {s s' : Current} {opreturn : Entry} {i : Nat}

/-- An entry that is not taken only moves the offset. -/
theorem processEntry_skip (h : ¬ Accepted s.protocols s.offset opreturn) :
    processEntry env call s i opreturn = some { s with offset := nextOffset s.offset opreturn } := by
  rw [processEntry, nextOffset]
  by_cases hop : opreturn.data.val.headD 0 = OP_RETURN_OPCODE
  · rw [if_pos hop, if_pos hop]
    by_cases hlen : u64 ((opreturn.varint s.offset).1 + (opreturn.varint s.offset).2) = opreturn.datalen.toNat
    · rw [Accepted, not_and, not_and] at h
      have h := h hop hlen
      push Not at h
      have hfind := Option.not_isSome_iff_eq_none.mp h.2
      simp only [hlen, if_true, if_pos h.1, hfind]
    · simp only [if_neg hlen]
  · rw [if_neg hop, if_neg hop]

theorem Ready.slot {protocols : List Protocol} (h : Ready protocols) (hi : 1 ≤ i) {slot : Protocol}
    (hslot : protocols[i]? = some slot) : slot = Protocol.unset := by
  obtain ⟨p, log, rfl, _⟩ := h
  obtain ⟨i, rfl⟩ := Nat.exists_eq_add_of_le' hi
  rw [List.getElem?_cons_succ] at hslot
  exact List.eq_of_mem_replicate (List.mem_of_getElem? hslot)

private theorem Ready.taken {protocols : List Protocol} (h : Ready protocols) {id : List UInt8} {p : Nat}
    (hfind : opreturnsFind protocols (some id) none = some p) {protocol : Protocol} (hp : protocols[p]? = some protocol)
    (hregistered : protocol.registered = true) : p = 0 ∧ id = [0x50, 0x41, 0x58] := by
  rw [h.find] at hfind
  by_cases hpax : id = [0x50, 0x41, 0x58]
  · rw [if_pos hpax] at hfind
    exact ⟨(Option.some.inj hfind).symm, hpax⟩
  · rw [if_neg hpax] at hfind
    split at hfind
    · cases hfind
      rw [h.slot (le_refl 1) hp] at hregistered
      cases hregistered
    · cases hfind

/-- What taking an entry comes to when it comes back. -/
theorem take_cases (hready : Ready s.protocols) (h : Accepted s.protocols s.offset opreturn)
    (hentry : processEntry env call s i opreturn = some s') :
    (opreturn.varint s.offset).2 + 3 ≤ 4096 ∧
    (opreturn.data.val.drop (opreturn.varint s.offset).2.toNat).take 3 = [0x50, 0x41, 0x58] ∧
    ∃ slot created, s.protocols[i]? = some slot ∧ createEntry env call i slot opreturn = some created ∧
      s' = ⟨s.protocols.set i created.1, (opreturn.varint s.offset).2, s.events ++ (created.2 ++
        [processEvent call 0 0 opreturn (opreturn.varint s.offset).2 (opreturn.varint s.offset).1 call.currentblocknum
          call.blocktimestamp]), s.numvalid + 1⟩ := by
  rw [processEntry, if_pos h.1] at hentry
  simp only [h.2.1, if_true] at hentry
  split at hentry
  case isFalse => cases hentry
  case isTrue hroom =>
    obtain ⟨p, hp⟩ := Option.isSome_iff_exists.mp (h.2.2 hroom)
    simp only [hp] at hentry
    obtain ⟨slot, hslot, hentry⟩ := Option.bind_eq_some_iff.mp hentry
    obtain ⟨created, hcreated, hentry⟩ := Option.bind_eq_some_iff.mp hentry
    obtain ⟨protocol, hprotocol, hentry⟩ := Option.bind_eq_some_iff.mp hentry
    split at hentry
    case isFalse => cases hentry
    case isTrue hregistered =>
      obtain ⟨rfl, hid⟩ := hready.taken hp hprotocol hregistered
      cases hentry
      exact ⟨hroom, hid, slot, created, hslot, hcreated, rfl⟩

private theorem set_self {protocols : List Protocol} {slot : Protocol} (h : protocols[i]? = some slot) :
    protocols.set i slot = protocols := by
  obtain ⟨hi, rfl⟩ := List.getElem?_eq_some_iff.mp h
  exact List.set_getElem_self hi

/-- An entry of the list that is taken is processed and not logged. -/
theorem processEntry_listed (hready : Ready s.protocols) (h : Accepted s.protocols s.offset opreturn) (hi : 1 ≤ i)
    (hentry : processEntry env call s i opreturn = some s') :
    s'.protocols = s.protocols ∧ s'.offset = nextOffset s.offset opreturn ∧ ∃ len offset, s'.events = s.events ++
      [processEvent call 0 0 opreturn offset len call.currentblocknum call.blocktimestamp] := by
  obtain ⟨_, _, slot, created, hslot, hcreated, rfl⟩ := take_cases hready h hentry
  obtain rfl := hready.slot hi hslot
  cases hcreated
  rw [nextOffset, if_pos h.1]
  exact ⟨set_self hslot, rfl, _, _, rfl⟩

private theorem takes_of_create {log log' : Info} {blocknum timestamp : Nat} {txdata : List UInt8} {txind : Int}
    (hne : txdata ≠ []) (h : txind777Create env.sha env.junk log blocknum timestamp txdata = some (log', txind)) :
    Takes env log blocknum ∧ 0 ≤ txind := by
  rw [txind777Create, if_neg hne] at h
  split at h
  case isTrue => cases h
  case isFalse hsmall =>
    obtain ⟨t, ht, h⟩ := Option.bind_eq_some_iff.mp h
    obtain ⟨b, hb, _⟩ := Option.bind_eq_some_iff.mp ht
    cases h
    exact ⟨⟨not_le.mp hsmall, Option.isSome_iff_exists.mpr ⟨b, hb⟩⟩, Int.natCast_nonneg _⟩

theorem create_of_takes {log : Info} {blocknum : Nat} (timestamp : Nat) {txdata : List UInt8} (hne : txdata ≠ [])
    (h : Takes env log blocknum) :
    ∃ created, txind777Create env.sha env.junk log blocknum timestamp txdata = some created := by
  obtain ⟨hsmall, hensure⟩ := h
  obtain ⟨b, hb⟩ := Option.isSome_iff_exists.mp hensure
  have htable : ∀ txlog, txinds777Ensure env.junk { log with txlog := txlog } blocknum log.H.num =
      some ({ log with txlog := txlog }.setBlocks b) := by
    intro txlog
    exact congrArg (fun b : Option Blocks => b.bind fun b => some ({ log with txlog := txlog }.setBlocks b)) hb
  rw [txind777Create, if_neg hne, if_neg (not_le.mpr hsmall)]
  simp only [htable]
  exact ⟨_, rfl⟩

/-- The staked entry, when it is taken, is logged and processed. -/
theorem processEntry_staked (hready : Ready s.protocols) (h : Accepted s.protocols s.offset opreturn)
    (hbytes : loggedBytes env opreturn ≠ []) (hentry : processEntry env call s 0 opreturn = some s') :
    Ready s'.protocols ∧ s'.offset = nextOffset s.offset opreturn ∧
      (∃ log, (s.protocols[0]?.bind Protocol.opreturns) = some log ∧ Takes env log call.currentblocknum) ∧
      s'.events = s.events ++ [.logged 0 call.currentblocknum call.blocktimestamp opreturn,
        processEvent call 0 0 opreturn (opreturn.varint s.offset).2 (opreturn.varint s.offset).1 call.currentblocknum
          call.blocktimestamp] := by
  obtain ⟨_, _, slot, created, hslot, hcreated, rfl⟩ := take_cases hready h hentry
  obtain ⟨p, log, hprotocols, hid, hregistered, hcontexts, hlog⟩ := hready
  rw [hprotocols] at hslot ⊢
  obtain rfl := Option.some.inj hslot
  rw [createEntry, hlog] at hcreated
  obtain ⟨⟨log', txind⟩, hcreate, rfl⟩ := Option.map_eq_some_iff.mp hcreated
  obtain ⟨htakes, hpos⟩ := takes_of_create hbytes hcreate
  refine ⟨⟨{ p with opreturns := some log' }, log', rfl, hid, hregistered, hcontexts, rfl⟩, ?_, ⟨log, hlog, htakes⟩, ?_⟩
  · rw [nextOffset, if_pos h.1]
  · dsimp only
    rw [if_pos hpos]
    rfl

private theorem varint_one (opreturn : Entry) : 2 ≤ (opreturn.varint 1).2 ∧ (opreturn.varint 1).2 ≤ 10 := by
  rw [Entry.varint, hdecodeVarint, if_neg (by norm_num), value_bind]
  have hfield : ∀ w : Nat, w ≤ 8 →
      (varintField (memory opreturn.data.val fun _ => 0) (1 + 1) 4096 w).value.2 = 2 + w := by
    intro w hw
    rw [varintField, if_neg (by omega)]
    rfl
  split
  · rw [hfield 2 (by norm_num)]
    norm_num
  · split
    · rw [hfield 4 (by norm_num)]
      norm_num
    · split
      · rw [hfield 8 (by norm_num)]
        norm_num
      · rw [value_pure]
        norm_num

/-- An entry that is sound by its own data is taken at offset 1, for its protocol. -/
theorem accepted_of_own {protocols : List Protocol} (hready : Ready protocols) {p : Nat}
    (h : ownProtocol protocols opreturn = some p) :
    p = 0 ∧ Accepted protocols 1 opreturn ∧
      opreturnsFind protocols (some ((opreturn.data.val.drop (opreturn.varint 1).2.toNat).take 3)) none = some 0 := by
  rw [ownProtocol] at h
  simp only [hready.own] at h
  split at h
  case isFalse => cases h
  case isTrue hsound =>
    split at h
    case isFalse => cases h
    case isTrue hid =>
      cases h
      have hfind : opreturnsFind protocols (some ((opreturn.data.val.drop (opreturn.varint 1).2.toNat).take 3)) none = some 0 := by
        rw [hready.find, if_pos hid]
      have hword : u64 ((opreturn.varint 1).1 + (opreturn.varint 1).2) = opreturn.datalen.toNat := by
        rw [hsound.2]
        exact unsigned_of_lt (lt_trans (UInt16.toNat_lt _) (by norm_num))
      exact ⟨rfl, ⟨hsound.1, hword, fun _ => by rw [hfind]; rfl⟩, hfind⟩

/-- A sound staked entry that the log has room for goes through. -/
theorem processEntry_own (hready : Ready s.protocols) (hoffset : s.offset = 1) {p : Nat}
    (h : ownProtocol s.protocols opreturn = some p) (hbytes : loggedBytes env opreturn ≠ [])
    (htakes : ∀ p ∈ s.protocols, ∀ log, p.opreturns = some log → Takes env log call.currentblocknum) :
    ∃ s', processEntry env call s 0 opreturn = some s' := by
  obtain ⟨rfl, haccepted, hfind⟩ := accepted_of_own hready h
  have hroom := varint_one opreturn
  obtain ⟨p, log, hprotocols, hid, hregistered, hcontexts, hlog⟩ := hready
  have hslot : s.protocols[0]? = some p := by
    rw [hprotocols]
    rfl
  have hcreated : ∃ created, createEntry env call 0 p opreturn = some created := by
    obtain ⟨created, hcreate⟩ := create_of_takes call.blocktimestamp hbytes
      (htakes p (List.mem_of_getElem? hslot) log hlog)
    rw [createEntry, hlog]
    exact ⟨_, congrArg (Option.map _) hcreate⟩
  obtain ⟨created, hcreated⟩ := hcreated
  rw [processEntry, if_pos haccepted.1, hoffset]
  simp only [haccepted.2.1, if_true, hfind, takeEntry, hslot, Option.bind_eq_bind, Option.bind_some, hcreated, hregistered]
  rw [if_pos (by omega)]
  exact ⟨_, rfl⟩

end Entry

/-- The events of the entries of a list, from round 1 on: nothing is logged, and nothing is processed exactly if no
entry is taken. -/
theorem processList_events {s s' : Current} {i : Nat} {list : List Entry} (hready : Ready s.protocols) (hi : 1 ≤ i)
    (h : processList env call s i list = some s') :
    Ready s'.protocols ∧ ∃ events, s'.events = s.events ++ events ∧
      (∀ event ∈ events, ∃ (opreturn : Entry) (len : Nat) (offset : Int),
        event = processEvent call 0 0 (opreturn.mark 0) offset len call.currentblocknum call.blocktimestamp) ∧
      (events = [] → ∀ before opreturn after, list.map (Entry.mark 0) = before ++ opreturn :: after →
        ¬ Accepted s.protocols (before.foldl nextOffset s.offset) opreturn) := by
  induction list generalizing s i with
  | nil =>
    cases h
    refine ⟨hready, [], (List.append_nil _).symm, ?_, ?_⟩
    · intro event hevent
      cases hevent
    intro _ before opreturn after hsplit
    exact absurd hsplit.symm (List.append_ne_nil_of_right_ne_nil _ (List.cons_ne_nil _ _))
  | cons opreturn list ih =>
    obtain ⟨s₁, hentry, hrest⟩ := Option.bind_eq_some_iff.mp h
    by_cases haccepted : Accepted s.protocols s.offset (opreturn.mark 0)
    · obtain ⟨hprotocols, _, len, offset, hevents⟩ := processEntry_listed hready haccepted hi hentry
      obtain ⟨hready', events, hevents', hall, _⟩ := ih (hprotocols ▸ hready) (Nat.le_succ_of_le hi) hrest
      refine ⟨hready', processEvent call 0 0 (opreturn.mark 0) offset len call.currentblocknum call.blocktimestamp :: events,
        ?_, ?_, ?_⟩
      · rw [hevents', hevents, List.append_assoc]
        rfl
      · intro event hevent
        rcases List.mem_cons.mp hevent with rfl | hevent
        · exact ⟨opreturn, len, offset, rfl⟩
        · exact hall event hevent
      · intro hnil
        cases hnil
    · rw [processEntry_skip haccepted] at hentry
      cases hentry
      obtain ⟨hready', events, hevents', hall, hnone⟩ :=
        ih (s := { s with offset := nextOffset s.offset (opreturn.mark 0) }) hready (Nat.le_succ_of_le hi) hrest
      refine ⟨hready', events, hevents', hall, ?_⟩
      intro hnil before other after hsplit
      cases before with
      | nil =>
        cases hsplit
        exact haccepted
      | cons first before =>
        rw [List.map_cons, List.cons_append, List.cons.injEq] at hsplit
        obtain ⟨rfl, hsplit⟩ := hsplit
        exact hnone hnil before other after hsplit

/-- A list of which no entry is taken goes through without an event. -/
theorem processList_skip {s : Current} {i : Nat} {list : List Entry}
    (h : ∀ before opreturn after, list.map (Entry.mark 0) = before ++ opreturn :: after →
      ¬ Accepted s.protocols (before.foldl nextOffset s.offset) opreturn) :
    ∃ s', processList env call s i list = some s' ∧ s'.events = s.events := by
  induction list generalizing s i with
  | nil => exact ⟨s, rfl, rfl⟩
  | cons opreturn list ih =>
    have hskip : processEntry env call s i (opreturn.mark 0) =
        some { s with offset := nextOffset s.offset (opreturn.mark 0) } := processEntry_skip (h [] _ _ rfl)
    obtain ⟨s', hs', hevents⟩ := ih (s := { s with offset := nextOffset s.offset (opreturn.mark 0) }) (i := i + 1) (by
      intro before other after hsplit
      exact h (_ :: before) other after (by rw [List.map_cons, hsplit]; rfl))
    refine ⟨s', ?_, hevents⟩
    rw [processList]
    exact (congrArg (fun s : Option Current => s.bind fun s => processList env call s (i + 1) list) hskip).trans hs'

theorem Ready.accepted {P Q : List Protocol} (hP : Ready P) (hQ : Ready Q) (offset : Int) (opreturn : Entry) :
    Accepted P offset opreturn ↔ Accepted Q offset opreturn := by
  rw [Accepted, Accepted, hP.find, hQ.find]

theorem Ready.ownProtocol {P Q : List Protocol} (hP : Ready P) (hQ : Ready Q) (opreturn : Entry) :
    ownProtocol P opreturn = ownProtocol Q opreturn := by
  rw [Opreturn777.ownProtocol, Opreturn777.ownProtocol]
  simp only [hP.own, hQ.own]

theorem Ready.ownEvents {P Q : List Protocol} (hP : Ready P) (hQ : Ready Q) (call : Call) (opreturn : Entry) :
    ownEvents call P opreturn = ownEvents call Q opreturn := by
  rw [Opreturn777.ownEvents, Opreturn777.ownEvents, hP.ownProtocol hQ]

def stakedEvents (call : Call) (opreturn : Entry) : List Event :=
  [.logged 0 call.currentblocknum call.blocktimestamp opreturn,
    processEvent call 0 0 opreturn (opreturn.varint 1).2 (opreturn.varint 1).1 call.currentblocknum call.blocktimestamp]

private theorem ownEvents_of_own {protocols : List Protocol} (hready : Ready protocols) {opreturn : Entry} {p : Nat}
    (h : ownProtocol protocols opreturn = some p) : ownEvents call protocols opreturn = stakedEvents call opreturn := by
  obtain ⟨rfl, _⟩ := accepted_of_own hready h
  rw [ownEvents, h]
  rfl

private theorem ownEvents_of_none {protocols : List Protocol} {opreturn : Entry} (h : ownProtocol protocols opreturn = none) :
    ownEvents call protocols opreturn = [] := by
  rw [ownEvents, h]

theorem loggedBytes_ne {opreturn : Entry} (h : opreturn.datalen.toNat ≤ 4096) : loggedBytes env opreturn ≠ [] := by
  have hlen : u16 ((4176 : Int) - 4096 + opreturn.datalen.toNat + 8) = 88 + opreturn.datalen.toNat := by
    have hcast : (4176 : Int) - 4096 + opreturn.datalen.toNat + 8 = ((88 + opreturn.datalen.toNat : Nat) : Int) := by
      push_cast
      ring
    rw [hcast]
    exact unsigned_of_lt (by omega)
  intro hnil
  rw [loggedBytes, hlen] at hnil
  rcases List.take_eq_nil_iff.mp hnil with hzero | hnil
  · omega
  · have hvout := congrArg List.length (List.append_eq_nil_iff.mp hnil).1
    simp only [Entry.bytes, List.length_append, opreturn.vout.property, List.length_nil] at hvout
    omega

theorem staked_datalen {bs : List UInt8} (h : bs.length ≤ MAX_OPRETURNSIZE) :
    ((stakedEntry bs).mark 1).datalen.toNat ≤ 4096 := by
  change (UInt16.ofNat bs.length).toNat ≤ 4096
  rw [UInt16.toNat_ofNat']
  exact (Nat.mod_le _ _).trans h

/-- Round 0, when it comes back. -/
theorem processStaked_events {s s' : Current} (hready : Ready s.protocols) (hoffset : s.offset = 1)
    (h : processStaked env call s = some s') :
    Ready s'.protocols ∧ s'.offset = call.staked.foldl nextOffset 1 ∧ (∀ bs ∈ call.peggyopreturn, bs.length ≤ MAX_OPRETURNSIZE) ∧
      ((∃ opreturn, call.staked = [opreturn] ∧ Accepted s.protocols 1 opreturn ∧
          (∃ log, (s.protocols[0]?.bind Protocol.opreturns) = some log ∧ Takes env log call.currentblocknum) ∧
          s'.events = s.events ++ stakedEvents call opreturn) ∨
        (∀ opreturn ∈ call.staked, ¬ Accepted s.protocols 1 opreturn) ∧ s'.events = s.events) := by
  cases hstaked : call.peggyopreturn with
  | none =>
    rw [processStaked, hstaked] at h
    cases h
    have hnil : call.staked = [] := by rw [Call.staked, hstaked]; rfl
    rw [hnil]
    refine ⟨hready, hoffset, ?_, .inr ⟨?_, rfl⟩⟩
    · intro bs hbs
      cases hbs
    · intro opreturn hmem
      cases hmem
  | some bs =>
    simp only [processStaked, hstaked] at h
    split at h
    case isFalse => cases h
    case isTrue hroom =>
      have hone : call.staked = [(stakedEntry bs).mark 1] := by rw [Call.staked, hstaked]; rfl
      have hsize : ∀ bs' ∈ some bs, bs'.length ≤ MAX_OPRETURNSIZE := by
        intro bs' hbs'
        cases hbs'
        exact hroom
      rw [hone]
      by_cases haccepted : Accepted s.protocols s.offset ((stakedEntry bs).mark 1)
      · obtain ⟨hready', hoffset', htakes, hevents⟩ :=
          processEntry_staked hready haccepted (loggedBytes_ne (staked_datalen hroom)) h
        rw [hoffset] at haccepted hoffset' hevents
        exact ⟨hready', hoffset', hsize, .inl ⟨_, rfl, haccepted, htakes, hevents⟩⟩
      · rw [processEntry_skip haccepted] at h
        cases h
        rw [hoffset] at haccepted
        refine ⟨hready, by rw [hoffset]; rfl, hsize, .inr ⟨?_, rfl⟩⟩
        intro opreturn hmem
        rwa [List.mem_singleton.mp hmem]

theorem ready_init (log : Info) (lookbacks : Nat → Int) : Ready (opreturnsInit log lookbacks).protocols :=
  ⟨pax log lookbacks, log, rfl, rfl, rfl, rfl, rfl⟩

/-- How a call that comes back runs. -/
theorem process_cases {numvalid : Nat} (hready : Ready ops.protocols)
    (h : opreturnsProcess env fuel ops call = some (ops', numvalid)) :
    (ops.prevblocknum = 0 ∨ u32 (ops.prevblocknum + 1) ≤ call.currentblocknum) ∧ ∃ s s' : Current,
      processStaked env call ⟨ops.protocols.map (Protocol.flush call), 1, ops.events ++ flushEvents call ops.protocols, 0⟩ =
        some s ∧ processList env call s 1 call.list = some s' ∧ ops' = ⟨s'.protocols, call.currentblocknum, s'.events⟩ := by
  rw [opreturnsProcess] at h
  split at h
  case isTrue => cases h
  case isFalse hnewer =>
    have hlookback := Ready.lookback (s := ⟨ops.protocols.map (Protocol.flush call), 1, env.buf,
      ops.events ++ flushEvents call ops.protocols⟩) (hready.flush call) call fuel
    simp only [hlookback, Option.bind_eq_bind, Option.bind_some] at h
    obtain ⟨s, hs, h⟩ := Option.bind_eq_some_iff.mp h
    obtain ⟨s', hs', h⟩ := Option.bind_eq_some_iff.mp h
    cases h
    exact ⟨by omega, s, s', hs, hs', rfl⟩

theorem Ready.step {numvalid : Nat} (hready : Ready ops.protocols)
    (h : opreturnsProcess env fuel ops call = some (ops', numvalid)) : Ready ops'.protocols := by
  obtain ⟨_, s, s', hs, hs', rfl⟩ := process_cases hready h
  obtain ⟨hready', _⟩ := processStaked_events (hready.flush call) rfl hs
  exact (processList_events hready' (le_refl 1) hs').1

theorem ready_run {log : Info} {lookbacks : Nat → Int} {calls : List Call}
    (h : run env fuel (opreturnsInit log lookbacks) calls = some ops) : Ready ops.protocols := by
  have hfold : ∀ (calls : List Call) (start : Opreturns), Ready start.protocols → run env fuel start calls = some ops →
      Ready ops.protocols := by
    intro calls
    induction calls with
    | nil =>
      intro start hstart h
      cases h
      exact hstart
    | cons call calls ih =>
      intro start hstart h
      obtain ⟨next, hnext, hrest⟩ := Option.bind_eq_some_iff.mp h
      obtain ⟨⟨ops', numvalid⟩, hprocess, rfl⟩ := Option.map_eq_some_iff.mp hnext
      exact ih _ (hstart.step hprocess) hrest
  exact hfold calls _ (ready_init log lookbacks) h

/-- Whether an event is about a staked entry. -/
def Event.isstaked : Event → Nat
  | .flushed .. => 0
  | .logged _ _ _ opreturn => opreturn.isstaked
  | .processed _ _ _ _ _ _ _ _ _ isstaked => isstaked

private theorem ownEvents_isstaked {protocols : List Protocol} {opreturn : Entry} {event : Event}
    (h : event ∈ ownEvents call protocols opreturn) : event.isstaked = opreturn.isstaked := by
  rw [ownEvents] at h
  split at h
  · cases h
  · rcases List.mem_pair.mp h with rfl | rfl <;> rfl

private theorem staked_split {as bs cs ds : List Event} (h : as ++ bs = cs ++ ds) (has : ∀ e ∈ as, e.isstaked = 1)
    (hbs : ∀ e ∈ bs, e.isstaked = 0) (hcs : ∀ e ∈ cs, e.isstaked = 1) (hds : ∀ e ∈ ds, e.isstaked = 0) :
    as = cs ∧ bs = ds := by
  have hkeep : ∀ {es : List Event}, (∀ e ∈ es, e.isstaked = 1) → es.filter (fun e => e.isstaked = 1) = es := by
    intro es hes
    exact List.filter_eq_self.mpr fun e he => decide_eq_true (hes e he)
  have hdrop : ∀ {es : List Event}, (∀ e ∈ es, e.isstaked = 0) → es.filter (fun e => e.isstaked = 1) = [] := by
    intro es hes
    refine List.filter_eq_nil_iff.mpr fun e he => ?_
    rw [hes e he]
    decide
  have hstaked := congrArg (List.filter fun e : Event => decide (e.isstaked = 1)) h
  rw [List.filter_append, List.filter_append, hkeep has, hkeep hcs, hdrop hbs, hdrop hds, List.append_nil,
    List.append_nil] at hstaked
  subst hstaked
  exact ⟨rfl, List.append_cancel_left h⟩

theorem takes_flush {protocols : List Protocol} {blocknum : Nat} (call : Call)
    (h : ∀ p ∈ protocols, ∀ log, p.opreturns = some log → Takes env log blocknum) :
    ∀ p ∈ protocols.map (Protocol.flush call), ∀ log, p.opreturns = some log → Takes env log blocknum := by
  intro q hq log hlog
  obtain ⟨p, hp, rfl⟩ := List.mem_map.mp hq
  obtain ⟨log', hlog', rfl⟩ := Option.map_eq_some_iff.mp hlog
  exact h p hp log' hlog'

theorem takes_of_flush {protocols : List Protocol} (hready : Ready protocols) {blocknum : Nat} {log : Info}
    (hlog : ((protocols.map (Protocol.flush call))[0]?.bind Protocol.opreturns) = some log) (htakes : Takes env log blocknum) :
    ∀ p ∈ protocols, ∀ log, p.opreturns = some log → Takes env log blocknum := by
  obtain ⟨p₀, log₀, rfl, _, _, _, hlog₀⟩ := hready
  intro p hp log' hlog'
  rcases List.mem_cons.mp hp with rfl | hp
  · rw [hlog₀] at hlog'
    cases hlog'
    change (p.opreturns.map fun log => txinds777Flush log call.currentblocknum call.blocktimestamp) = some log at hlog
    rw [hlog₀] at hlog
    cases hlog
    exact htakes
  · rw [List.eq_of_mem_replicate hp] at hlog'
    cases hlog'

private theorem staked_of_clean (hready : Ready ops.protocols) (h : Clean env ops call) (s : Current)
    (hs : s.protocols = ops.protocols.map (Protocol.flush call)) (hone : s.offset = 1) :
    ∃ s', processStaked env call s = some s' ∧ Ready s'.protocols ∧ s'.offset = call.staked.foldl nextOffset 1 ∧
      s'.events = s.events ++ call.staked.flatMap (ownEvents call ops.protocols) := by
  have hflushed : Ready s.protocols := by rw [hs]; exact hready.flush call
  have hsome : ∃ s', processStaked env call s = some s' := by
    rw [processStaked]
    cases hstaked : call.peggyopreturn with
    | none => exact ⟨s, rfl⟩
    | some bs =>
      have hroom := h.room bs hstaked
      have hmem : (stakedEntry bs).mark 1 ∈ call.staked := by
        rw [Call.staked, hstaked]
        exact List.mem_singleton_self _
      dsimp only
      rw [if_pos hroom]
      by_cases haccepted : Accepted ops.protocols 1 ((stakedEntry bs).mark 1)
      · obtain ⟨hown, htakes⟩ := h.staked _ hmem haccepted
        obtain ⟨p, hp⟩ := Option.isSome_iff_exists.mp hown
        rw [hready.ownProtocol hflushed] at hp
        refine processEntry_own hflushed hone hp (loggedBytes_ne (staked_datalen hroom)) ?_
        rw [hs]
        exact takes_flush call htakes
      · rw [hready.accepted hflushed, ← hone] at haccepted
        exact ⟨_, processEntry_skip haccepted⟩
  obtain ⟨s', hs'⟩ := hsome
  obtain ⟨hready', hoffset, _, hevents⟩ := processStaked_events hflushed hone hs'
  refine ⟨s', hs', hready', hoffset, ?_⟩
  rcases hevents with ⟨opreturn, hstaked, haccepted, _, hevents⟩ | ⟨hskip, hevents⟩
  · have hmem : opreturn ∈ call.staked := by rw [hstaked]; exact List.mem_singleton_self _
    obtain ⟨p, hp⟩ := Option.isSome_iff_exists.mp (h.staked opreturn hmem ((hready.accepted hflushed _ _).mpr haccepted)).1
    rw [hevents, hstaked, List.flatMap_singleton, ownEvents_of_own hready hp]
  · have hnil : call.staked.flatMap (ownEvents call ops.protocols) = [] := by
      refine List.flatMap_eq_nil_iff.mpr fun opreturn hmem => ?_
      apply ownEvents_of_none
      cases hown : ownProtocol ops.protocols opreturn with
      | none => rfl
      | some p => exact absurd ((hready.accepted hflushed _ _).mp (accepted_of_own hready hown).2.1) (hskip opreturn hmem)
    rw [hevents, hnil, List.append_nil]

theorem clean_of_judged (hready : Ready ops.protocols) (h : Judged env fuel ops call) : Clean env ops call := by
  have hflushed := hready.flush call
  obtain ⟨ops', numvalid, hprocess, hevents⟩ := h
  obtain ⟨hnewer, s, s', hs, hs', rfl⟩ := process_cases hready hprocess
  obtain ⟨hready', hoffset, hroom, hstaked⟩ := processStaked_events hflushed rfl hs
  obtain ⟨_, events, hlist, hall, hnone⟩ := processList_events hready' (le_refl 1) hs'
  have hone : ∀ e ∈ call.staked.flatMap (ownEvents call ops.protocols), e.isstaked = 1 := by
    intro e he
    obtain ⟨opreturn, hmem, he⟩ := List.mem_flatMap.mp he
    obtain ⟨bs, _, rfl⟩ := List.mem_map.mp hmem
    exact ownEvents_isstaked he
  have hzero : ∀ e ∈ call.listed.flatMap (ownEvents call ops.protocols), e.isstaked = 0 := by
    intro e he
    obtain ⟨opreturn, hmem, he⟩ := List.mem_flatMap.mp he
    obtain ⟨other, _, rfl⟩ := List.mem_map.mp hmem
    exact ownEvents_isstaked he
  have hzero' : ∀ e ∈ events, e.isstaked = 0 := by
    intro e he
    obtain ⟨opreturn, len, offset, rfl⟩ := hall e he
    rfl
  have hlisted : events = call.listed.flatMap (ownEvents call ops.protocols) ∧
      ∀ opreturn ∈ call.staked, Accepted ops.protocols 1 opreturn → (ownProtocol ops.protocols opreturn).isSome ∧
        ∀ p ∈ ops.protocols, ∀ log, p.opreturns = some log → Takes env log call.currentblocknum := by
    change s'.events = _ at hevents
    rcases hstaked with ⟨opreturn, hstaked, haccepted, ⟨log, hlog, htakes⟩, hpart⟩ | ⟨hskip, hpart⟩
    · rw [hlist, hpart, List.flatMap_append, List.append_assoc (ops.events ++ _)] at hevents
      have hsplit := staked_split (List.append_cancel_left hevents) (by
        intro e he
        have hmark : opreturn.isstaked = 1 := by
          have hmem : opreturn ∈ call.staked := by rw [hstaked]; exact List.mem_singleton_self _
          obtain ⟨bs, _, rfl⟩ := List.mem_map.mp hmem
          rfl
        rcases List.mem_pair.mp he with rfl | rfl <;> exact hmark) hzero' hone hzero
      refine ⟨hsplit.2, fun other hother _ => ?_⟩
      have hown := hsplit.1
      rw [hstaked, List.flatMap_singleton] at hown
      rw [hstaked] at hother
      rw [List.mem_singleton.mp hother]
      refine ⟨?_, takes_of_flush hready hlog htakes⟩
      cases hcase : ownProtocol ops.protocols opreturn with
      | none =>
        rw [ownEvents_of_none hcase] at hown
        cases hown
      | some p => rfl
    · rw [hlist, hpart, List.flatMap_append] at hevents
      have hcancel : [] ++ events = _ := List.append_cancel_left hevents
      have hsplit := staked_split hcancel (fun e he => by cases he) hzero' hone hzero
      refine ⟨hsplit.2, fun opreturn hopreturn haccepted => ?_⟩
      exact absurd ((hready.accepted hflushed 1 opreturn).mp haccepted) (hskip opreturn hopreturn)
  have hown : ∀ opreturn ∈ call.listed, ownProtocol ops.protocols opreturn = none := by
    intro opreturn hmem
    cases hcase : ownProtocol ops.protocols opreturn with
    | none => rfl
    | some p =>
      -- it would have been logged
      have hlogged : Event.logged 0 call.currentblocknum call.blocktimestamp opreturn ∈ events := by
        rw [hlisted.1]
        refine List.mem_flatMap.mpr ⟨opreturn, hmem, ?_⟩
        rw [ownEvents_of_own hready hcase]
        exact List.mem_cons_self
      obtain ⟨_, _, _, heq⟩ := hall _ hlogged
      cases heq
  have hempty : events = [] := by
    rw [hlisted.1]
    refine List.flatMap_eq_nil_iff.mpr fun opreturn hmem => ?_
    exact ownEvents_of_none (hown opreturn hmem)
  refine ⟨hnewer, hroom, hlisted.2, ?_⟩
  intro before opreturn after hsplit
  refine ⟨hown opreturn ?_, ?_⟩
  · rw [hsplit]
    exact List.mem_append_right _ List.mem_cons_self
  · have hskip := hnone hempty before opreturn after hsplit
    rw [hoffset] at hskip
    rw [List.foldl_append, hready.accepted hready']
    exact hskip

theorem judged_of_clean (hready : Ready ops.protocols) (h : Clean env ops call) : Judged env fuel ops call := by
  have hflushed := hready.flush call
  obtain ⟨s, hs, hready', hoffset, hevents⟩ := staked_of_clean hready h ⟨ops.protocols.map (Protocol.flush call), 1,
    ops.events ++ flushEvents call ops.protocols, 0⟩ rfl rfl
  have hskip : ∀ before opreturn after, call.list.map (Entry.mark 0) = before ++ opreturn :: after →
      ¬ Accepted s.protocols (before.foldl nextOffset s.offset) opreturn := by
    intro before opreturn after hsplit
    rw [hoffset, ← List.foldl_append, hready'.accepted hready]
    exact (h.listed before opreturn after hsplit).2
  obtain ⟨s', hs', hevents'⟩ : ∃ s', processList env call s 1 call.list = some s' ∧ s'.events = s.events :=
    processList_skip hskip
  have hlookback := Ready.lookback (s := ⟨ops.protocols.map (Protocol.flush call), 1, env.buf,
    ops.events ++ flushEvents call ops.protocols⟩) hflushed call fuel
  refine ⟨⟨s'.protocols, call.currentblocknum, s'.events⟩, s'.numvalid, ?_, ?_⟩
  · have hnewer := h.newer
    rw [opreturnsProcess, if_neg (by omega)]
    simp only [hlookback, Option.bind_eq_bind, Option.bind_some, hs, hs']
  · have hlisted : call.listed.flatMap (ownEvents call ops.protocols) = [] := by
      refine List.flatMap_eq_nil_iff.mpr fun opreturn hmem => ?_
      obtain ⟨before, after, hsplit⟩ := List.append_of_mem hmem
      exact ownEvents_of_none (h.listed before opreturn after hsplit).1
    change s'.events = _
    rw [hevents', hevents, List.flatMap_append, hlisted, List.append_nil]

/-- Exactly in the clean calls every entry is judged on its own data. -/
theorem judged_iff {log : Info} {lookbacks : Nat → Int} {calls : List Call}
    (hrun : run env fuel (opreturnsInit log lookbacks) calls = some ops) (call : Call) :
    Judged env fuel ops call ↔ Clean env ops call :=
  ⟨clean_of_judged (ready_run hrun), judged_of_clean (ready_run hrun)⟩

private theorem padded_getD {bs : List UInt8} {n i : Nat} (hi : i < n) : (padded n bs).val.getD i 0 = bs.getD i 0 := by
  rw [padded, List.getD_eq_getElem?_getD, List.getElem?_take, if_pos hi, ← List.getD_eq_getElem?_getD]
  by_cases h : i < bs.length
  · rw [List.getD_append _ _ _ _ h]
  · rw [List.getD_append_right _ _ _ _ (not_lt.mp h), List.getD_replicate _ (by omega), List.getD_eq_default _ _ (not_lt.mp h)]

private theorem varint_short {opreturn : Entry} {b : UInt8} (hb : opreturn.data.val.getD 1 0 = b) (hlt : b.toNat < 0xfd) :
    opreturn.varint 1 = (b.toNat, 2) := by
  have hmem : memory opreturn.data.val (fun _ => 0) 1 = b := by
    rw [memory, opreturn.data.property, if_pos (by norm_num)]
    exact hb
  have hne : ∀ c : UInt8, 0xfd ≤ c.toNat → b ≠ c := by
    rintro c hc rfl
    omega
  rw [Entry.varint, hdecodeVarint, if_neg (by norm_num), value_bind, readByte]
  dsimp only
  rw [hmem, if_neg (hne _ (by decide)), if_neg (hne _ (by decide)), if_neg (hne _ (by decide))]
  rfl

/-- A short opreturn of the protocol. -/
def sampleOpreturn : List UInt8 := [0x6a, 5, 0x50, 0x41, 0x58, 1, 2]

def sampleEnv : Env := ⟨sampleSha, fun _ => 0, fun _ => 0, List.replicate 16384 0⟩

def sampleOpreturns : Opreturns := opreturnsInit (opened sampleSha) fun _ => 1000

def sampleCall : Call := ⟨0, 7, 1438300000, [], some sampleOpreturn⟩

/-- The same opreturn twice in the block itself. -/
def listedCall : Call := ⟨0, 7, 1438300000, [stakedEntry sampleOpreturn, stakedEntry sampleOpreturn], none⟩

private theorem sample_byte {i : Nat} {b : UInt8} (hi : i < 4096) (hb : sampleOpreturn.getD i 0 = b) (isstaked : Nat) :
    ((stakedEntry sampleOpreturn).mark isstaked).data.val.getD i 0 = b := by
  rw [← hb]
  exact padded_getD hi

theorem sample_ready : Ready sampleOpreturns.protocols := ready_init _ _

theorem sample_varint (isstaked : Nat) : ((stakedEntry sampleOpreturn).mark isstaked).varint 1 = (5, 2) :=
  varint_short (sample_byte (by norm_num) rfl isstaked) (by decide)

theorem sample_id (isstaked : Nat) :
    (((stakedEntry sampleOpreturn).mark isstaked).data.val.drop 2).take 3 = [0x50, 0x41, 0x58] := by
  change ((padded 4096 sampleOpreturn).val.drop 2).take 3 = _
  rw [padded, List.drop_take, List.take_take]
  rfl

theorem sample_own (isstaked : Nat) :
    ownProtocol sampleOpreturns.protocols ((stakedEntry sampleOpreturn).mark isstaked) = some 0 := by
  have hop : ((stakedEntry sampleOpreturn).mark isstaked).data.val.headD 0 = OP_RETURN_OPCODE := by
    have hzero : ((stakedEntry sampleOpreturn).mark isstaked).data.val.getD 0 0 = OP_RETURN_OPCODE :=
      sample_byte (by norm_num) rfl isstaked
    rwa [List.getD_eq_getElem?_getD, ← List.head?_eq_getElem?, ← List.headD_eq_head?_getD] at hzero
  rw [ownProtocol, sample_varint]
  dsimp only
  rw [if_pos ⟨hop, rfl⟩, sample_ready.own]
  exact if_pos (sample_id isstaked)

theorem sample_clean : Clean sampleEnv sampleOpreturns sampleCall where
  newer := .inl rfl
  room := by
    intro bs hbs
    cases hbs
    decide
  staked := by
    intro opreturn hmem _
    rw [List.mem_singleton.mp hmem, sample_own 1]
    refine ⟨rfl, ?_⟩
    intro p hp log hlog
    rcases List.mem_cons.mp hp with rfl | hp
    · cases hlog
      exact ⟨by decide, rfl⟩
    · rw [List.eq_of_mem_replicate hp] at hlog
      cases hlog
  listed := by
    intro before opreturn after h
    exact absurd h.symm (List.append_ne_nil_of_right_ne_nil _ (List.cons_ne_nil _ _))

theorem sampleCall_judged : Judged sampleEnv 0 sampleOpreturns sampleCall := by
  have hrun : run sampleEnv 0 (opreturnsInit (opened sampleSha) fun _ => 1000) [] = some sampleOpreturns := rfl
  exact (judged_iff hrun sampleCall).mpr sample_clean

theorem listedCall_lost : ¬ Judged sampleEnv 0 sampleOpreturns listedCall := by
  intro h
  have hclean := clean_of_judged sample_ready h
  have hnone := (hclean.listed [] _ _ rfl).1
  rw [sample_own 0] at hnone
  cases hnone

end SuperNet.Common.Opreturn777
