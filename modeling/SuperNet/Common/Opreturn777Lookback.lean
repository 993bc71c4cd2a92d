import SuperNet.Common.Opreturn777Entries

/-! The old opreturn entries that the lookback context of the protocol is given. -/
namespace SuperNet.Common.Opreturn777
open SuperNet.Lib.AccessLog SuperNet.Lib.Bytes SuperNet.Lib.Words SuperNet.Coins.Cointx SuperNet.Common.Txind777

variable {env : Env} {fuel : Nat} {log : Info} {lookbacks : Nat → Int} {ops ops' : Opreturns} {call : Call} {calls : List Call}

/-- Whether an event is an entry in the log of the protocol that is `lookback` blocks old. -/
def Event.old (lookback current : Int) : Event → Bool
  | .logged slot blocknum _ _ => slot = 0 && (blocknum : Int) ≤ current - lookback
  | _ => false

/-- Whether an event gives an entry to the lookback context of the protocol. -/
def Event.looksBack : Event → Bool
  | .processed protocol context _ _ _ _ _ _ _ _ => protocol = 0 && context = 1
  | _ => false

/-- The entry of a log as the lookback context should be given it. -/
def Applies (logged applied : Event) : Prop :=
  ∃ (call : Call) (blocknum blocktimestamp : Nat) (opreturn : Entry), logged = .logged 0 blocknum blocktimestamp opreturn ∧
    applied = processEvent call 0 1 opreturn (opreturn.varint 1).2 (opreturn.varint 1).1 blocknum opreturn.timestamp

/-- The lookback context was given the old entries of the log, each once and in the order of the log, and nothing else. -/
def Caught (lookback current : Int) (events : List Event) : Prop :=
  List.Forall₂ Applies (events.filter (Event.old lookback current)) (events.filter Event.looksBack)

/-- Every call of a run comes back, with the old entries applied. -/
def Sees (env : Env) (fuel : Nat) (log : Info) (lookbacks : Nat → Int) (calls : List Call) : Prop :=
  ∀ before call after, calls = before ++ call :: after →
    ∃ ops, run env fuel (opreturnsInit log lookbacks) (before ++ [call]) = some ops ∧
      Caught (lookbacks 1) call.currentblocknum ops.events

def Consecutive (calls : List Call) : Prop :=
  (∀ call ∈ calls, call.currentblocknum < 2^32) ∧
    ∀ before (call next : Call) after, calls = before ++ call :: next :: after → next.currentblocknum = call.currentblocknum + 1

def Call.logs (log : Info) (lookbacks : Nat → Int) (call : Call) : Prop :=
  ∃ opreturn ∈ call.staked, Accepted (opreturnsInit log lookbacks).protocols 1 opreturn

/-- The id at the offset is in the data, and it is that of the protocol. -/
def Identified (offset : Int) (opreturn : Entry) : Prop :=
  (opreturn.varint offset).2 + 3 ≤ 4096 ∧
    (opreturn.data.val.drop (opreturn.varint offset).2.toNat).take 3 = [0x50, 0x41, 0x58]

/-- The calls that come back: what is taken has the id of the protocol, the log has room for the staked entry, and the
entries of the list that are taken are among the first seven. -/
structure Served (env : Env) (ops : Opreturns) (call : Call) : Prop where
  room : ∀ bs ∈ call.peggyopreturn, bs.length ≤ MAX_OPRETURNSIZE
  staked : ∀ opreturn ∈ call.staked, Accepted ops.protocols 1 opreturn →
    Identified 1 opreturn ∧ ∀ p ∈ ops.protocols, ∀ log, p.opreturns = some log → Takes env log call.currentblocknum
  listed : ∀ before opreturn after, call.listed = before ++ opreturn :: after →
    Accepted ops.protocols ((call.staked ++ before).foldl nextOffset 1) opreturn →
      Identified ((call.staked ++ before).foldl nextOffset 1) opreturn ∧ before.length + 1 < 8

section Returns
variable {s s' : Current} {opreturn : Entry} {i : Nat}

theorem Ready.length {protocols : List Protocol} (h : Ready protocols) : protocols.length = 8 := by
  obtain ⟨p, log, rfl, _⟩ := h
  rfl

/-- An entry that is taken in the round of a slot whose log takes it. -/
theorem processEntry_take (hready : Ready s.protocols) (h : Accepted s.protocols s.offset opreturn)
    (hid : Identified s.offset opreturn) {slot : Protocol} (hslot : s.protocols[i]? = some slot)
    {created : Protocol × List Event} (hcreated : createEntry env call i slot opreturn = some created) :
    ∃ s', processEntry env call s i opreturn = some s' := by
  have hfind : opreturnsFind s.protocols
      (some ((opreturn.data.val.drop (opreturn.varint s.offset).2.toNat).take 3)) none = some 0 := by
    rw [hready.find, if_pos hid.2]
  obtain ⟨p, log, hprotocols, _, hregistered, _⟩ := hready
  have hzero : s.protocols[0]? = some p := by
    rw [hprotocols]
    rfl
  rw [processEntry, if_pos h.1]
  simp only [h.2.1, if_true, if_pos hid.1, hfind, takeEntry, hslot, Option.bind_eq_bind, Option.bind_some, hcreated, hzero,
    hregistered]
  exact ⟨_, rfl⟩

theorem processEntry_listed_iff (hready : Ready s.protocols) (hi : 1 ≤ i) :
    (∃ s', processEntry env call s i opreturn = some s') ↔
      (Accepted s.protocols s.offset opreturn → Identified s.offset opreturn ∧ i < 8) := by
  constructor
  · rintro ⟨s', h⟩ haccepted
    obtain ⟨hroom, hid, slot, created, hslot, _, _⟩ := take_cases hready haccepted h
    refine ⟨⟨hroom, hid⟩, ?_⟩
    rw [← hready.length]
    exact (List.getElem?_eq_some_iff.mp hslot).1
  · intro h
    by_cases haccepted : Accepted s.protocols s.offset opreturn
    · obtain ⟨hid, hlt⟩ := h haccepted
      rw [← hready.length] at hlt
      have hslot := List.getElem?_eq_getElem hlt
      have hunset := hready.slot hi hslot
      have hcreated : createEntry env call i s.protocols[i] opreturn = some (s.protocols[i], []) := by
        rw [hunset]
        rfl
      exact processEntry_take hready haccepted hid hslot hcreated
    · exact ⟨_, processEntry_skip haccepted⟩

/-- What a round of the list leaves behind. -/
theorem processEntry_kept (hready : Ready s.protocols) (hi : 1 ≤ i) (h : processEntry env call s i opreturn = some s') :
    s'.protocols = s.protocols ∧ s'.offset = nextOffset s.offset opreturn := by
  by_cases haccepted : Accepted s.protocols s.offset opreturn
  · obtain ⟨hprotocols, hoffset, _⟩ := processEntry_listed hready haccepted hi h
    exact ⟨hprotocols, hoffset⟩
  · rw [processEntry_skip haccepted] at h
    cases h
    exact ⟨rfl, rfl⟩

theorem processList_iff {list : List Entry} (hready : Ready s.protocols) (hi : 1 ≤ i) :
    (∃ s', processList env call s i list = some s') ↔
      ∀ before opreturn after, list.map (Entry.mark 0) = before ++ opreturn :: after →
        Accepted s.protocols (before.foldl nextOffset s.offset) opreturn →
          Identified (before.foldl nextOffset s.offset) opreturn ∧ before.length + i < 8 := by
  induction list generalizing s i with
  | nil =>
    refine ⟨fun _ before opreturn after hsplit => ?_, fun _ => ⟨s, rfl⟩⟩
    exact absurd hsplit.symm (List.append_ne_nil_of_right_ne_nil _ (List.cons_ne_nil _ _))
  | cons opreturn list ih =>
    constructor
    · rintro ⟨s', h⟩ before other after hsplit haccepted
      obtain ⟨s₁, hentry, hrest⟩ := Option.bind_eq_some_iff.mp h
      obtain ⟨hprotocols, hoffset⟩ := processEntry_kept hready hi hentry
      cases before with
      | nil =>
        cases hsplit
        have hself := (processEntry_listed_iff hready hi).mp ⟨s₁, hentry⟩ haccepted
        exact ⟨hself.1, by rw [List.length_nil, Nat.zero_add]; exact hself.2⟩
      | cons first before =>
        rw [List.map_cons, List.cons_append, List.cons.injEq] at hsplit
        obtain ⟨rfl, hsplit⟩ := hsplit
        have hrest' := (ih (hprotocols ▸ hready) (Nat.le_succ_of_le hi)).mp ⟨s', hrest⟩ before other after hsplit
        rw [hprotocols, hoffset] at hrest'
        obtain ⟨hid, hlt⟩ := hrest' haccepted
        refine ⟨hid, ?_⟩
        rw [List.length_cons]
        omega
    · intro h
      obtain ⟨s₁, hentry⟩ : ∃ s₁, processEntry env call s i (opreturn.mark 0) = some s₁ := (processEntry_listed_iff hready hi).mpr fun haccepted => by
        have hfirst := h [] _ _ rfl haccepted
        rwa [List.length_nil, Nat.zero_add] at hfirst
      obtain ⟨hprotocols, hoffset⟩ := processEntry_kept hready hi hentry
      have hrest : ∃ s', processList env call s₁ (i + 1) list = some s' := by
        refine (ih (hprotocols ▸ hready) (Nat.le_succ_of_le hi)).mpr ?_
        intro before other after hsplit haccepted
        rw [hprotocols, hoffset] at haccepted
        have htail := h (_ :: before) other after (by rw [List.map_cons, hsplit]; rfl) haccepted
        rw [hoffset]
        refine ⟨htail.1, ?_⟩
        have hlt := htail.2
        rw [List.length_cons] at hlt
        omega
      obtain ⟨s', hs'⟩ := hrest
      exact ⟨s', Option.bind_eq_some_iff.mpr ⟨s₁, hentry, hs'⟩⟩

theorem processStaked_identified (hready : Ready s.protocols) (hone : s.offset = 1) (h : processStaked env call s = some s') :
    ∀ opreturn ∈ call.staked, Accepted s.protocols 1 opreturn → Identified 1 opreturn := by
  intro opreturn hmem haccepted
  obtain ⟨bs, hbs, rfl⟩ := List.mem_map.mp hmem
  rw [processStaked, Option.mem_toList.mp hbs] at h
  dsimp only at h
  split at h
  case isFalse => cases h
  case isTrue =>
    rw [← hone] at haccepted ⊢
    obtain ⟨hspace, hid, _⟩ := take_cases hready haccepted h
    exact ⟨hspace, hid⟩

theorem processStaked_returns (hready : Ready ops.protocols) (hserved : Served env ops call) (s : Current)
    (hs : s.protocols = ops.protocols.map (Protocol.flush call)) (hone : s.offset = 1) :
    ∃ s', processStaked env call s = some s' := by
  have hflushed : Ready s.protocols := by rw [hs]; exact hready.flush call
  rw [processStaked]
  cases hstaked : call.peggyopreturn with
  | none => exact ⟨s, rfl⟩
  | some bs =>
    have hroom := hserved.room bs hstaked
    have hmem : (stakedEntry bs).mark 1 ∈ call.staked := by
      rw [Call.staked, hstaked]
      exact List.mem_singleton_self _
    dsimp only
    rw [if_pos hroom]
    by_cases haccepted : Accepted s.protocols s.offset ((stakedEntry bs).mark 1)
    · have haccepted' : Accepted ops.protocols 1 ((stakedEntry bs).mark 1) := by
        rw [hone] at haccepted
        exact (hready.accepted hflushed _ _).mpr haccepted
      obtain ⟨hid, htakes⟩ := hserved.staked _ hmem haccepted'
      obtain ⟨p, log, hprotocols, _, _, _, hlog⟩ := id hflushed
      have hslot : s.protocols[0]? = some p := by
        rw [hprotocols]
        rfl
      have hmem' := List.mem_of_getElem? hslot
      rw [hs] at hmem'
      obtain ⟨created, hcreate⟩ := create_of_takes call.blocktimestamp (loggedBytes_ne (staked_datalen hroom))
        (takes_flush call htakes p hmem' log hlog)
      have hcreated : ∃ created, createEntry env call 0 p ((stakedEntry bs).mark 1) = some created := by
        rw [createEntry, hlog]
        exact ⟨_, congrArg (Option.map _) hcreate⟩
      obtain ⟨created, hcreated⟩ := hcreated
      rw [← hone] at hid
      exact processEntry_take hflushed haccepted hid hslot hcreated
    · exact ⟨_, processEntry_skip haccepted⟩

/-- The calls that come back, in a state that a run leaves. -/
theorem process_iff (hready : Ready ops.protocols)
    (hnewer : ops.prevblocknum = 0 ∨ u32 (ops.prevblocknum + 1) ≤ call.currentblocknum) :
    (∃ ops' numvalid, opreturnsProcess env fuel ops call = some (ops', numvalid)) ↔ Served env ops call := by
  have hflushed := hready.flush call
  constructor
  · rintro ⟨ops', numvalid, hprocess⟩
    obtain ⟨_, s, s', hs, hs', rfl⟩ := process_cases hready hprocess
    obtain ⟨hready', hoffset, hroom, hstaked⟩ := processStaked_events hflushed rfl hs
    refine ⟨hroom, ?_, ?_⟩
    · intro opreturn hmem haccepted
      rcases hstaked with ⟨other, hother, _, ⟨log, hlog, htakes⟩, _⟩ | ⟨hskip, _⟩
      · refine ⟨?_, takes_of_flush hready hlog htakes⟩
        exact processStaked_identified hflushed rfl hs opreturn hmem ((hready.accepted hflushed _ _).mp haccepted)
      · exact absurd ((hready.accepted hflushed _ _).mp haccepted) (hskip opreturn hmem)
    · intro before opreturn after hsplit haccepted
      have hlist := (processList_iff hready' (le_refl 1)).mp ⟨s', hs'⟩ before opreturn after hsplit
      rw [hoffset, ← List.foldl_append, hready'.accepted hready] at hlist
      exact hlist haccepted
  · intro hserved
    obtain ⟨s, hs⟩ := processStaked_returns hready hserved
      ⟨ops.protocols.map (Protocol.flush call), 1, ops.events ++ flushEvents call ops.protocols, 0⟩ rfl rfl
    obtain ⟨hready', hoffset, _⟩ := processStaked_events hflushed rfl hs
    obtain ⟨s', hs'⟩ : ∃ s', processList env call s 1 call.list = some s' := by
      refine (processList_iff hready' (le_refl 1)).mpr ?_
      intro before opreturn after hsplit haccepted
      rw [hoffset, ← List.foldl_append] at haccepted ⊢
      exact hserved.listed before opreturn after hsplit ((hready'.accepted hready _ _).mp haccepted)
    have hlookback := Ready.lookback (s := ⟨ops.protocols.map (Protocol.flush call), 1, env.buf,
      ops.events ++ flushEvents call ops.protocols⟩) hflushed call fuel
    refine ⟨⟨s'.protocols, call.currentblocknum, s'.events⟩, s'.numvalid, ?_⟩
    rw [opreturnsProcess, if_neg (by omega)]
    simp only [hlookback, Option.bind_eq_bind, Option.bind_some, hs, hs']

end Returns

section Run

theorem run_concat (calls : List Call) (call : Call) (start : Opreturns) :
    run env fuel start (calls ++ [call]) = (run env fuel start calls).bind fun ops => step env fuel ops call := by
  rw [run, List.foldlM_append]
  simp only [List.foldlM_cons, List.foldlM_nil, bind_pure]
  rfl

private theorem old_logged {call : Call} {opreturn : Entry} {lookback current : Int} :
    (Event.logged 0 call.currentblocknum call.blocktimestamp opreturn).old lookback current = true ↔
      (call.currentblocknum : Int) ≤ current - lookback := by
  rw [Event.old, decide_eq_true rfl, Bool.true_and, decide_eq_true_eq]

private theorem staked_part {s s' : Current} (log : Info) (lookbacks : Nat → Int) (hready : Ready s.protocols) (hone : s.offset = 1)
    (h : processStaked env call s = some s') :
    ∃ part, s'.events = s.events ++ part ∧ (∀ e ∈ part, e.looksBack = false) ∧
      ∀ lookback current : Int, (∃ e ∈ part, e.old lookback current = true) ↔
        call.logs log lookbacks ∧ (call.currentblocknum : Int) ≤ current - lookback := by
  have htable := ready_init log lookbacks
  obtain ⟨_, _, _, ⟨opreturn, hstaked, haccepted, _, hevents⟩ | ⟨hskip, hevents⟩⟩ := processStaked_events hready hone h
  · have hlogs : call.logs log lookbacks :=
      ⟨opreturn, by rw [hstaked]; exact List.mem_singleton_self _, (hready.accepted htable _ _).mp haccepted⟩
    refine ⟨stakedEvents call opreturn, hevents, ?_, ?_⟩
    · intro e he
      rcases List.mem_pair.mp he with rfl | rfl <;> rfl
    · intro lookback current
      constructor
      · rintro ⟨e, he, hold⟩
        rcases List.mem_pair.mp he with rfl | rfl
        · exact ⟨hlogs, old_logged.mp hold⟩
        · cases hold
      · rintro ⟨_, hold⟩
        exact ⟨_, List.mem_cons_self, old_logged.mpr hold⟩
  · refine ⟨[], by rw [hevents, List.append_nil], fun e he => (List.not_mem_nil he).elim, fun lookback current => ⟨?_, ?_⟩⟩
    · rintro ⟨e, he, _⟩
      cases he
    · rintro ⟨⟨opreturn, hmem, haccepted⟩, _⟩
      exact absurd ((hready.accepted htable _ _).mpr haccepted) (hskip opreturn hmem)

/-- A call gives the lookback context nothing and logs what it logs under its own block. -/
theorem process_events {numvalid : Nat} (log : Info) (lookbacks : Nat → Int) (hready : Ready ops.protocols)
    (h : opreturnsProcess env fuel ops call = some (ops', numvalid)) :
    ∃ events, ops'.events = ops.events ++ events ∧ (∀ e ∈ events, e.looksBack = false) ∧
      ∀ lookback current : Int, (∃ e ∈ events, e.old lookback current = true) ↔
        call.logs log lookbacks ∧ (call.currentblocknum : Int) ≤ current - lookback := by
  have hflushed := hready.flush call
  obtain ⟨_, s, s', hs, hs', rfl⟩ := process_cases hready h
  obtain ⟨hready', _⟩ := processStaked_events hflushed rfl hs
  obtain ⟨part, hpart, hquiet, hold⟩ := staked_part log lookbacks hflushed rfl hs
  obtain ⟨_, events, hlist, hall, _⟩ := processList_events hready' (le_refl 1) hs'
  have hrest : ∀ e ∈ flushEvents call ops.protocols ++ events, e.looksBack = false ∧
      ∀ lookback current, e.old lookback current = false := by
    intro e he
    rcases List.mem_append.mp he with he | he
    · obtain ⟨⟨p, i⟩, _, hevent⟩ := List.mem_filterMap.mp he
      dsimp only at hevent
      split at hevent <;> cases hevent
      exact ⟨rfl, fun _ _ => rfl⟩
    · obtain ⟨opreturn, len, offset, rfl⟩ := hall e he
      exact ⟨rfl, fun _ _ => rfl⟩
  have hmem : ∀ e, e ∈ flushEvents call ops.protocols ++ part ++ events ↔
      e ∈ part ∨ e ∈ flushEvents call ops.protocols ++ events := by
    intro e
    simp only [List.mem_append]
    tauto
  refine ⟨flushEvents call ops.protocols ++ part ++ events, ?_, ?_, ?_⟩
  · change s'.events = _
    rw [hlist, hpart]
    simp only [List.append_assoc]
  · intro e he
    rcases (hmem e).mp he with he | he
    · exact hquiet e he
    · exact (hrest e he).1
  · intro lookback current
    rw [← hold lookback current]
    constructor
    · rintro ⟨e, he, h⟩
      rcases (hmem e).mp he with he | he
      · exact ⟨e, he, h⟩
      · rw [(hrest e he).2] at h
        cases h
    · rintro ⟨e, he, h⟩
      exact ⟨e, (hmem e).mpr (.inl he), h⟩

/-- The lookback context is never given anything, and the log has the entries of the calls that log. -/
theorem run_events (h : run env fuel (opreturnsInit log lookbacks) calls = some ops) :
    (∀ e ∈ ops.events, e.looksBack = false) ∧ ∀ lookback current : Int,
      (∃ e ∈ ops.events, e.old lookback current = true) ↔
        ∃ earlier ∈ calls, earlier.logs log lookbacks ∧ (earlier.currentblocknum : Int) ≤ current - lookback := by
  induction calls using List.reverseRecOn generalizing ops with
  | nil =>
    cases h
    refine ⟨fun e he => (List.not_mem_nil he).elim, fun _ _ => ⟨?_, ?_⟩⟩
    · rintro ⟨e, he, _⟩
      cases he
    · rintro ⟨c, hc, _⟩
      cases hc
  | append_singleton calls call ih =>
    rw [run_concat] at h
    obtain ⟨ops₁, hrun, hstep⟩ := Option.bind_eq_some_iff.mp h
    obtain ⟨⟨ops', numvalid⟩, hprocess, rfl⟩ := Option.map_eq_some_iff.mp hstep
    obtain ⟨hquiet, hlogged⟩ := ih hrun
    obtain ⟨events, hevents, hquiet', hlogged'⟩ := process_events log lookbacks (ready_run hrun) hprocess
    rw [hevents]
    refine ⟨?_, ?_⟩
    · intro e he
      rcases List.mem_append.mp he with he | he
      · exact hquiet e he
      · exact hquiet' e he
    · intro lookback current
      have hbefore := hlogged lookback current
      have hnow := hlogged' lookback current
      constructor
      · rintro ⟨e, he, hold⟩
        rcases List.mem_append.mp he with he | he
        · obtain ⟨c, hc, hlogs⟩ := hbefore.mp ⟨e, he, hold⟩
          exact ⟨c, List.mem_append_left _ hc, hlogs⟩
        · exact ⟨call, List.mem_append_right _ (List.mem_singleton_self _), hnow.mp ⟨e, he, hold⟩⟩
      · rintro ⟨c, hc, hlogs⟩
        rcases List.mem_append.mp hc with hc | hc
        · obtain ⟨e, he, hold⟩ := hbefore.mpr ⟨c, hc, hlogs⟩
          exact ⟨e, List.mem_append_left _ he, hold⟩
        · rw [List.mem_singleton.mp hc] at hlogs
          obtain ⟨e, he, hold⟩ := hnow.mpr hlogs
          exact ⟨e, List.mem_append_right _ he, hold⟩

/-- The old entries have been applied exactly if there are none. -/
theorem caught_iff (h : run env fuel (opreturnsInit log lookbacks) calls = some ops) (lookback current : Int) :
    Caught lookback current ops.events ↔
      ∀ earlier ∈ calls, earlier.logs log lookbacks → current < earlier.currentblocknum + lookback := by
  obtain ⟨hquiet, hlogged⟩ := run_events h
  have hnone : ops.events.filter Event.looksBack = [] := by
    refine List.filter_eq_nil_iff.mpr fun e he => ?_
    rw [hquiet e he]
    exact Bool.false_ne_true
  rw [Caught, hnone, List.forall₂_nil_right_iff, List.filter_eq_nil_iff]
  constructor
  · intro hold earlier hmem hlogs
    by_contra hlate
    obtain ⟨e, he, h⟩ := (hlogged lookback current).mpr ⟨earlier, hmem, hlogs, by omega⟩
    exact hold e he h
  · intro hlate e he hold
    obtain ⟨earlier, hmem, hlogs, hle⟩ := (hlogged lookback current).mp ⟨e, he, hold⟩
    have hlt := hlate earlier hmem hlogs
    omega

/-- The blocks of consecutive calls are new to the state before each of them. -/
theorem run_newer {before after : List Call} (hconsecutive : Consecutive (before ++ call :: after))
    (h : run env fuel (opreturnsInit log lookbacks) before = some ops) :
    ops.prevblocknum = 0 ∨ u32 (ops.prevblocknum + 1) ≤ call.currentblocknum := by
  rcases List.eq_nil_or_concat before with rfl | ⟨before, last, rfl⟩
  · cases h
    exact .inl rfl
  · rw [List.concat_eq_append] at h hconsecutive
    rw [run_concat] at h
    obtain ⟨ops₁, hrun, hstep⟩ := Option.bind_eq_some_iff.mp h
    obtain ⟨⟨ops', numvalid⟩, hprocess, rfl⟩ := Option.map_eq_some_iff.mp hstep
    obtain ⟨_, s, s', _, _, rfl⟩ := process_cases (ready_run hrun) hprocess
    obtain ⟨hrange, hnext⟩ := hconsecutive
    have hlt := hrange call (List.mem_append_right _ List.mem_cons_self)
    have heq := hnext before last call after (by rw [List.append_assoc]; rfl)
    right
    change u32 (last.currentblocknum + 1) ≤ call.currentblocknum
    have hword : u32 ((last.currentblocknum : Int) + 1) = (last.currentblocknum + 1) % 2^32 :=
      unsigned_natCast 32 (last.currentblocknum + 1)
    rw [heq, hword]
    exact Nat.mod_le _ _

theorem run_returns {before after : List Call} (hconsecutive : Consecutive (before ++ after))
    (hserved : ∀ earlier call later, before = earlier ++ call :: later → ∀ ops,
      run env fuel (opreturnsInit log lookbacks) earlier = some ops → Served env ops call) :
    ∃ ops, run env fuel (opreturnsInit log lookbacks) before = some ops := by
  induction before using List.reverseRecOn generalizing after with
  | nil => exact ⟨_, rfl⟩
  | append_singleton before last ih =>
    rw [List.append_assoc] at hconsecutive
    obtain ⟨ops, hops⟩ := ih hconsecutive fun earlier call later hsplit => hserved earlier call (later ++ [last]) (by
      rw [hsplit, List.append_assoc]
      rfl)
    obtain ⟨ops', numvalid, hprocess⟩ : ∃ ops' numvalid, opreturnsProcess env fuel ops last = some (ops', numvalid) :=
      (process_iff (ready_run hops) (run_newer hconsecutive hops)).mpr (hserved before last [] rfl ops hops)
    refine ⟨ops', ?_⟩
    rw [run_concat, hops, Option.bind_some, step, hprocess]
    rfl

end Run

/-- The calls that come back with the old entries applied are those that come back with no entry grown old. -/
theorem served_of_sees (h : Sees env fuel log lookbacks calls) (hconsecutive : Consecutive calls)
    {before after : List Call} (hsplit : calls = before ++ call :: after) :
    (∀ ops, run env fuel (opreturnsInit log lookbacks) before = some ops → Served env ops call) ∧
      ∀ earlier ∈ before ++ [call], earlier.logs log lookbacks →
        (call.currentblocknum : Int) < earlier.currentblocknum + lookbacks 1 := by
  obtain ⟨ops', hrun, hcaught⟩ := h before call after hsplit
  refine ⟨fun ops hops => ?_, (caught_iff hrun _ _).mp hcaught⟩
  rw [run_concat, hops, Option.bind_some] at hrun
  obtain ⟨⟨ops₁, numvalid⟩, hprocess, _⟩ := Option.map_eq_some_iff.mp hrun
  rw [hsplit] at hconsecutive
  exact (process_iff (ready_run hops) (run_newer hconsecutive hops)).mp ⟨ops₁, numvalid, hprocess⟩

/-- A consecutive run applies the old entries exactly if every call is served and no entry that is logged gets as old as
the lookback. -/
theorem sees_iff (hconsecutive : Consecutive calls) :
    Sees env fuel log lookbacks calls ↔ ∀ before call after, calls = before ++ call :: after →
      (∀ ops, run env fuel (opreturnsInit log lookbacks) before = some ops → Served env ops call) ∧
        ∀ earlier ∈ before ++ [call], earlier.logs log lookbacks →
          (call.currentblocknum : Int) < earlier.currentblocknum + lookbacks 1 := by
  constructor
  · intro h before call after hsplit
    exact served_of_sees h hconsecutive hsplit
  · intro h before call after hsplit
    have hconsecutive' : Consecutive ((before ++ [call]) ++ after) := by
      rw [hsplit] at hconsecutive
      rwa [List.append_assoc]
    obtain ⟨ops, hops⟩ : ∃ ops, run env fuel (opreturnsInit log lookbacks) (before ++ [call]) = some ops := by
      refine run_returns hconsecutive' ?_
      intro earlier other later hearlier
      refine (h earlier other (later ++ after) ?_).1
      have hwhole : calls = (before ++ [call]) ++ after := by
        rw [hsplit, List.append_assoc]
        rfl
      rw [hwhole, hearlier, List.append_assoc]
      rfl
    exact ⟨ops, hops, (caught_iff hops _ _).mpr (h before call after hsplit).2⟩


private theorem sample_served : Served sampleEnv sampleOpreturns sampleCall where
  room := sample_clean.room
  staked := by
    intro opreturn hmem haccepted
    refine ⟨?_, (sample_clean.staked opreturn hmem haccepted).2⟩
    rw [List.mem_singleton.mp hmem, Identified, sample_varint]
    exact ⟨by norm_num, sample_id 1⟩
  listed := by
    intro before opreturn after h
    exact absurd h.symm (List.append_ne_nil_of_right_ne_nil _ (List.cons_ne_nil _ _))

theorem sampleCall_sees : Sees sampleEnv 0 (opened sampleSha) (fun _ => 1000) [sampleCall] := by
  have hone : ∀ before (call : Call) after, [sampleCall] = before ++ call :: after → before = [] ∧ call = sampleCall := by
    intro before call after hsplit
    cases before with
    | nil =>
      cases hsplit
      exact ⟨rfl, rfl⟩
    | cons first before =>
      have hlength := congrArg List.length hsplit
      simp only [List.length_append, List.length_cons, List.length_nil] at hlength
      omega
  have hconsecutive : Consecutive [sampleCall] := by
    refine ⟨fun call hmem => ?_, fun before call next after hsplit => ?_⟩
    · rw [List.mem_singleton.mp hmem]
      decide
    · obtain ⟨rfl, rfl⟩ := hone before call (next :: after) hsplit
      cases hsplit
  refine (sees_iff hconsecutive).mpr ?_
  intro before call after hsplit
  obtain ⟨rfl, rfl⟩ := hone before call after hsplit
  refine ⟨fun ops hops => ?_, fun earlier hmem _ => ?_⟩
  · cases hops
    exact sample_served
  · rw [List.mem_singleton.mp hmem]
    decide

/-- A staked entry in block 7, and block 8 with nothing. -/
def agedCalls : List Call := [sampleCall, ⟨0, 8, 1438300060, [], none⟩]

private theorem sampleCall_logs : sampleCall.logs (opened sampleSha) fun _ => 1 :=
  ⟨_, List.mem_singleton_self _, (sample_ready.accepted (ready_init _ _) _ _).mp (accepted_of_own sample_ready (sample_own 1)).2.1⟩

theorem agedCalls_missed : ¬ Sees sampleEnv 0 (opened sampleSha) (fun _ => 1) agedCalls := by
  intro h
  obtain ⟨ops, hrun, hcaught⟩ := h [sampleCall] _ [] rfl
  have hlt := (caught_iff hrun _ _).mp hcaught sampleCall (List.mem_cons_self) sampleCall_logs
  exact absurd hlt (by decide)

end SuperNet.Common.Opreturn777
