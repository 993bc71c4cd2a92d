import SuperNet.KV.Kv777Durable

/-! The approval counts of a distributed store, which `dKV777_gotapproval` keeps in a store of their own. -/
namespace SuperNet.KV.Dkv777
open Lib.Words Lib.Bytes Kv777

/-- A message of a sender that approves `txid`; `paircount` is what the uninitialised variable of that name holds. -/
structure Approval where
  sender : BitVec 64
  txid : BitVec 64
  paircount : BitVec 32
  deriving DecidableEq

def idKey (id : BitVec 64) : List UInt8 := leBytes 8 id.toNat

/-- `key[0] = txid, key[1] = senderbits`. -/
def Approval.key (m : Approval) : List UInt8 := idKey m.txid ++ idKey m.sender

def countBytes (count : Nat) : List UInt8 := leBytes 4 (u32 count)

/-- The count of a transaction or of a sender is created or updated. -/
def countUp (kv : Kv) (key : List UInt8) : Option Kv := do
  match ← Kv777.read kv key with
  | none => write kv key (countBytes 1)
  | some item =>
    if item.valuesize ≠ 4 then write kv key (countBytes 1)
    else write kv key (countBytes (u32 (leValue item.itemvalue + 1)))

def gotapproval (kv : Kv) (m : Approval) : Option Kv := do
  match ← Kv777.read kv m.key with
  | none => do
    let kv ← countUp kv (idKey m.txid)
    let kv ← countUp kv (idKey m.sender)
    write kv m.key (countBytes (m.paircount.toNat + 1))
  | some _ => write kv m.key (countBytes 1)

/-- The messages in the order they come in, on a store that starts empty. -/
def approvals (flags : Flags) (ms : List Approval) : Option Kv := do ms.foldlM gotapproval (← init flags [])

section Store
variable {kv : Kv} {key value : List UInt8} {ptr : Item}

/-- An item that is alive and holds a count. -/
structure Counter (ptr : Item) : Prop where
  alive : ptr.hhfreed = false
  valuesize : ptr.item.valuesize = 4
  room : 4 ≤ ptr.item.value.length

structure Tidy (kv : Kv) : Prop where
  unlocked : kv.locked = false
  counters : ∀ ptr ∈ kv.table, Counter ptr

private theorem Counter.not_deleted (h : Counter ptr) : isdeleted ptr.item = false := by
  rw [isdeleted, h.valuesize]
  rfl

private theorem update_ptr (fp : File) (ptr : Item) :
    ∃ offset, (update fp ptr).2.1 = { ptr with offset } := by
  rw [update]
  split
  · exact ⟨ptr.offset, rfl⟩
  · split
    · exact ⟨_, rfl⟩
    · exact ⟨_, rfl⟩

private theorem counters_ptr (kv : Kv) (ptr : Item) :
    ∃ fp offset, counters kv ptr = ({ kv with fp }, { ptr with offset }) := by
  rw [Kv777.counters]
  split
  · split
    · obtain ⟨offset, hptr⟩ := update_ptr ‹File› ptr
      exact ⟨_, offset, by rw [← hptr]⟩
    · exact ⟨kv.fp, ptr.offset, rfl⟩
  · exact ⟨kv.fp, ptr.offset, rfl⟩

private theorem Counter.hdditem (hlen : value.length = 4) (offset : Option Nat) (size : Nat) :
    Counter ⟨key, false, offset, size, hdditem key value⟩ where
  alive := rfl
  valuesize := hlen
  room := by
    change 4 ≤ (padded value ++ padded key).length
    have hle := le_align value.length
    rw [List.length_append, padded_length]
    omega

private theorem alive_of_tidy (h : ∀ ptr ∈ kv.table, Counter ptr) : Alive kv.table key :=
  fun ptr hptr hfreed => absurd ((h ptr hptr).alive.symm.trans hfreed) Bool.false_ne_true

/-- A count is written, and nothing else of the map changes. -/
structure Put (kv kv' : Kv) (key value : List UInt8) : Prop where
  tidy : Tidy kv'
  map : ∀ k, kv'.map k = if key = k then some value else kv.map k

private theorem add_put (h : Tidy kv) (hlen : value.length = 4) (hnone : ∀ x ∈ kv.table, x.hhkey ≠ key) (locked : Bool) :
    Put kv { add { kv with locked } ⟨key, false, none, itemsize key.length value.length, hdditem key value⟩ with
      locked := false } key value := by
  obtain ⟨fp, offset, hcounters⟩ := counters_ptr { kv with locked }
    ⟨key, false, none, itemsize key.length value.length, hdditem key value⟩
  rw [add, hcounters]
  refine ⟨⟨rfl, fun ptr hptr => ?_⟩, fun k => ?_⟩
  · obtain hptr | hptr := List.mem_append.mp hptr
    · exact h.counters ptr hptr
    · rw [List.mem_singleton.mp hptr]
      exact Counter.hdditem hlen _ _
  · rw [Kv.map, lookup_append hnone]
    dsimp only
    rw [show (hdditem key value).itemvalue = value from item_itemvalue (key, value)]
    rfl

private theorem store_put (h : Tidy kv) (hptr : ptr ∈ kv.table) (hkey : ptr.hhkey = key) (ptr' : Item)
    (hkey' : ptr'.hhkey = key) (hcounter : Counter ptr') (hvalue : ptr'.item.itemvalue = value)
    (fp : Option File) : Put kv { kv with fp, table := store kv.table ptr', locked := false } key value := by
  refine ⟨⟨rfl, fun x hx => ?_⟩, fun k => ?_⟩
  · obtain ⟨y, hy, rfl⟩ := List.mem_map.mp hx
    split
    · exact hcounter
    · exact h.counters y hy
  · rw [Kv.map, lookup_store ⟨ptr, hptr, hkey.trans hkey'.symm⟩, hkey', hvalue]
    rfl

private theorem rewrite_put (h : Tidy kv) (hptr : ptr ∈ kv.table) (hkey : ptr.hhkey = key)
    (hfind : kv.map key = some ptr.item.itemvalue) (hlen : value.length = 4) (locked : Bool) :
    Put kv { rewrite { kv with locked } ptr value with locked := false } key value := by
  have hcounter := h.counters ptr hptr
  rw [rewrite]
  split
  · generalize hitem : HddItem.checked { ptr.item with value := value ++ ptr.item.value.drop value.length } = item
    have hvaluesize : item.valuesize = 4 := by
      rw [← hitem]
      exact hcounter.valuesize
    have hbytes : item.value = value ++ ptr.item.value.drop value.length := by rw [← hitem]; rfl
    have hvalue : item.itemvalue = value := by
      rw [HddItem.itemvalue, hvaluesize, hbytes, ← hlen, List.take_left]
    have hroom : 4 ≤ item.value.length := by
      rw [hbytes, List.length_append]
      omega
    dsimp only
    split
    · next fp hfp =>
      obtain ⟨offset, hupdate⟩ := update_ptr fp { ptr with item }
      rw [hupdate]
      exact store_put h hptr hkey { ptr with item, offset } hkey ⟨hcounter.alive, hvaluesize, hroom⟩ hvalue _
    · exact store_put h hptr hkey { ptr with item } hkey ⟨hcounter.alive, hvaluesize, hroom⟩ hvalue _
  · next hsame =>
    refine ⟨⟨rfl, h.counters⟩, fun k => ?_⟩
    by_cases hk : key = k
    · rw [if_pos hk, ← not_ne_iff.mp hsame, ← hfind, hk]
      rfl
    · rw [if_neg hk]
      rfl

private theorem rewrite_mutex (kv : Kv) (ptr : Item) (value : List UInt8) :
    (rewrite kv ptr value).flags = kv.flags ∧ (rewrite kv ptr value).locked = kv.locked := by
  rw [rewrite]
  split
  · dsimp only
    split <;> exact ⟨rfl, rfl⟩
  · exact ⟨rfl, rfl⟩

private theorem add_mutex (kv : Kv) (ptr : Item) : (add kv ptr).flags = kv.flags ∧ (add kv ptr).locked = kv.locked := by
  obtain ⟨fp, offset, hcounters⟩ := counters_ptr kv ptr
  rw [add, hcounters]
  exact ⟨rfl, rfl⟩

theorem write_put (h : Tidy kv) (hlen : value.length = 4) : ∃ kv', write kv key value = some kv' ∧ Put kv kv' key value := by
  rw [write, lock_eq h.unlocked]
  simp only [Option.bind_eq_bind, Option.bind_some, hashFind_eq (alive_of_tidy h.counters)]
  cases hfind : kv.table.find? fun ptr => ptr.hhkey == key with
  | none =>
    obtain ⟨hflags, hlocked⟩ := add_mutex { kv with locked := kv.flags.threadsafe }
      ⟨key, false, none, itemsize key.length value.length, hdditem key value⟩
    refine ⟨_, rfl, ?_⟩
    rw [unlock_eq (hlocked.trans (congrArg Flags.threadsafe hflags.symm))]
    exact add_put h hlen (find_none hfind) _
  | some ptr =>
    obtain ⟨hptr, hkey⟩ := find_some hfind
    obtain ⟨hflags, hlocked⟩ := rewrite_mutex { kv with locked := kv.flags.threadsafe } ptr value
    refine ⟨_, if_pos (hlen.trans (h.counters ptr hptr).valuesize.symm), ?_⟩
    rw [unlock_eq (hlocked.trans (congrArg Flags.threadsafe hflags.symm))]
    have hmap : kv.map key = some ptr.item.itemvalue := by rw [Kv.map, lookup, hfind]; rfl
    exact rewrite_put h hptr hkey hmap hlen _

theorem read_none (h : Tidy kv) (hmap : kv.map key = none) : Kv777.read kv key = some none := by
  rw [Kv777.read, lock_eq h.unlocked]
  simp only [Option.bind_eq_bind, Option.bind_some, hashFind_eq (alive_of_tidy h.counters)]
  rw [Kv.map, lookup, Option.map_eq_none_iff] at hmap
  rw [hmap]

theorem read_some (h : Tidy kv) (hmap : kv.map key = some value) :
    ∃ item, Kv777.read kv key = some (some item) ∧ item.valuesize = 4 ∧ item.itemvalue = value := by
  rw [Kv777.read, lock_eq h.unlocked]
  simp only [Option.bind_eq_bind, Option.bind_some, hashFind_eq (alive_of_tidy h.counters)]
  rw [Kv.map, lookup] at hmap
  obtain ⟨ptr, hfind, hvalue⟩ := Option.map_eq_some_iff.mp hmap
  have hcounter := h.counters ptr (find_some hfind).1
  refine ⟨ptr.item, ?_, hcounter.valuesize, hvalue⟩
  rw [hfind]
  dsimp only
  rw [hcounter.not_deleted, if_neg Bool.false_ne_true]

end Store

section Counts
variable {kv kv' : Kv} {key : List UInt8}

/-- The count under a key, 0 if there is none. -/
def count (kv : Kv) (key : List UInt8) : Nat := (kv.map key).elim 0 leValue

private theorem countBytes_length (n : Nat) : (countBytes n).length = 4 := leBytes_length 4 _

private theorem leValue_countBytes (n : Nat) : leValue (countBytes n) = n % 2^32 := by
  rw [countBytes, leValue_leBytes, u32, unsigned_natCast]
  exact Nat.mod_mod n (2^32)

/-- The key counts the given number of messages, reduced to 32 bits. -/
def Counts (kv : Kv) (key : List UInt8) (n : Nat) : Prop := kv.map key = if n = 0 then none else some (countBytes n)

private theorem Put.counts_self {n : Nat} (h : Put kv kv' key (countBytes n)) (hn : n ≠ 0) : Counts kv' key n := by
  rw [Counts, h.map, if_pos rfl, if_neg hn]

private theorem Put.counts_other {n : Nat} {value k : List UInt8} (h : Put kv kv' key value) (hk : key ≠ k) :
    Counts kv' k n ↔ Counts kv k n := by
  rw [Counts, Counts, h.map, if_neg hk]

theorem countUp_put {n : Nat} (h : Tidy kv) (hn : Counts kv key n) :
    ∃ kv', countUp kv key = some kv' ∧ Put kv kv' key (countBytes (n + 1)) := by
  rw [countUp]
  rw [Counts] at hn
  by_cases hzero : n = 0
  · rw [if_pos hzero] at hn
    rw [read_none h hn, hzero]
    exact write_put h (countBytes_length _)
  · rw [if_neg hzero] at hn
    obtain ⟨item, hread, hsize, hvalue⟩ := read_some h hn
    rw [hread]
    simp only [Option.bind_eq_bind, Option.bind_some]
    rw [if_neg (not_not_intro hsize), hvalue, leValue_countBytes]
    have hnext : countBytes (u32 ((n % 2^32 : Nat) + 1)) = countBytes (n + 1) := by
      have hcast : ((n % 2^32 : Nat) : Int) + 1 = ((n % 2^32 + 1 : Nat) : Int) := by push_cast; rfl
      rw [countBytes, countBytes, hcast, u32, unsigned_natCast, unsigned_natCast, unsigned_natCast, Nat.mod_mod,
        Nat.mod_add_mod]
    rw [hnext]
    exact write_put h (countBytes_length _)

end Counts

def partners (side other : Approval → BitVec 64) (ms : List Approval) (id : BitVec 64) : Finset (BitVec 64) :=
  ((ms.filter fun m => side m = id).map other).toFinset

def senders (ms : List Approval) (txid : BitVec 64) : Finset (BitVec 64) := partners Approval.txid Approval.sender ms txid

def txids (ms : List Approval) (sender : BitVec 64) : Finset (BitVec 64) := partners Approval.sender Approval.txid ms sender

/-- The messages of a sender for a transaction. -/
def received (ms : List Approval) (sender txid : BitVec 64) : List Approval :=
  ms.filter fun m => m.sender = sender ∧ m.txid = txid

/-- What the pair counter holds after these messages of the pair. -/
def pairStored : List Approval → Option (List UInt8)
  | [] => none
  | [m] => some (countBytes (m.paircount.toNat + 1))
  | _ :: _ :: _ => some (countBytes 1)

section Tally
variable {ms : List Approval} {m : Approval} {kv : Kv} {id sender txid : BitVec 64} {side other : Approval → BitVec 64}

private theorem mem_partners {x : BitVec 64} : x ∈ partners side other ms id ↔ ∃ m ∈ ms, side m = id ∧ other m = x := by
  rw [partners, List.mem_toFinset, List.mem_map]
  constructor
  · rintro ⟨m, hm, rfl⟩
    obtain ⟨hm, hside⟩ := List.mem_filter.mp hm
    exact ⟨m, hm, of_decide_eq_true hside, rfl⟩
  · rintro ⟨m, hm, rfl, rfl⟩
    exact ⟨m, List.mem_filter.mpr ⟨hm, decide_eq_true rfl⟩, rfl⟩

private theorem partners_append : partners side other (ms ++ [m]) id =
    if side m = id then insert (other m) (partners side other ms id) else partners side other ms id := by
  rw [partners, List.filter_append, List.map_append, List.toFinset_append]
  split
  case isTrue h =>
    rw [List.filter_cons, if_pos (decide_eq_true h), List.filter_nil, List.map_singleton, Finset.insert_eq,
      Finset.union_comm]
    rfl
  case isFalse h =>
    rw [List.filter_cons, if_neg (by rw [decide_eq_false h]; exact Bool.false_ne_true), List.filter_nil, List.map_nil,
      List.toFinset_nil, Finset.union_empty]
    rfl

private theorem card_partners_append (hnew : ¬ ∃ m' ∈ ms, side m' = side m ∧ other m' = other m) :
    (partners side other (ms ++ [m]) id).card = (partners side other ms id).card + if side m = id then 1 else 0 := by
  rw [partners_append]
  split
  case isTrue h =>
    apply Finset.card_insert_of_notMem
    rw [mem_partners, ← h]
    exact hnew
  case isFalse => rfl

private theorem partners_append_of_known (hknown : ∃ m' ∈ ms, side m' = side m ∧ other m' = other m) :
    partners side other (ms ++ [m]) id = partners side other ms id := by
  rw [partners_append]
  split
  case isTrue h =>
    apply Finset.insert_eq_of_mem
    rw [mem_partners, ← h]
    exact hknown
  case isFalse => rfl

private theorem received_eq_nil : received ms sender txid = [] ↔ ¬ ∃ m ∈ ms, m.sender = sender ∧ m.txid = txid := by
  rw [received, List.filter_eq_nil_iff]
  constructor
  · rintro h ⟨m, hm, hpair⟩
    exact h m hm (decide_eq_true hpair)
  · intro h m hm hpair
    exact h ⟨m, hm, of_decide_eq_true hpair⟩

private theorem received_append : received (ms ++ [m]) sender txid =
    if m.sender = sender ∧ m.txid = txid then received ms sender txid ++ [m] else received ms sender txid := by
  rw [received, received, List.filter_append]
  split
  case isTrue h => rw [List.filter_cons, if_pos (decide_eq_true h), List.filter_nil]
  case isFalse h => rw [List.filter_cons, if_neg (by rw [decide_eq_false h]; exact Bool.false_ne_true), List.filter_nil,
      List.append_nil]

private theorem pairStored_append (L : List Approval) : pairStored (L ++ [m]) =
    if L = [] then some (countBytes (m.paircount.toNat + 1)) else some (countBytes 1) := by
  cases L with
  | nil => rfl
  | cons x L =>
    rw [if_neg (List.cons_ne_nil x L), List.cons_append]
    cases L <;> rfl

private theorem pairStored_eq_none {L : List Approval} : pairStored L = none ↔ L = [] := by
  cases L with
  | nil => exact iff_of_true rfl rfl
  | cons x L =>
    refine iff_of_false (fun h => ?_) (List.cons_ne_nil x L)
    cases L <;> cases h

private theorem idKey_injective : Function.Injective idKey := by
  intro x y h
  have hvalue := congrArg leValue h
  rw [idKey, idKey, leValue_leBytes_of_lt x.isLt, leValue_leBytes_of_lt y.isLt] at hvalue
  exact BitVec.eq_of_toNat_eq hvalue

private theorem idKey_length : (idKey id).length = 8 := leBytes_length 8 _

private theorem key_ne_idKey : idKey id ≠ m.key := by
  intro h
  have hlen := congrArg List.length h
  rw [Approval.key, List.length_append, idKey_length, idKey_length, idKey_length] at hlen
  exact absurd hlen (by decide)

private theorem key_eq_iff : m.key = idKey txid ++ idKey sender ↔ m.sender = sender ∧ m.txid = txid := by
  rw [Approval.key]
  constructor
  · intro h
    obtain ⟨htxid, hsender⟩ := List.append_inj h (by rw [idKey_length, idKey_length])
    exact ⟨idKey_injective hsender, idKey_injective htxid⟩
  · rintro ⟨rfl, rfl⟩
    rfl

/-- What the store holds after these messages. -/
structure Tally (ms : List Approval) (kv : Kv) : Prop where
  tidy : Tidy kv
  ids : ∀ id, Counts kv (idKey id) ((senders ms id).card + (txids ms id).card)
  pairs : ∀ sender txid, kv.map (idKey txid ++ idKey sender) = pairStored (received ms sender txid)

private theorem countUp_ids {n : BitVec 64 → Nat} (htidy : Tidy kv) (h : ∀ id, Counts kv (idKey id) (n id)) (x : BitVec 64) :
    ∃ kv', countUp kv (idKey x) = some kv' ∧ Tidy kv' ∧ (∀ id, Counts kv' (idKey id) (n id + if x = id then 1 else 0)) ∧
      ∀ k, (∀ id, idKey id ≠ k) → kv'.map k = kv.map k := by
  obtain ⟨kv', hup, hput⟩ := countUp_put htidy (h x)
  refine ⟨kv', hup, hput.tidy, fun id => ?_, fun k hk => ?_⟩
  · by_cases hid : x = id
    · rw [if_pos hid, ← hid]
      exact hput.counts_self (Nat.succ_ne_zero _)
    · rw [if_neg hid, Nat.add_zero, hput.counts_other fun heq => hid (idKey_injective heq)]
      exact h id
  · rw [hput.map, if_neg (hk x)]

private theorem Tally.write_pair {n : Nat} (htidy : Tidy kv)
    (hids : ∀ id, Counts kv (idKey id) ((senders (ms ++ [m]) id).card + (txids (ms ++ [m]) id).card))
    (hpairs : ∀ sender txid, kv.map (idKey txid ++ idKey sender) = pairStored (received ms sender txid))
    (hn : pairStored (received ms m.sender m.txid ++ [m]) = some (countBytes n)) :
    ∃ kv', write kv m.key (countBytes n) = some kv' ∧ Tally (ms ++ [m]) kv' := by
  obtain ⟨kv', hwrite, hput⟩ : ∃ kv', write kv m.key (countBytes n) = some kv' ∧ Put kv kv' m.key (countBytes n) :=
    write_put htidy (countBytes_length n)
  refine ⟨kv', hwrite, hput.tidy, fun id => ?_, fun sender txid => ?_⟩
  · rw [hput.counts_other fun heq => key_ne_idKey heq.symm]
    exact hids id
  · rw [hput.map, received_append]
    by_cases hpair : m.sender = sender ∧ m.txid = txid
    · rw [if_pos (key_eq_iff.mpr hpair), if_pos hpair, ← hn, hpair.1, hpair.2]
    · rw [if_neg (mt key_eq_iff.mp hpair), if_neg hpair, hpairs]

theorem gotapproval_tally (h : Tally ms kv) (m : Approval) :
    ∃ kv', gotapproval kv m = some kv' ∧ Tally (ms ++ [m]) kv' := by
  have hkey : kv.map m.key = pairStored (received ms m.sender m.txid) := h.pairs m.sender m.txid
  rw [gotapproval]
  by_cases hnil : received ms m.sender m.txid = []
  · have hnew := received_eq_nil.mp hnil
    have hnew' : ¬ ∃ m' ∈ ms, m'.txid = m.txid ∧ m'.sender = m.sender := by
      rintro ⟨m', hm', htxid, hsender⟩
      exact hnew ⟨m', hm', hsender, htxid⟩
    obtain ⟨kv₁, hup₁, htidy₁, hids₁, hmap₁⟩ := countUp_ids h.tidy h.ids m.txid
    obtain ⟨kv₂, hup₂, htidy₂, hids₂, hmap₂⟩ := countUp_ids htidy₁ hids₁ m.sender
    have hids : ∀ id, Counts kv₂ (idKey id) ((senders (ms ++ [m]) id).card + (txids (ms ++ [m]) id).card) := by
      intro id
      have hsenders : (senders (ms ++ [m]) id).card = (senders ms id).card + if m.txid = id then 1 else 0 :=
        card_partners_append hnew'
      have htxids : (txids (ms ++ [m]) id).card = (txids ms id).card + if m.sender = id then 1 else 0 :=
        card_partners_append hnew
      rw [hsenders, htxids, Nat.add_add_add_comm, ← Nat.add_assoc]
      exact hids₂ id
    have hpairs : ∀ sender txid, kv₂.map (idKey txid ++ idKey sender) = pairStored (received ms sender txid) := by
      intro sender txid
      have hlen : ∀ id, idKey id ≠ idKey txid ++ idKey sender := fun id => key_ne_idKey (m := ⟨sender, txid, 0⟩)
      rw [hmap₂ _ hlen, hmap₁ _ hlen]
      exact h.pairs sender txid
    rw [read_none h.tidy (hkey.trans (pairStored_eq_none.mpr hnil))]
    simp only [Option.bind_eq_bind, Option.bind_some, hup₁, hup₂]
    apply Tally.write_pair htidy₂ hids hpairs
    rw [hnil]
    rfl
  · have hknown := not_not.mp (mt received_eq_nil.mpr hnil)
    have hknown' : ∃ m' ∈ ms, m'.txid = m.txid ∧ m'.sender = m.sender := by
      obtain ⟨m', hm', hsender, htxid⟩ := hknown
      exact ⟨m', hm', htxid, hsender⟩
    have hids : ∀ id, Counts kv (idKey id) ((senders (ms ++ [m]) id).card + (txids (ms ++ [m]) id).card) := by
      intro id
      rw [senders, txids, partners_append_of_known hknown', partners_append_of_known hknown]
      exact h.ids id
    obtain ⟨value, hvalue⟩ := Option.ne_none_iff_exists'.mp (mt pairStored_eq_none.mp hnil)
    obtain ⟨item, hread, -, -⟩ := read_some h.tidy (hkey.trans hvalue)
    rw [hread]
    simp only [Option.bind_eq_bind, Option.bind_some]
    apply Tally.write_pair h.tidy hids h.pairs
    rw [pairStored_append, if_neg hnil]

private theorem init_empty (flags : Flags) : ∃ kv, init flags [] = some kv ∧ kv.locked = false ∧ kv.table = [] := by
  rw [init]
  split
  · rw [List.length_nil, loads, show load ⟨[], 0⟩ 0 = (none, ⟨[], 0⟩, 0) from load_end rfl]
    exact ⟨_, rfl, rfl, rfl⟩
  · exact ⟨_, rfl, rfl, rfl⟩

theorem approvals_tally (flags : Flags) (ms : List Approval) : ∃ kv, approvals flags ms = some kv ∧ Tally ms kv := by
  obtain ⟨kv₀, hinit, hlocked, htable⟩ := init_empty flags
  have hempty : Tally [] kv₀ := by
    have hnone : ∀ k, kv₀.map k = none := by
      intro k
      rw [Kv.map, htable]
      rfl
    refine ⟨⟨hlocked, fun ptr hptr => ?_⟩, fun id => hnone _, fun sender txid => hnone _⟩
    rw [htable] at hptr
    cases hptr
  rw [approvals, hinit]
  simp only [Option.bind_eq_bind, Option.bind_some]
  induction ms using List.reverseRecOn with
  | nil => exact ⟨kv₀, rfl, hempty⟩
  | append_singleton ms m ih =>
    obtain ⟨kv, hrun, htally⟩ := ih
    obtain ⟨kv', hstep, htally'⟩ := gotapproval_tally htally m
    refine ⟨kv', ?_, htally'⟩
    rw [List.foldlM_append, hrun]
    simp only [Option.bind_eq_bind, Option.bind_some, List.foldlM_cons, hstep, List.foldlM_nil]
    rfl

end Tally

/-- The counts that are asked for: distinct senders, distinct transactions, and messages of the pair. -/
structure Exact (ms : List Approval) (kv : Kv) : Prop where
  txid : ∀ m ∈ ms, count kv (idKey m.txid) = (senders ms m.txid).card
  sender : ∀ m ∈ ms, count kv (idKey m.sender) = (txids ms m.sender).card
  pair : ∀ m ∈ ms, count kv m.key = (received ms m.sender m.txid).length

/-- No pair comes twice, the pair counter happens to start at 0, no id is that of a sender and of a transaction, and
the counts fit in 32 bits. -/
structure Plain (ms : List Approval) : Prop where
  once : ∀ m ∈ ms, (received ms m.sender m.txid).length = 1
  zero : ∀ m ∈ ms, m.paircount = 0
  apart : ∀ m ∈ ms, ∀ m' ∈ ms, m.txid ≠ m'.sender
  senders : ∀ m ∈ ms, (senders ms m.txid).card < 2^32
  txids : ∀ m ∈ ms, (txids ms m.sender).card < 2^32

section Exact
variable {ms : List Approval} {m : Approval} {kv : Kv}

private theorem Tally.count_id (h : Tally ms kv) (id : BitVec 64) :
    count kv (idKey id) = ((senders ms id).card + (txids ms id).card) % 2^32 := by
  rw [count, h.ids id]
  split
  case isTrue hzero => rw [hzero]; rfl
  case isFalse => exact leValue_countBytes _

private theorem mem_received (hm : m ∈ ms) : m ∈ received ms m.sender m.txid :=
  List.mem_filter.mpr ⟨hm, decide_eq_true ⟨rfl, rfl⟩⟩

private theorem Tally.count_pair_iff (h : Tally ms kv) (hm : m ∈ ms) :
    count kv m.key = (received ms m.sender m.txid).length ↔
      (received ms m.sender m.txid).length = 1 ∧ m.paircount = 0 := by
  have hmem := mem_received hm
  have hkey : kv.map m.key = pairStored (received ms m.sender m.txid) := h.pairs m.sender m.txid
  rw [count, hkey]
  match received ms m.sender m.txid, hmem with
  | [x], hmem =>
    obtain rfl := List.mem_singleton.mp hmem
    change leValue (countBytes (m.paircount.toNat + 1)) = 1 ↔ 1 = 1 ∧ m.paircount = 0
    have hlt := m.paircount.isLt
    rw [leValue_countBytes, ← BitVec.toNat_inj]
    change _ ↔ 1 = 1 ∧ m.paircount.toNat = 0
    omega
  | x :: y :: L, _ =>
    change leValue (countBytes 1) = L.length + 1 + 1 ↔ L.length + 1 + 1 = 1 ∧ m.paircount = 0
    rw [leValue_countBytes]
    exact iff_of_false (by omega) fun hlen => by omega

private theorem txids_pos (hm : m ∈ ms) : 0 < (txids ms m.sender).card :=
  Finset.card_pos.mpr ⟨m.txid, mem_partners.mpr ⟨m, hm, rfl, rfl⟩⟩

private theorem partners_eq_empty {side other : Approval → BitVec 64} {id : BitVec 64} (h : ∀ m ∈ ms, side m ≠ id) :
    (partners side other ms id).card = 0 := by
  rw [Finset.card_eq_zero, Finset.eq_empty_iff_forall_notMem]
  intro x hx
  obtain ⟨m, hm, hside, -⟩ := mem_partners.mp hx
  exact h m hm hside

/-- All counts are right after some messages iff the messages are plain. -/
theorem exact_iff (flags : Flags) (ms : List Approval) :
    ∃ kv, approvals flags ms = some kv ∧ (Exact ms kv ↔ Plain ms) := by
  obtain ⟨kv, hrun, h⟩ := approvals_tally flags ms
  refine ⟨kv, hrun, fun hexact => ?_, fun hplain => ?_⟩
  · have hpair := fun m hm => (h.count_pair_iff hm).mp (hexact.pair m hm)
    have hsenders : ∀ m ∈ ms, (senders ms m.txid).card < 2^32 := by
      intro m hm
      rw [← hexact.txid m hm, h.count_id]
      exact Nat.mod_lt _ (Nat.two_pow_pos 32)
    have htxids : ∀ m ∈ ms, (txids ms m.sender).card < 2^32 := by
      intro m hm
      rw [← hexact.sender m hm, h.count_id]
      exact Nat.mod_lt _ (Nat.two_pow_pos 32)
    refine ⟨fun m hm => (hpair m hm).1, fun m hm => (hpair m hm).2, fun m hm m' hm' heq => ?_, hsenders, htxids⟩
    have hcount := hexact.txid m hm
    have hcount' := hexact.sender m' hm'
    have hpos := txids_pos hm'
    have hlt := htxids m' hm'
    have hlt' := hsenders m hm
    rw [← heq, h.count_id] at hcount'
    rw [← heq] at hpos hlt
    rw [h.count_id] at hcount
    omega
  · refine ⟨fun m hm => ?_, fun m hm => ?_, fun m hm => (h.count_pair_iff hm).mpr ⟨hplain.once m hm, hplain.zero m hm⟩⟩
    · have hempty : (txids ms m.txid).card = 0 := partners_eq_empty fun m' hm' => (hplain.apart m hm m' hm').symm
      rw [h.count_id, hempty, Nat.add_zero, Nat.mod_eq_of_lt (hplain.senders m hm)]
    · have hempty : (senders ms m.sender).card = 0 := partners_eq_empty fun m' hm' => hplain.apart m' hm' m hm
      rw [h.count_id, hempty, Nat.zero_add, Nat.mod_eq_of_lt (hplain.txids m hm)]

/-- The second message of a pair sets its counter back to 1. -/
theorem repeated_counts_once : ¬ ∀ (flags : Flags) (ms : List Approval) (kv : Kv), approvals flags ms = some kv → Exact ms kv := by
  intro h
  let ms : List Approval := [⟨1, 2, 0⟩, ⟨1, 2, 0⟩]
  obtain ⟨kv, hrun, htally⟩ := approvals_tally defaultflags ms
  have hexact := h _ _ _ hrun
  have hpair := (htally.count_pair_iff (m := ⟨1, 2, 0⟩) List.mem_cons_self).mp (hexact.pair _ List.mem_cons_self)
  exact absurd hpair.1 (by decide)

end Exact

end SuperNet.KV.Dkv777
