import SuperNet.KV.KvLocks

/-! The map that ramkv777.c keeps in memory, and the pointers that it returns. The table is not thread safe:
its lock functions do nothing. The digest is left out. -/
namespace SuperNet.KV.Ramkv777
open SuperNet.Lib.Runs SuperNet.Lib.Words KvLocks

/-- The offset of `keyvalue` in `struct ramkv777_item`. -/
def KEYVALUE_OFFSET : Int := 64

structure Block where
  addr : Int
  item : RamItem

structure Ram where
  keysize : Nat
  kvind : Nat
  numkeys : Nat
  table : List Block

/-- `calloc`: the block of a call, of which no block in use has the address. -/
structure Calloc where
  block : Nat → List Int → Nat → Int
  pos : ∀ call live size, 0 < block call live size
  fresh : ∀ call live size, block call live size ∉ live

namespace Ram

def itemvalue (kv : Ram) (b : Block) : Int := b.addr + KEYVALUE_OFFSET + kv.keysize

def itemsize (kv : Ram) (valuesize : Nat) : Nat := 64 + kv.keysize + valuesize

def itemptr (kv : Ram) (value : Int) : Int := if value ≠ 0 then value - kv.keysize - KEYVALUE_OFFSET else 0

def find (kv : Ram) (key : List UInt8) : Option Block := kv.table.find? fun b => b.item.key = key

/-- `HASH_DELETE`, and `free`. -/
def erase (kv : Ram) (b : Block) : Ram := { kv with table := kv.table.filter fun x => x.addr ≠ b.addr }

def store (kv : Ram) (b : Block) (value : List UInt8) : Ram :=
  { kv with
    table := kv.table.map fun x =>
      if x.addr = b.addr then { x with item.value := value ++ x.item.value.drop value.length } else x }

end Ram

section Source
variable (malloc : Calloc)

def newItem (kv : Ram) (key value : List UInt8) : Block :=
  ⟨malloc.block kv.numkeys (kv.table.map Block.addr) (kv.itemsize value.length),
    u16 value.length, u32 ((kv.numkeys * ACCTS777_MAXRAMKVS ||| kv.kvind : Nat)), key, value⟩

/-- The end of `ramkv777_write`: a new item. -/
def ramkv777Add (kv : Ram) (key value : List UInt8) : Int × Ram :=
  let b := newItem malloc kv key value
  (kv.itemvalue b, { kv with table := kv.table ++ [b], numkeys := kv.numkeys + 1 })

def ramkv777Write (kv : Ram) (key value : List UInt8) : Int × Ram :=
  match kv.find key with
  | some b =>
    if value.length = b.item.valuesize then
      (b.addr, if b.item.value.take value.length ≠ value then kv.store b value else kv)
    else ramkv777Add malloc (kv.erase b) key value
  | none => ramkv777Add malloc kv key value

/-- `ramkv777_read`: the pointer and the size. -/
def ramkv777Read (kv : Ram) (key : List UInt8) : Int × Nat :=
  match kv.find key with
  | some b => (kv.itemvalue b, b.item.valuesize)
  | none => (0, 0)

def ramkv777Delete (kv : Ram) (key : List UInt8) : Int × Ram :=
  match kv.find key with
  | some b => (0, kv.erase b)
  | none => (-1, kv)

def ramkv777Init (keysize kvind : Nat) : Ram := ⟨keysize, kvind, 0, []⟩

inductive Op where
  | write (key value : List UInt8)
  | read (key : List UInt8)
  | delete (key : List UInt8)

/-- For each key the value of its last write, unless it has been deleted since. -/
abbrev Last := List UInt8 → Option (List UInt8)

def step (s : Ram × Last) : Op → Ram × Last
  | .write key value => ((ramkv777Write malloc s.1 key value).2, Function.update s.2 key (some value))
  | .read _ => s
  | .delete key => ((ramkv777Delete s.1 key).2, Function.update s.2 key none)

end Source

/-- The first `n` bytes of the value that starts at an address. -/
def Ram.bytes (kv : Ram) (p : Int) (n : Nat) : Option (List UInt8) :=
  (kv.table.find? fun b => kv.itemvalue b = p).map fun b => b.item.value.take n

def Answers (kv : Ram) (key : List UInt8) : Option (List UInt8) → Prop
  | some value => ∃ p ≠ 0, ramkv777Read kv key = (p, value.length) ∧ kv.bytes p value.length = some value
  | none => ramkv777Read kv key = (0, 0)

/-- The pointer is the one to the value of the item of a key. -/
structure Designates (kv : Ram) (key value : List UInt8) (p : Int) (b : Block) : Prop where
  mem : b ∈ kv.table
  key : b.item.key = key
  pointer : p = kv.itemvalue b
  value : kv.bytes p value.length = some value
  itemptr : kv.itemptr p = b.addr

/-- A step after which every read gives the last write, and which returns the pointer to what it has written. -/
structure Right (malloc : Calloc) (s : Ram × Last) (op : Op) : Prop where
  answers : ∀ key, Answers (step malloc s op).1 key ((step malloc s op).2 key)
  pointer : ∀ key value, op = .write key value →
    ∃ b, Designates (step malloc s op).1 key value (ramkv777Write malloc s.1 key value).1 b

/-- No write of a value of the size that its key has already, or too large for 16 bits. -/
def Resizing (s : Ram × Last) : Op → Prop
  | .write key value => value.length < 2^16 ∧ ∀ old, s.2 key = some old → old.length ≠ value.length
  | _ => True

structure Holds (s : Ram × Last) : Prop where
  keys : (s.1.table.map fun b => b.item.key).Nodup
  addrs : (s.1.table.map Block.addr).Nodup
  pos : ∀ b ∈ s.1.table, 0 < b.addr
  size : ∀ b ∈ s.1.table, b.item.valuesize = b.item.value.length
  small : ∀ b ∈ s.1.table, b.item.valuesize < 2^16
  last : ∀ key, s.2 key = (s.1.find key).map fun b => b.item.value

section Find
variable {kv : Ram} {b x : Block} {key : List UInt8}

theorem find?_of_nodup {α β : Type} [DecidableEq β] {f : α → β} {l : List α} (h : (l.map f).Nodup) {a : α} (ha : a ∈ l) :
    l.find? (fun x => f x = f a) = some a := by
  cases hfind : l.find? fun x => f x = f a with
  | none => exact absurd (decide_eq_true rfl) (List.find?_eq_none.mp hfind a ha)
  | some x =>
    have hx : f x = f a := by simpa using List.find?_some hfind
    rw [List.inj_on_of_nodup_map h (List.mem_of_find?_eq_some hfind) ha hx]

theorem Ram.find_mem (h : kv.find key = some b) : b ∈ kv.table ∧ b.item.key = key := by
  have hkey : b.item.key = key := by simpa using List.find?_some h
  exact ⟨List.mem_of_find?_eq_some h, hkey⟩

theorem Ram.find_none (h : kv.find key = none) : key ∉ kv.table.map fun b => b.item.key := by
  intro hmem
  obtain ⟨b, hb, rfl⟩ := List.mem_map.mp hmem
  exact List.find?_eq_none.mp h b hb (decide_eq_true rfl)

theorem Ram.bytes_eq (h : (kv.table.map Block.addr).Nodup) (hb : b ∈ kv.table) (n : Nat) :
    kv.bytes (kv.itemvalue b) n = some (b.item.value.take n) := by
  have hat : ∀ x, kv.itemvalue x = kv.itemvalue b ↔ x.addr = b.addr := by
    intro x
    rw [Ram.itemvalue, Ram.itemvalue, Int.add_left_inj, Int.add_left_inj]
  simp only [Ram.bytes, hat, find?_of_nodup h hb, Option.map_some]

theorem Ram.itemvalue_ne (hpos : 0 < b.addr) : kv.itemvalue b ≠ 0 := by
  rw [Ram.itemvalue, KEYVALUE_OFFSET]
  omega

theorem Ram.itemptr_itemvalue (hpos : 0 < b.addr) : kv.itemptr (kv.itemvalue b) = b.addr := by
  rw [Ram.itemptr, if_pos (Ram.itemvalue_ne hpos), Ram.itemvalue]
  omega

end Find

namespace Holds
variable {malloc : Calloc} {s : Ram × Last} {b : Block} {key value : List UInt8}

theorem init (keysize kvind : Nat) : Holds (ramkv777Init keysize kvind, fun _ => none) :=
  ⟨List.nodup_nil, List.nodup_nil, fun _ h => absurd h List.not_mem_nil, fun _ h => absurd h List.not_mem_nil,
    fun _ h => absurd h List.not_mem_nil, fun _ => rfl⟩

theorem answers (h : Holds s) (key : List UInt8) : Answers s.1 key (s.2 key) := by
  rw [h.last key]
  cases hfind : s.1.find key with
  | none =>
    rw [Option.map_none, Answers, ramkv777Read, hfind]
  | some b =>
    have hb := (Ram.find_mem hfind).1
    rw [Option.map_some, Answers]
    refine ⟨s.1.itemvalue b, Ram.itemvalue_ne (h.pos b hb), ?_, ?_⟩
    · rw [ramkv777Read, hfind, ← h.size b hb]
    · rw [Ram.bytes_eq h.addrs hb, List.take_length]

theorem find_erase (h : Holds s) (hb : s.1.find key = some b) (key' : List UInt8) :
    (s.1.erase b).find key' = if key' = key then none else s.1.find key' := by
  obtain ⟨hmem, rfl⟩ := Ram.find_mem hb
  -- The item erased is also the only one with its key.
  have hkeys : (s.1.erase b).table = s.1.table.filter fun x => x.item.key ≠ b.item.key := by
    apply List.filter_congr
    intro x hx
    apply decide_eq_decide.mpr
    constructor
    · exact fun hne heq => hne (congrArg Block.addr (List.inj_on_of_nodup_map h.keys hx hmem heq))
    · exact fun hne heq => hne (congrArg (fun b => b.item.key) (List.inj_on_of_nodup_map h.addrs hx hmem heq))
  rw [Ram.find, hkeys, List.find?_filter]
  split
  case isTrue hkey =>
    apply List.find?_eq_none.mpr
    intro x _
    simp [hkey]
  case isFalse hkey =>
    rw [Ram.find]
    congr 1
    funext x
    by_cases hx : x.item.key = key'
    · simp [hx, hkey]
    · simp [hx]

/-- What holds of the items holds without one of them. -/
theorem erase (h : Holds s) (hb : s.1.find key = some b) : Holds (s.1.erase b, Function.update s.2 key none) := by
  have hsub : (s.1.erase b).table.Sublist s.1.table := List.filter_sublist
  refine ⟨h.keys.sublist (hsub.map _), h.addrs.sublist (hsub.map _), fun x hx => h.pos x (hsub.subset hx),
    fun x hx => h.size x (hsub.subset hx), fun x hx => h.small x (hsub.subset hx), ?_⟩
  intro key'
  dsimp only
  rw [h.find_erase hb, Function.update_apply]
  split
  · rfl
  · exact h.last key'

theorem mem_add {P : Block → Prop} (hold : ∀ b ∈ s.1.table, P b) (hnew : P (newItem malloc s.1 key value)) :
    ∀ b ∈ (ramkv777Add malloc s.1 key value).2.table, P b := by
  intro b hb
  rcases List.mem_append.mp hb with hb | hb
  · exact hold b hb
  · exact List.mem_singleton.mp hb ▸ hnew

theorem add (malloc : Calloc) (h : Holds s) (hnone : s.1.find key = none) (hlen : value.length < 2^16) :
    Holds ((ramkv777Add malloc s.1 key value).2, Function.update s.2 key (some value)) := by
  have hsize : (newItem malloc s.1 key value).item.valuesize = value.length := unsigned_of_lt hlen
  refine ⟨?_, ?_, mem_add h.pos (malloc.pos _ _ _), mem_add h.size hsize, mem_add h.small (hsize.trans_lt hlen), ?_⟩
  · rw [ramkv777Add, List.map_append, List.nodup_append_comm]
    exact List.nodup_cons.mpr ⟨Ram.find_none hnone, h.keys⟩
  · rw [ramkv777Add, List.map_append, List.nodup_append_comm]
    exact List.nodup_cons.mpr ⟨malloc.fresh _ _ _, h.addrs⟩
  · intro key'
    dsimp only
    rw [ramkv777Add, Ram.find, List.find?_append, ← Ram.find, Function.update_apply, h.last key']
    split
    case isTrue hkey =>
      rw [hkey, hnone]
      simp [newItem]
    case isFalse hkey => simp [newItem, Ne.symm hkey]

theorem designates_add (h : Holds s) (hnone : s.1.find key = none) (hlen : value.length < 2^16) :
    Designates (ramkv777Add malloc s.1 key value).2 key value (ramkv777Add malloc s.1 key value).1
      (newItem malloc s.1 key value) := by
  have hmem : newItem malloc s.1 key value ∈ (ramkv777Add malloc s.1 key value).2.table :=
    List.mem_append_right _ (List.mem_singleton_self _)
  have hadd := h.add malloc hnone hlen
  refine ⟨hmem, rfl, rfl, ?_, Ram.itemptr_itemvalue (hadd.pos _ hmem)⟩
  have hbytes := Ram.bytes_eq hadd.addrs hmem value.length
  have hvalue : (newItem malloc s.1 key value).item.value.take value.length = value := List.take_length
  rw [hvalue] at hbytes
  exact hbytes

/-- The table before the item of a write is added, without the item that it replaces. -/
theorem write_eq (malloc : Calloc) (h : Holds s) (hresizing : Resizing s (.write key value)) :
    ∃ kv, ramkv777Write malloc s.1 key value = ramkv777Add malloc kv key value ∧ kv.find key = none ∧
      Holds (kv, Function.update s.2 key none) := by
  rw [ramkv777Write]
  cases hfind : s.1.find key with
  | none =>
    refine ⟨s.1, rfl, hfind, ?_⟩
    have hlast := h.last key
    rw [hfind, Option.map_none] at hlast
    rw [← hlast, Function.update_eq_self]
    exact h
  | some b =>
    have hb := (Ram.find_mem hfind).1
    have hold : s.2 key = some b.item.value := by rw [h.last key, hfind, Option.map_some]
    have hne := hresizing.2 _ hold
    dsimp only
    rw [h.size b hb, if_neg hne.symm]
    refine ⟨s.1.erase b, rfl, ?_, h.erase hfind⟩
    rw [h.find_erase hfind, if_pos rfl]

theorem step (malloc : Calloc) (h : Holds s) {op : Op} (hresizing : Resizing s op) : Holds (step malloc s op) := by
  cases op with
  | write key value =>
    obtain ⟨kv, hwrite, hnone, hkv⟩ := h.write_eq malloc hresizing
    have hadd := hkv.add malloc hnone hresizing.1
    rw [Function.update_idem] at hadd
    rw [Ramkv777.step, hwrite]
    exact hadd
  | read key => exact h
  | delete key =>
    rw [Ramkv777.step, ramkv777Delete]
    cases hfind : s.1.find key with
    | some b => exact h.erase hfind
    | none =>
      have hlast := h.last key
      rw [hfind, Option.map_none] at hlast
      rw [← hlast, Function.update_eq_self]
      exact h

theorem right (h : Holds s) {op : Op} (hresizing : Resizing s op) : Right malloc s op where
  answers := (h.step malloc hresizing).answers
  pointer := by
    rintro key value rfl
    obtain ⟨kv, hwrite, hnone, hkv⟩ := h.write_eq malloc hresizing
    refine ⟨newItem malloc kv key value, ?_⟩
    rw [Ramkv777.step, hwrite]
    exact hkv.designates_add hnone hresizing.1

/-- A value of the size that its key has is written to the item there, and the pointer to the item is returned. -/
theorem write_same (malloc : Calloc) (h : Holds s) (hfind : s.1.find key = some b)
    (hlen : value.length = b.item.value.length) :
    (ramkv777Write malloc s.1 key value).1 = b.addr ∧
      ∀ x ∈ (ramkv777Write malloc s.1 key value).2.table, ∃ y ∈ s.1.table,
        x.addr = y.addr ∧ x.item.key = y.item.key := by
  rw [ramkv777Write, hfind]
  dsimp only
  rw [if_pos (hlen.trans (h.size b (Ram.find_mem hfind).1).symm)]
  refine ⟨rfl, ?_⟩
  intro x hx
  dsimp only at hx
  split at hx
  · obtain ⟨y, hy, rfl⟩ := List.mem_map.mp hx
    refine ⟨y, hy, ?_⟩
    split <;> exact ⟨rfl, rfl⟩
  · exact ⟨x, hx, rfl, rfl⟩

theorem write_small (h : Holds s) : ∀ x ∈ (ramkv777Write malloc s.1 key value).2.table, x.item.valuesize < 2^16 := by
  have hadd : ∀ kv : Ram, (∀ x ∈ kv.table, x.item.valuesize < 2^16) →
      ∀ x ∈ (ramkv777Add malloc kv key value).2.table, x.item.valuesize < 2^16 := by
    intro kv hkv
    have hnew : (newItem malloc kv key value).item.valuesize < 2^16 := unsigned_lt 16 (value.length : Int)
    exact mem_add (s := (kv, s.2)) hkv hnew
  rw [ramkv777Write]
  split
  · split
    · split
      · intro x hx
        obtain ⟨y, hy, rfl⟩ := List.mem_map.mp hx
        have hsmall := h.small y hy
        split <;> exact hsmall
      · exact h.small
    · exact hadd _ fun x hx => h.small x (List.mem_filter.mp hx).1
  · exact hadd _ h.small

/-- A step that is right is none of the writes left out. -/
theorem resizing (h : Holds s) {op : Op} (hright : Right malloc s op) : Resizing s op := by
  cases op with
  | read key => trivial
  | delete key => trivial
  | write key value =>
    constructor
    · have hanswers := hright.answers key
      rw [Ramkv777.step] at hanswers
      dsimp only at hanswers
      rw [Function.update_self] at hanswers
      obtain ⟨p, hp, hread, -⟩ := hanswers
      rw [ramkv777Read] at hread
      split at hread
      case h_1 b hfind =>
        have hsize := h.write_small b (Ram.find_mem hfind).1
        rw [Prod.mk.injEq] at hread
        rw [← hread.2]
        exact hsize
      case h_2 =>
        rw [Prod.mk.injEq] at hread
        exact absurd hread.1.symm hp
    · intro old hold hlen
      rw [h.last key, Option.map_eq_some_iff] at hold
      obtain ⟨b, hfind, rfl⟩ := hold
      obtain ⟨hb, hkey⟩ := Ram.find_mem hfind
      obtain ⟨hpointer, htable⟩ := h.write_same malloc hfind hlen.symm
      obtain ⟨x, hx⟩ := hright.pointer key value rfl
      obtain ⟨y, hy, haddr, hkeys⟩ := htable x hx.mem
      have heq : y = b := List.inj_on_of_nodup_map h.keys hy hb (hkeys.symm.trans (hx.key.trans hkey.symm))
      -- The pointer returned is the address of the item, and not that of its value.
      have hvalue := hpointer.symm.trans hx.pointer
      rw [Ram.itemvalue, haddr, heq, KEYVALUE_OFFSET] at hvalue
      omega

end Holds

section Locks
variable {s : Ram × Last} {stores : Stores} {b : Block} {key value : List UInt8}

/-- The store as the functions with the mutex have it; for this one they leave the mutex alone. -/
def Ram.ramkv (kv : Ram) : Ramkv := ⟨false, kv.keysize, kv.kvind, kv.numkeys, kv.table.map Block.item⟩

def Op.locked : Op → KvLocks.Op
  | .write key value => .ramWrite key value
  | .read key => .ramRead key
  | .delete key => .ramDelete key

private theorem ramCall_ramkv (kv : Ram) (call : SuperNet.Lib.Mutex.Call) (h : stores.ram = kv.ramkv) :
    ramCall call stores = stores := by
  rw [ramCall, h, Ram.ramkv, if_neg Bool.false_ne_true]

private theorem findRam_ramkv (kv : Ram) (key : List UInt8) :
    plainHash.findRam kv.ramkv.table key = (kv.find key).map Block.item := by
  have hfind : plainHash.findRam kv.ramkv.table key = (kv.table.map Block.item).find? fun item => item.key == key := rfl
  rw [hfind, List.find?_map, Ram.find]
  simp only [Function.comp_def, beq_eq_decide]

private theorem insert_ramkv (malloc : Calloc) (kv : Ram) (key value : List UInt8) :
    kv.ramkv.insert key value = (ramkv777Add malloc kv key value).2.ramkv := by
  rw [Ramkv.insert, ramkv777Add, Ram.ramkv, Ram.ramkv, List.map_append]
  rfl

theorem Holds.remove_ramkv (h : Holds s) (hb : s.1.find key = some b) : s.1.ramkv.remove b.item = (s.1.erase b).ramkv := by
  have hmem := (Ram.find_mem hb).1
  have hitems : (s.1.table.map Block.item).Nodup := by
    apply List.Nodup.of_map RamItem.key
    rw [List.map_map]
    exact h.keys
  have htable : (s.1.table.map Block.item).erase b.item = (s.1.erase b).table.map Block.item := by
    rw [hitems.erase_eq_filter, List.filter_map, Ram.erase]
    congr 1
    apply List.filter_congr
    intro x hx
    have hsame : x.item = b.item ↔ x.addr = b.addr :=
      ⟨fun heq => congrArg Block.addr (List.inj_on_of_nodup_map hitems hx hmem heq),
        fun heq => congrArg Block.item (List.inj_on_of_nodup_map h.addrs hx hmem heq)⟩
    rw [Function.comp_apply, bne, beq_eq_decide, decide_eq_decide.mpr hsame, decide_not]
  rw [Ramkv.remove, Ram.ramkv, htable]
  rfl

theorem Holds.store_ramkv (h : Holds s) (hb : s.1.find key = some b) (hlen : value.length = b.item.valuesize) :
    { s.1.ramkv with
      table := s.1.ramkv.table.map fun x => if x = b.item then { b.item with value := value } else x } =
      (s.1.store b value).ramkv := by
  have hmem := (Ram.find_mem hb).1
  have htable : (s.1.ramkv.table.map fun x => if x = b.item then { b.item with value := value } else x) =
      (s.1.store b value).ramkv.table := by
    rw [Ram.ramkv, Ram.ramkv, Ram.store, List.map_map, List.map_map]
    apply List.map_congr_left
    intro x hx
    rw [Function.comp_apply, Function.comp_apply]
    by_cases haddr : x.addr = b.addr
    case pos =>
      obtain rfl : x = b := List.inj_on_of_nodup_map h.addrs hx hmem haddr
      have hdrop : x.item.value.drop value.length = [] := by
        rw [hlen, h.size x hx, List.drop_length]
      rw [if_pos rfl, if_pos rfl, hdrop, List.append_nil]
    case neg =>
      have hitem : x.item ≠ b.item := by
        intro heq
        exact haddr (congrArg Block.addr (List.inj_on_of_nodup_map h.keys hx hmem (congrArg RamItem.key heq)))
      rw [if_neg hitem, if_neg haddr]
  rw [htable]
  rfl

theorem Holds.read_ramkv (h : Holds s) (hram : stores.ram = s.1.ramkv) (key : List UInt8) :
    (KvLocks.ramkv777Read plainHash stores key).1 = s.2 key := by
  rw [KvLocks.ramkv777Read, ramCall_ramkv _ _ hram, hram, findRam_ramkv, Option.map_map, h.last]
  rfl

/-- Without a mutex the functions that lock the table do to it what is done here. -/
theorem Holds.step_ramkv (malloc : Calloc) (h : Holds s) (hram : stores.ram = s.1.ramkv) (op : Op) :
    (KvLocks.step plainHash stores op.locked).ram = (Ramkv777.step malloc s op).1.ramkv := by
  cases op with
  | read key =>
    rw [Op.locked, KvLocks.step, KvLocks.ramkv777Read, ramCall_ramkv _ _ hram, ramCall_ramkv _ _ hram]
    exact hram
  | write key value =>
    rw [Op.locked, KvLocks.step, KvLocks.ramkv777Write, ramCall_ramkv _ _ hram, hram, findRam_ramkv, Ramkv777.step,
      ramkv777Write]
    cases hfind : s.1.find key with
    | none =>
      have hinsert := insert_ramkv malloc s.1 key value
      exact (congrArg Stores.ram (ramCall_ramkv _ _ hinsert)).trans hinsert
    | some b =>
      dsimp only [Option.map_some]
      split
      case isTrue hlen =>
        -- The value is compared as a whole and by its first bytes, which are all of them.
        have htake : b.item.value.take value.length = b.item.value := by
          rw [hlen, h.size b (Ram.find_mem hfind).1, List.take_length]
        rw [htake]
        split
        case isTrue =>
          have hstore := h.store_ramkv hfind hlen
          exact (congrArg Stores.ram (ramCall_ramkv _ _ hstore)).trans hstore
        case isFalse => exact congrArg Stores.ram (ramCall_ramkv s.1 _ rfl)
      case isFalse =>
        have hinsert := insert_ramkv malloc (s.1.erase b) key value
        rw [h.remove_ramkv hfind]
        exact (congrArg Stores.ram (ramCall_ramkv _ _ hinsert)).trans hinsert
  | delete key =>
    rw [Op.locked, KvLocks.step, KvLocks.ramkv777Delete, ramCall_ramkv _ _ hram, hram, findRam_ramkv, Ramkv777.step,
      ramkv777Delete]
    cases hfind : s.1.find key with
    | none => exact (congrArg Stores.ram (ramCall_ramkv _ _ hram)).trans hram
    | some b =>
      have hremove := h.remove_ramkv hfind
      exact (congrArg Stores.ram (ramCall_ramkv _ _ hremove)).trans hremove

end Locks

/-- The map answers as the last writes and returns the pointers to its values in the runs that write to no key a
value of the size it has, nor one too large for 16 bits, and in no others. -/
theorem steps_right_iff (malloc : Calloc) (keysize kvind : Nat) (ops : List Op) :
    Steps (step malloc) (Right malloc) (ramkv777Init keysize kvind, fun _ => none) ops ↔
      Steps (step malloc) Resizing (ramkv777Init keysize kvind, fun _ => none) ops :=
  Steps.congr (fun _ _ h => ⟨h.resizing, h.right⟩) (fun _ _ h hop => h.step malloc hop) ops (Holds.init keysize kvind)

/-- Blocks at ever higher addresses. -/
def increasing : Calloc where
  block _ live _ := live.foldr max 0 + 1
  pos _ live _ := by
    have : 0 ≤ live.foldr max 0 := by
      induction live with
      | nil => exact le_refl _
      | cons a live ih => exact ih.trans (le_max_right a _)
    omega
  fresh _ live _ := by
    have hle : ∀ a ∈ live, a ≤ live.foldr max 0 := by
      induction live with
      | nil => exact fun a ha => absurd ha List.not_mem_nil
      | cons b live ih =>
        intro a ha
        rcases List.mem_cons.mp ha with rfl | ha
        · exact le_max_left _ _
        · exact (ih a ha).trans (le_max_right _ _)
    intro hmem
    have := hle _ hmem
    omega

/-- A key is written twice with a value of one byte: the second write returns the item. -/
theorem write_twice_item : ¬ ∀ (malloc : Calloc) (keysize kvind : Nat) (ops : List Op),
    Steps (step malloc) (Right malloc) (ramkv777Init keysize kvind, fun _ => none) ops := by
  intro h
  have hfirst : Resizing (ramkv777Init 1 0, fun _ => none) (.write [7] [1]) :=
    ⟨by decide, fun old hold => absurd hold (Option.some_ne_none old).symm⟩
  have hholds := (Holds.init 1 0).step increasing hfirst
  have hsecond := (h increasing 1 0 [.write [7] [1], .write [7] [2]]).2.1
  exact (hholds.resizing hsecond).2 [1] rfl rfl

end SuperNet.KV.Ramkv777
