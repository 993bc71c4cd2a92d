import SuperNet.Lib.Mutex
import SuperNet.Lib.Runs
import SuperNet.KV.Kv777

/-! The calls that the operations of kv777.c and ramkv777.c make on the mutex of their store. The digest
of a ramkv777 is left out. -/
namespace SuperNet.KV.KvLocks
open SuperNet.Lib.Mutex SuperNet.Lib.Runs SuperNet.Lib.Words Kv777

def ACCTS777_MAXRAMKVS : Nat := 8

structure RamItem where
  valuesize : Nat
  rawind : Nat
  key : List UInt8
  value : List UInt8
  deriving DecidableEq

structure Ramkv where
  threadsafe : Bool
  keysize : Nat
  kvind : Nat
  numkeys : Nat
  table : List RamItem
  deriving DecidableEq

/-- A store of each kind, with the calls made on its mutex so far; these take the place of the field
`locked`. -/
structure Stores where
  kv : Kv
  kvcalls : List Call
  ram : Ramkv
  ramcalls : List Call

/-- What `HASH_FIND` gives in the two tables. Nothing is assumed of it, as the keys of a table may
have been freed. -/
structure Hash where
  find : List Item → List UInt8 → Option Item
  findRam : List RamItem → List UInt8 → Option RamItem

/-- `kv777_lock` and `kv777_unlock`. -/
def kvCall (call : Call) (s : Stores) : Stores :=
  if s.kv.flags.threadsafe then { s with kvcalls := s.kvcalls ++ [call] } else s

/-- `ramkv777_lock` and `ramkv777_unlock`. -/
def ramCall (call : Call) (s : Stores) : Stores :=
  if s.ram.threadsafe then { s with ramcalls := s.ramcalls ++ [call] } else s

section
variable (hash : Hash)

def kv777Read (s : Stores) (key : List UInt8) : Option HddItem × Stores :=
  let s := kvCall .lock s
  let ptr := hash.find s.kv.table key
  let s := kvCall .unlock s
  (ptr.bind fun ptr => if isdeleted ptr.item then none else some ptr.item, s)

def kv777Write (s : Stores) (key value : List UInt8) : Stores :=
  let s := kvCall .lock s
  match hash.find s.kv.table key with
  | some ptr =>
    if value.length = ptr.item.valuesize then kvCall .unlock { s with kv := rewrite s.kv ptr value }
    else kvCall .unlock { s with kv := resize s.kv ptr key value }
  | none => kvCall .unlock { s with
      kv := add s.kv ⟨key, false, none, itemsize key.length value.length, hdditem key value⟩ }

def kv777Delete (s : Stores) (key : List UInt8) : Int × Stores :=
  let s := kvCall .lock s
  match hash.find s.kv.table key with
  | some ptr =>
    let kv := (counters { s.kv with table := hashDelete s.kv.table key } { ptr with item := setdeleted ptr.item }).1
    (0, kvCall .lock { s with kv := kv })
  | none => (-1, kvCall .lock s)

/-- A function given to an iterate, with what it does to the stores; its result tells if it is nonzero. -/
abbrev Iterator (α : Type) := Stores → α → Bool × Stores

/-- `kv777_iterate`, whose calls on the mutex are commented out. -/
def kv777Iterate (s : Stores) (allitems : Bool) (iterator : Iterator Item) : Bool × Stores :=
  walk (fun s ptr => if allitems || !isdeleted ptr.item then iterator s ptr else (false, s)) s s.kv.table

def ramkv777Read (s : Stores) (key : List UInt8) : Option (List UInt8) × Stores :=
  let s := ramCall .lock s
  let item := hash.findRam s.ram.table key
  let s := ramCall .unlock s
  (item.map RamItem.value, s)

/-- The table without an item. -/
def Ramkv.remove (kv : Ramkv) (item : RamItem) : Ramkv := { kv with table := kv.table.erase item }

/-- The end of `ramkv777_write`: a new item. -/
def Ramkv.insert (kv : Ramkv) (key value : List UInt8) : Ramkv :=
  { kv with
    table := kv.table ++ [⟨u16 value.length, u32 ((kv.numkeys * ACCTS777_MAXRAMKVS ||| kv.kvind : Nat)), key, value⟩]
    numkeys := kv.numkeys + 1 }

def ramkv777Write (s : Stores) (key value : List UInt8) : Stores :=
  let s := ramCall .lock s
  match hash.findRam s.ram.table key with
  | some item =>
    if value.length = item.valuesize then
      let table := if item.value ≠ value then s.ram.table.map fun x => if x = item then { item with value := value } else x
        else s.ram.table
      ramCall .unlock { s with ram.table := table }
    else ramCall .unlock { s with ram := (s.ram.remove item).insert key value }
  | none => ramCall .unlock { s with ram := s.ram.insert key value }

def ramkv777Delete (s : Stores) (key : List UInt8) : Int × Stores :=
  let s := ramCall .lock s
  match hash.findRam s.ram.table key with
  | some item => (0, ramCall .lock { s with ram := s.ram.remove item })
  | none => (-1, ramCall .lock s)

def ramkv777Iterate (s : Stores) (iterator : Iterator RamItem) : Bool × Stores :=
  let s := ramCall .lock s
  let found := walk iterator s s.ram.table
  if found.1 then (true, ramCall .unlock found.2) else (false, ramCall .unlock found.2)

inductive Op
  | kvRead (key : List UInt8)
  | kvWrite (key value : List UInt8)
  | kvDelete (key : List UInt8)
  | kvIterate (allitems : Bool) (iterator : Iterator Item)
  | ramRead (key : List UInt8)
  | ramWrite (key value : List UInt8)
  | ramDelete (key : List UInt8)
  | ramIterate (iterator : Iterator RamItem)

def step (s : Stores) : Op → Stores
  | .kvRead key => (kv777Read hash s key).2
  | .kvWrite key value => kv777Write hash s key value
  | .kvDelete key => (kv777Delete hash s key).2
  | .kvIterate allitems iterator => (kv777Iterate s allitems iterator).2
  | .ramRead key => (ramkv777Read hash s key).2
  | .ramWrite key value => ramkv777Write hash s key value
  | .ramDelete key => (ramkv777Delete hash s key).2
  | .ramIterate iterator => (ramkv777Iterate s iterator).2

end

/-- An operation that releases each mutex once for each time it acquires it, and leaves the stores
thread safe or not as they were. -/
structure Between (s t : Stores) : Prop where
  kv : Released s.kvcalls t.kvcalls
  ram : Released s.ramcalls t.ramcalls
  kvflag : t.kv.flags.threadsafe = s.kv.flags.threadsafe
  ramflag : t.ram.threadsafe = s.ram.threadsafe

/-- The operations that release what they acquire: no delete in a store with a mutex, and iterators that
release what they acquire and, where the mutex is held while they run, leave it alone. -/
def Orderly (s : Stores) : Op → Prop
  | .kvDelete _ => s.kv.flags.threadsafe = false
  | .kvIterate _ iterator => ∀ t ptr, Between s t → Between t (iterator t ptr).2
  | .ramDelete _ => s.ram.threadsafe = false
  | .ramIterate iterator => ∀ t item, t.ram.threadsafe = s.ram.threadsafe →
      Between t (iterator t item).2 ∧ (iterator t item).2.ramcalls = t.ramcalls
  | _ => True

/-- The stores that orderly operations lead to. -/
inductive OrderlyRun (hash : Hash) (start : Stores) : Stores → Prop
  | start : OrderlyRun hash start start
  | op {s : Stores} (op : Op) (h : OrderlyRun hash start s) (hop : Orderly s op) : OrderlyRun hash start (step hash s op)

private theorem counters_flags (kv : Kv) (ptr : Item) : (counters kv ptr).1.flags = kv.flags := by
  rw [counters]
  split
  · split <;> rfl
  · rfl

private theorem rewrite_flags (kv : Kv) (ptr : Item) (value : List UInt8) : (rewrite kv ptr value).flags = kv.flags := by
  rw [rewrite]
  split
  · dsimp only
    split <;> rfl
  · rfl

private theorem kvCall_kv (call : Call) (s : Stores) : (kvCall call s).kv = s.kv := by
  rw [kvCall]
  split <;> rfl

private theorem ramCall_ram (call : Call) (s : Stores) : (ramCall call s).ram = s.ram := by
  rw [ramCall]
  split <;> rfl

private theorem kvCall_twice (call : Call) (s : Stores) {kv : Kv} (hflag : kv.flags.threadsafe = s.kv.flags.threadsafe) :
    kvCall call { kvCall .lock s with kv := kv } = { s with
      kv := kv
      kvcalls := if s.kv.flags.threadsafe then s.kvcalls ++ [.lock] ++ [call] else s.kvcalls } := by
  cases hthread : s.kv.flags.threadsafe <;> simp [kvCall, hthread, hflag]

private theorem ramCall_twice (call : Call) (s : Stores) {kv : Ramkv} (hflag : kv.threadsafe = s.ram.threadsafe) :
    ramCall call { ramCall .lock s with ram := kv } = { s with
      ram := kv
      ramcalls := if s.ram.threadsafe then s.ramcalls ++ [.lock] ++ [call] else s.ramcalls } := by
  cases hthread : s.ram.threadsafe <;> simp [ramCall, hthread, hflag]

namespace Between
variable {s t u : Stores}

theorem refl (s : Stores) : Between s s := ⟨.refl _, .refl _, rfl, rfl⟩

theorem trans (h : Between s t) (h' : Between t u) : Between s u :=
  ⟨h.kv.trans h'.kv, h.ram.trans h'.ram, h'.kvflag.trans h.kvflag, h'.ramflag.trans h.ramflag⟩

/-- The mutex of a kv777 is locked, the store changes and the mutex is unlocked. -/
theorem kvBracket (s : Stores) {kv : Kv} (hflag : kv.flags.threadsafe = s.kv.flags.threadsafe) :
    Between s (kvCall .unlock { kvCall .lock s with kv := kv }) := by
  rw [kvCall_twice _ s hflag]
  refine ⟨?_, .refl _, hflag, rfl⟩
  dsimp only
  split
  · exact .pair _
  · exact .refl _

/-- The mutex of a ramkv777 is locked, what happens until it is unlocked leaves it alone. -/
theorem ramBracket (h : Between (ramCall .lock s) t) (hcalls : t.ramcalls = (ramCall .lock s).ramcalls) :
    Between s (ramCall .unlock t) := by
  obtain ⟨hkv, -, hkvflag, hramflag⟩ := h
  cases hthread : s.ram.threadsafe with
  | false =>
    simp only [ramCall, hthread, Bool.false_eq_true, if_false] at hkv hkvflag hramflag hcalls ⊢
    rw [if_neg (by rw [hramflag]; decide)]
    exact ⟨hkv, hcalls ▸ .refl _, hkvflag, hramflag.trans hthread.symm⟩
  | true =>
    simp only [ramCall, hthread, if_true] at hkv hkvflag hramflag hcalls ⊢
    rw [if_pos hramflag]
    refine ⟨hkv, ?_, hkvflag, hramflag.trans hthread.symm⟩
    dsimp only
    rw [hcalls]
    exact .pair _

end Between

private theorem ramStore_between (s : Stores) {kv : Ramkv} (hflag : kv.threadsafe = s.ram.threadsafe) :
    Between s (ramCall .unlock { ramCall .lock s with ram := kv }) := by
  refine .ramBracket ⟨.refl _, .refl _, rfl, ?_⟩ rfl
  rw [ramCall_ram]
  exact hflag

variable (hash : Hash) {s : Stores}

theorem kv777Read_between (key : List UInt8) : Between s (kv777Read hash s key).2 := by
  exact .kvBracket s (congrArg (fun kv => kv.flags.threadsafe) (kvCall_kv .lock s))

theorem kv777Write_between (key value : List UInt8) : Between s (kv777Write hash s key value) := by
  rw [kv777Write]
  split
  · split
    · refine .kvBracket s ?_
      rw [rewrite_flags, kvCall_kv]
    · refine .kvBracket s ?_
      rw [resize]
      dsimp only
      rw [counters_flags, kvCall_kv]
  · refine .kvBracket s ?_
    rw [add]
    dsimp only
    rw [counters_flags, kvCall_kv]

theorem kv777Iterate_between {allitems : Bool} {iterator : Iterator Item}
    (hiterator : Orderly s (.kvIterate allitems iterator)) : Between s (kv777Iterate s allitems iterator).2 := by
  refine walk_induct (motive := Between s) _ (.refl s) fun t ptr _ ht => ?_
  split
  · exact ht.trans (hiterator t ptr ht)
  · exact ht

theorem ramkv777Read_between (key : List UInt8) : Between s (ramkv777Read hash s key).2 :=
  ramStore_between s (congrArg Ramkv.threadsafe (ramCall_ram .lock s))

theorem ramkv777Write_between (key value : List UInt8) : Between s (ramkv777Write hash s key value) := by
  rw [ramkv777Write]
  dsimp only
  split
  · split
    · exact ramStore_between s (by rw [ramCall_ram])
    · exact ramStore_between s (by rw [ramCall_ram]; rfl)
  · exact ramStore_between s (by rw [ramCall_ram]; rfl)

theorem ramkv777Iterate_between {iterator : Iterator RamItem} (hiterator : Orderly s (.ramIterate iterator)) :
    Between s (ramkv777Iterate s iterator).2 := by
  have hwalk : Between (ramCall .lock s) (walk iterator (ramCall .lock s) (ramCall .lock s).ram.table).2 ∧
      (walk iterator (ramCall .lock s) (ramCall .lock s).ram.table).2.ramcalls = (ramCall .lock s).ramcalls := by
    refine walk_induct (motive := fun t => Between (ramCall .lock s) t ∧ t.ramcalls = (ramCall .lock s).ramcalls) _
      ⟨.refl _, rfl⟩ fun t item _ ht => ?_
    obtain ⟨hbetween, hcalls⟩ := hiterator t item (ht.1.ramflag.trans (by rw [ramCall_ram]))
    exact ⟨ht.1.trans hbetween, hcalls.trans ht.2⟩
  have hresult : (ramkv777Iterate s iterator).2 =
      ramCall .unlock (walk iterator (ramCall .lock s) (ramCall .lock s).ram.table).2 := by
    rw [ramkv777Iterate]
    split <;> rfl
  rw [hresult]
  exact .ramBracket hwalk.1 hwalk.2

/-- A delete in a kv777 changes the store and acquires its mutex twice. -/
theorem kv777Delete_eq (key : List UInt8) : ∃ kv : Kv, kv.flags.threadsafe = s.kv.flags.threadsafe ∧
    (kv777Delete hash s key).2 = { s with
      kv := kv
      kvcalls := if s.kv.flags.threadsafe then s.kvcalls ++ [.lock] ++ [.lock] else s.kvcalls } := by
  rw [kv777Delete]
  split
  · refine ⟨_, ?_, kvCall_twice .lock s ?_⟩ <;> rw [counters_flags] <;> dsimp only <;> rw [kvCall_kv]
  · exact ⟨_, congrArg (fun kv => kv.flags.threadsafe) (kvCall_kv .lock s),
      kvCall_twice .lock s (congrArg (fun kv => kv.flags.threadsafe) (kvCall_kv .lock s))⟩

theorem ramkv777Delete_eq (key : List UInt8) : ∃ kv : Ramkv, kv.threadsafe = s.ram.threadsafe ∧
    (ramkv777Delete hash s key).2 = { s with
      ram := kv
      ramcalls := if s.ram.threadsafe then s.ramcalls ++ [.lock] ++ [.lock] else s.ramcalls } := by
  rw [ramkv777Delete]
  have hflag := congrArg Ramkv.threadsafe (ramCall_ram .lock s)
  split
  · next item _ => exact ⟨(ramCall .lock s).ram.remove item, hflag, ramCall_twice .lock s hflag⟩
  · exact ⟨_, hflag, ramCall_twice .lock s hflag⟩

/-- A delete releases what it acquires only if there is no mutex. -/
theorem released_kv777Delete_iff (key : List UInt8) :
    Released s.kvcalls (kv777Delete hash s key).2.kvcalls ↔ s.kv.flags.threadsafe = false := by
  obtain ⟨kv, -, heq⟩ := kv777Delete_eq hash key (s := s)
  rw [heq]
  dsimp only
  cases s.kv.flags.threadsafe with
  | false => exact ⟨fun _ => rfl, fun _ => .refl _⟩
  | true => exact ⟨fun h => absurd h (Released.not_twice_locked _), fun h => absurd h (by decide)⟩

theorem released_ramkv777Delete_iff (key : List UInt8) :
    Released s.ramcalls (ramkv777Delete hash s key).2.ramcalls ↔ s.ram.threadsafe = false := by
  obtain ⟨kv, -, heq⟩ := ramkv777Delete_eq hash key (s := s)
  rw [heq]
  dsimp only
  cases s.ram.threadsafe with
  | false => exact ⟨fun _ => rfl, fun _ => .refl _⟩
  | true => exact ⟨fun h => absurd h (Released.not_twice_locked _), fun h => absurd h (by decide)⟩

theorem step_between {op : Op} (hop : Orderly s op) : Between s (step hash s op) := by
  cases op with
  | kvRead key => exact kv777Read_between hash key
  | kvWrite key value => exact kv777Write_between hash key value
  | kvDelete key =>
    have hreleased := (released_kv777Delete_iff hash key).mpr hop
    obtain ⟨kv, hflag, heq⟩ := kv777Delete_eq hash key (s := s)
    rw [step]
    refine ⟨hreleased, ?_, ?_, ?_⟩ <;> rw [heq]
    · exact .refl _
    · exact hflag
  | kvIterate => exact kv777Iterate_between hop
  | ramRead key => exact ramkv777Read_between hash key
  | ramWrite key value => exact ramkv777Write_between hash key value
  | ramDelete key =>
    have hreleased := (released_ramkv777Delete_iff hash key).mpr hop
    obtain ⟨kv, hflag, heq⟩ := ramkv777Delete_eq hash key (s := s)
    rw [step]
    refine ⟨?_, hreleased, ?_, ?_⟩ <;> rw [heq]
    · exact .refl _
    · exact hflag
  | ramIterate => exact ramkv777Iterate_between hop

theorem OrderlyRun.between {start : Stores} (hrun : OrderlyRun hash start s) : Between start s := by
  induction hrun with
  | start => exact .refl start
  | op _ _ hop ih => exact ih.trans (step_between hash hop)

/-- An operation releases each mutex once for each time it acquires it, and leaves both free. -/
structure Disciplined (s t : Stores) : Prop where
  kv : Released s.kvcalls t.kvcalls
  ram : Released s.ramcalls t.ramcalls
  kvfree : run false t.kvcalls = some false
  ramfree : run false t.ramcalls = some false

/-- In any run without deletes in thread safe stores every operation releases what it acquires. -/
theorem disciplined_of_orderlyRun {start : Stores} (hkv : start.kvcalls = []) (hram : start.ramcalls = [])
    (hrun : OrderlyRun hash start s) {op : Op} (hop : Orderly s op) : Disciplined s (step hash s op) := by
  have hstart := hrun.between hash
  have hstep := step_between hash hop
  have hend := hstart.trans hstep
  exact ⟨hstep.kv, hstep.ram, (hkv ▸ hend.kv).free, (hram ▸ hend.ram).free⟩

def newStores : Stores := ⟨⟨defaultflags, false, [], none⟩, [], ⟨true, 8, 0, 0, []⟩, []⟩

def plainHash : Hash where
  find table key := table.find? fun ptr => ptr.hhkey == key
  findRam table key := table.find? fun item => item.key == key

/-- Two writes, then a walk over all items that ends at the first one. -/
theorem walk_after_writes : newStores.kvcalls = [] ∧ newStores.ramcalls = [] ∧
    Disciplined (step plainHash (step plainHash newStores (.kvWrite [1] [2])) (.ramWrite [1] [2]))
      (step plainHash (step plainHash (step plainHash newStores (.kvWrite [1] [2])) (.ramWrite [1] [2]))
        (.ramIterate fun s _ => (true, s))) := by
  have hrun : OrderlyRun plainHash newStores
      (step plainHash (step plainHash newStores (.kvWrite [1] [2])) (.ramWrite [1] [2])) :=
    .op (.ramWrite [1] [2]) (.op (.kvWrite [1] [2]) .start trivial) trivial
  exact ⟨rfl, rfl, disciplined_of_orderlyRun plainHash rfl rfl hrun fun t _ _ => ⟨.refl t, rfl⟩⟩

/-- A delete in a new store waits for the mutex that it holds itself. -/
theorem delete_waits_for_itself :
    ¬ Disciplined newStores (step plainHash newStores (.kvDelete [1])) ∧
    run false (step plainHash newStores (.kvDelete [1])).kvcalls = none ∧
    ¬ Disciplined newStores (step plainHash newStores (.ramDelete [1])) ∧
    run false (step plainHash newStores (.ramDelete [1])).ramcalls = none := by
  have hkv : run false (step plainHash newStores (.kvDelete [1])).kvcalls = none := by decide
  have hram : run false (step plainHash newStores (.ramDelete [1])).ramcalls = none := by decide
  refine ⟨fun h => ?_, hkv, fun h => ?_, hram⟩
  · exact absurd (hkv.symm.trans h.kvfree) (by decide)
  · exact absurd (hram.symm.trans h.ramfree) (by decide)

end SuperNet.KV.KvLocks
