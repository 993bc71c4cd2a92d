import SuperNet.Lib.Bytes
import SuperNet.Lib.RecordLog
import SuperNet.Lib.Words
import SuperNet.Utils.Bits777

/-! The key-value store of kv777.c, without `writebehind` and `mmap`, which `kv777_defaultflags`
leaves off. A result `none` is a call that hangs on its own mutex or reads freed memory. -/
namespace SuperNet.KV.Kv777
open Lib.Words Lib.Bytes Lib.RecordLog Utils.Bits777

/-- A `FILE` opened for update. Reads and writes succeed. -/
structure File where
  bytes : List UInt8
  pos : Nat
  deriving DecidableEq

def File.fseek (fp : File) (pos : Nat) : File := { fp with pos := pos }

def File.fread (fp : File) (n : Nat) : List UInt8 × File :=
  let bs := (fp.bytes.drop fp.pos).take n
  (bs, { fp with pos := fp.pos + bs.length })

def File.fwrite (fp : File) (bs : List UInt8) : File := ⟨overwrite fp.bytes fp.pos bs, fp.pos + bs.length⟩

def MAXKEYSIZE : Nat := 65536
def MAXVALUESIZE : Nat := 2^30

/-- `struct kv777_hdditem`: `value` is all that follows the three words, the key included. -/
structure HddItem where
  crc : Nat
  valuesize : Nat
  keysize : Nat
  value : List UInt8
  deriving DecidableEq

/-- The item behind its `crc`, which is what the checksum covers. -/
def HddItem.tail (item : HddItem) : List UInt8 := leBytes 4 item.valuesize ++ leBytes 4 item.keysize ++ item.value

def HddItem.bytes (item : HddItem) : List UInt8 := leBytes 4 item.crc ++ item.tail

def HddItem.checked (item : HddItem) : HddItem := { item with crc := crc32 0 item.tail }

def isdeleted (item : HddItem) : Bool := item.valuesize.testBit 31

def setdeleted (item : HddItem) : HddItem := { item with valuesize := item.valuesize ||| 2^31 }

/-- A size rounded up to the next multiple of `1 << KV777_ALIGNBITS`. -/
def align (size : Nat) : Nat := if size % 4 ≠ 0 then size + (4 - size % 4) else size

def itemsize (keysize valuesize : Nat) : Nat := u32 (12 + align (valuesize % 2^31) + align keysize : Nat)

/-- The `keysize` bytes at `kv777_itemkey`. -/
def HddItem.itemkey (item : HddItem) : List UInt8 := (item.value.drop (align item.valuesize)).take item.keysize

def HddItem.itemvalue (item : HddItem) : List UInt8 := item.value.take item.valuesize

/-- A block of `align data.length` cleared bytes that holds `data`. -/
def padded (data : List UInt8) : List UInt8 := data ++ List.replicate (align data.length - data.length) 0

def hdditem (key value : List UInt8) : HddItem :=
  HddItem.checked ⟨0, value.length, key.length, padded value ++ padded key⟩

/-- `struct kv777_item`. `hhkey` is the key the hash table has filed the item under. It is read
through a pointer into `item`; `hhfreed` tells that this memory has been freed since. An `offset`
below zero is `none`. -/
structure Item where
  hhkey : List UInt8
  hhfreed : Bool
  offset : Option Nat
  itemsize : Nat
  item : HddItem
  deriving DecidableEq

structure Flags where
  rw : Bool
  hdd : Bool
  threadsafe : Bool
  deriving DecidableEq

def defaultflags : Flags := ⟨true, true, true⟩

structure Kv where
  flags : Flags
  locked : Bool
  table : List Item
  fp : Option File
  deriving DecidableEq

/-- `kv777_lock`; the mutex is not recursive. -/
def lock (kv : Kv) : Option Kv :=
  if kv.flags.threadsafe then if kv.locked then none else some { kv with locked := true } else some kv

def unlock (kv : Kv) : Kv := if kv.flags.threadsafe then { kv with locked := false } else kv

/-- `HASH_FIND`. The search looks at the keys of the same length in one bucket; which items share
a bucket is left open here. -/
def hashFind (table : List Item) (key : List UInt8) : Option (Option Item) :=
  if table.any fun ptr => ptr.hhfreed && ptr.hhkey.length == key.length then none
  else some (table.find? fun ptr => ptr.hhkey == key)

def hashDelete (table : List Item) (key : List UInt8) : List Item := table.filter fun ptr => ptr.hhkey != key

/-- The table after the item filed under its key has changed. -/
def store (table : List Item) (ptr : Item) : List Item := table.map fun x => if x.hhkey = ptr.hhkey then ptr else x

/-- `kv777_load` at `kv->offset`: the item with its size, the file, and the offset behind it. -/
def load (fp : File) (offset : Nat) : Option (HddItem × Nat) × File × Nat :=
  let (crc, fp) := (fp.fseek offset).fread 4
  if crc.length = 4 ∧ leValue crc ≠ 0 then
    let (valuesize, fp) := fp.fread 4
    if valuesize.length ≠ 4 then (none, fp, offset)
    else
      let (keysize, fp) := fp.fread 4
      if keysize.length ≠ 4 ∨ MAXKEYSIZE < leValue keysize ∨ MAXVALUESIZE < leValue valuesize then (none, fp, offset)
      else
        let size := itemsize (leValue keysize) (leValue valuesize)
        let (value, fp) := fp.fread (size - 12)
        let item := HddItem.checked ⟨0, leValue valuesize, leValue keysize, value⟩
        if value.length ≠ size - 12 ∨ leValue crc ≠ item.crc then (none, fp, offset)
        else (some (item, size), fp, fp.pos)
  else (none, fp, fp.pos)

/-- `kv777_update`. Of an item that is marked as deleted nothing reaches the file: the mark is
tested again before it is written, and it is always found set. -/
def update (fp : File) (ptr : Item) : File × Item × Int :=
  let savepos := fp.pos
  if isdeleted ptr.item then
    let (_, fp) := (fp.fseek (ptr.offset.getD 0 + 4)).fread 4
    (fp.fseek savepos, ptr, -1)
  else
    match ptr.offset with
    | none => (fp.fwrite (ptr.item.bytes.take ptr.itemsize), { ptr with offset := some savepos }, 0)
    | some offset => (((fp.fseek offset).fwrite (ptr.item.bytes.take ptr.itemsize)).fseek savepos, ptr, 0)

/-- `kv777_counters` with an item; the counts themselves are not kept. -/
def counters (kv : Kv) (ptr : Item) : Kv × Item :=
  match kv.fp with
  | some fp =>
    if kv.flags.hdd && kv.flags.rw then
      let (fp, ptr, _) := update fp ptr
      ({ kv with fp := some fp }, ptr)
    else (kv, ptr)
  | none => (kv, ptr)

/-- `kv777_add` of a new item, which is put on disk. -/
def add (kv : Kv) (ptr : Item) : Kv :=
  let (kv, ptr) := counters kv ptr
  { kv with table := kv.table ++ [ptr] }

/-- The branch of `kv777_write` for a value of the size that is there. -/
def rewrite (kv : Kv) (ptr : Item) (value : List UInt8) : Kv :=
  if ptr.item.itemvalue ≠ value then
    let ptr := { ptr with item := HddItem.checked { ptr.item with value := value ++ ptr.item.value.drop value.length } }
    match kv.fp with
    | some fp =>
      let (fp, ptr, _) := update fp ptr
      { kv with fp := some fp, table := store kv.table ptr }
    | none => { kv with table := store kv.table ptr }
  else kv

/-- The branch of `kv777_write` for a value of another size. The old item is freed, and the hash
table's key with it. A record that has not become longer keeps its place. -/
def resize (kv : Kv) (ptr : Item) (key value : List UInt8) : Kv :=
  let size := itemsize key.length value.length
  let offset := if size > ptr.itemsize then none else ptr.offset
  let (kv, ptr) := counters kv { ptr with offset := offset, itemsize := size, item := hdditem key value, hhfreed := true }
  { kv with table := store kv.table ptr }

def write (kv : Kv) (key value : List UInt8) : Option Kv := do
  let kv ← lock kv
  match ← hashFind kv.table key with
  | some ptr =>
    if value.length = ptr.item.valuesize then some (unlock (rewrite kv ptr value))
    else some (unlock (resize kv ptr key value))
  | none => some (unlock (add kv ⟨key, false, none, itemsize key.length value.length, hdditem key value⟩))

/-- `kv777_delete`. It ends with `kv777_lock` where `kv777_unlock` belongs. -/
def delete (kv : Kv) (key : List UInt8) : Option (Kv × Int) := do
  let kv ← lock kv
  match ← hashFind kv.table key with
  | some ptr =>
    let kv := { kv with table := hashDelete kv.table key }
    let (kv, _) := counters kv { ptr with item := setdeleted ptr.item }
    let kv ← lock kv
    some (kv, 0)
  | none =>
    let kv ← lock kv
    some (kv, -1)

def read (kv : Kv) (key : List UInt8) : Option (Option HddItem) := do
  let kv ← lock kv
  match ← hashFind kv.table key with
  | some ptr => some (if isdeleted ptr.item then none else some ptr.item)
  | none => some none

/-- One item in the loop of `kv777_init`. -/
def register (kv : Kv) (item : HddItem) (size offset : Nat) : Option Kv :=
  if isdeleted item then some kv
  else do
    let kv ← match ← read kv item.itemkey with
      | some _ => (delete kv item.itemkey).map Prod.fst
      | none => some kv
    some { kv with table := kv.table ++ [⟨item.itemkey, false, some offset, size, item⟩] }

/-- The loop of `kv777_init`, with a bound on its rounds: the store and the offset of the first
item that could not be loaded. -/
def loads : Nat → Kv → File → Nat → Option (Kv × File × Nat)
  | 0, kv, fp, offset => some (kv, fp, offset)
  | n+1, kv, fp, offset =>
    match load fp offset with
    | (some (item, size), fp, next) => do
      let kv ← register { kv with fp := some fp } item size offset
      loads n kv (kv.fp.getD fp) next
    | (none, fp, _) => some (kv, fp, offset)

/-- `kv777_init` on a file. An item takes 12 bytes at least, so one round for each byte is enough. -/
def init (flags : Flags) (file : List UInt8) : Option Kv :=
  if flags.hdd then do
    let (kv, fp, offset) ← loads (file.length + 1) ⟨{ flags with threadsafe := false }, false, [], none⟩ ⟨file, 0⟩ 0
    some { kv with flags := flags, fp := some (fp.fseek offset) }
  else some ⟨flags, false, [], none⟩

/-- What the table holds under a key. -/
def lookup (table : List Item) (key : List UInt8) : Option (List UInt8) :=
  (table.find? fun ptr => ptr.hhkey == key).map fun ptr => ptr.item.itemvalue

/-- The map in memory. -/
def Kv.map (kv : Kv) (key : List UInt8) : Option (List UInt8) := lookup kv.table key

end SuperNet.KV.Kv777
