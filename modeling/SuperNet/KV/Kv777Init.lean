import SuperNet.KV.Kv777

/-! Files made of whole records, and what `kv777_init` makes of them. -/
namespace SuperNet.KV.Kv777
open Lib.Words Lib.Bytes Lib.RecordLog Utils.Bits777

abbrev Rec := List UInt8 × List UInt8

def Rec.item (r : Rec) : HddItem := hdditem r.1 r.2

def Rec.bytes (r : Rec) : List UInt8 := r.item.bytes

/-- The records that `kv777_load` takes. -/
structure Rec.Loadable (r : Rec) : Prop where
  keysize : r.1.length ≤ MAXKEYSIZE
  valuesize : r.2.length ≤ MAXVALUESIZE
  crc : r.item.crc ≠ 0

/-- The file is made of records that load, up to its end. -/
def Parses (file : List UInt8) : Prop := ∃ rs : List Rec, (∀ r ∈ rs, r.Loadable) ∧ file = image Rec.bytes rs

theorem le_align (n : Nat) : n ≤ align n := by
  rw [align]
  split <;> omega

@[simp] theorem padded_length (data : List UInt8) : (padded data).length = align data.length := by
  have h := le_align data.length
  rw [padded, List.length_append, List.length_replicate]
  omega

theorem item_itemkey (r : Rec) : r.item.itemkey = r.1 := by
  change ((padded r.2 ++ padded r.1).drop (align r.2.length)).take r.1.length = r.1
  rw [List.drop_left' (padded_length _), padded, List.take_left]

theorem item_itemvalue (r : Rec) : r.item.itemvalue = r.2 := by
  change (padded r.2 ++ padded r.1).take r.2.length = r.2
  rw [padded, List.append_assoc, List.take_left]

theorem bytes_length (r : Rec) : r.bytes.length = 12 + align r.2.length + align r.1.length := by
  change (leBytes 4 _ ++ (leBytes 4 _ ++ leBytes 4 _ ++ (padded r.2 ++ padded r.1))).length = _
  simp only [List.length_append, leBytes_length, padded_length]
  omega

theorem align_le (n : Nat) : align n ≤ n + 3 := by
  rw [align]
  split <;> omega

theorem itemsize_rec {r : Rec} (hk : r.1.length ≤ MAXKEYSIZE) (hv : r.2.length ≤ MAXVALUESIZE) :
    itemsize r.1.length r.2.length = r.bytes.length := by
  have hka := align_le r.1.length
  have hva := align_le r.2.length
  rw [MAXKEYSIZE] at hk
  rw [MAXVALUESIZE] at hv
  rw [itemsize, bytes_length, Nat.mod_eq_of_lt (by omega)]
  exact unsigned_of_lt (by omega)

theorem not_isdeleted {r : Rec} (hv : r.2.length ≤ MAXVALUESIZE) : isdeleted r.item = false := by
  apply Nat.testBit_lt_two_pow
  change r.2.length < 2^31
  rw [MAXVALUESIZE] at hv
  omega

@[simp] theorem fread_fst (fp : File) (n : Nat) : (fp.fread n).1 = (fp.bytes.drop fp.pos).take n := rfl

/-- Reading what comes next in a file. -/
theorem fread_of_drop (fp : File) {bs rest : List UInt8} (h : fp.bytes.drop fp.pos = bs ++ rest) {n : Nat} (hn : bs.length = n) :
    fp.fread n = (bs, ⟨fp.bytes, fp.pos + n⟩) ∧ fp.bytes.drop (fp.pos + n) = rest := by
  subst hn
  refine ⟨?_, ?_⟩
  · rw [File.fread, h, List.take_left]
  · rw [← List.drop_drop, h, List.drop_left]

theorem load_record {fp : File} {offset : Nat} {r : Rec} {rest : List UInt8} (hr : r.Loadable)
    (h : fp.bytes.drop offset = r.bytes ++ rest) :
    load fp offset = (some (r.item, r.bytes.length), ⟨fp.bytes, offset + r.bytes.length⟩, offset + r.bytes.length) := by
  have hk := hr.keysize
  have hv := hr.valuesize
  have hsize := itemsize_rec hk hv
  have hlen := bytes_length r
  have hcrc : r.item.crc < 256^4 := crc32_lt 0 _ (by decide)
  have hkey : r.1.length < 256^4 := by rw [MAXKEYSIZE] at hk; omega
  have hval : r.2.length < 256^4 := by rw [MAXVALUESIZE] at hv; omega
  have hbytes : r.bytes = leBytes 4 r.item.crc ++ (leBytes 4 r.2.length ++ (leBytes 4 r.1.length ++
      (padded r.2 ++ padded r.1))) := by
    change leBytes 4 _ ++ (leBytes 4 _ ++ leBytes 4 _ ++ (padded r.2 ++ padded r.1)) = _
    simp only [List.append_assoc]
    rfl
  rw [hbytes, List.append_assoc, List.append_assoc, List.append_assoc] at h
  obtain ⟨h₁, hd₁⟩ := fread_of_drop (fp.fseek offset) h (leBytes_length 4 _)
  obtain ⟨h₂, hd₂⟩ := fread_of_drop ⟨fp.bytes, offset + 4⟩ hd₁ (leBytes_length 4 _)
  obtain ⟨h₃, hd₃⟩ := fread_of_drop ⟨fp.bytes, offset + 4 + 4⟩ hd₂ (leBytes_length 4 _)
  have hbody : (padded r.2 ++ padded r.1).length = itemsize r.1.length r.2.length - 12 := by
    rw [hsize, hlen, List.length_append, padded_length, padded_length]
    omega
  obtain ⟨h₄, -⟩ := fread_of_drop ⟨fp.bytes, offset + 4 + 4 + 4⟩ hd₃ hbody
  have hend : offset + 4 + 4 + 4 + (itemsize r.1.length r.2.length - 12) = offset + r.bytes.length := by
    rw [hsize]
    omega
  have hitem : HddItem.checked ⟨0, r.2.length, r.1.length, padded r.2 ++ padded r.1⟩ = r.item := rfl
  simp only [File.fseek] at h₁ h₂ h₃ h₄
  rw [load]
  simp only [File.fseek, h₁, h₂, h₃, leBytes_length, leValue_leBytes_of_lt hcrc, leValue_leBytes_of_lt hkey,
    leValue_leBytes_of_lt hval, h₄, hitem]
  rw [if_pos ⟨trivial, hr.crc⟩, if_neg (by simp), if_neg (by omega), if_neg (by simp [hbody]), hend, hsize]

theorem load_end {fp : File} {offset : Nat} (h : offset = fp.bytes.length) :
    load fp offset = (none, ⟨fp.bytes, offset⟩, offset) := by
  have hnil : fp.bytes.drop offset = [] := List.drop_eq_nil_of_le h.ge
  simp [load, File.fseek, File.fread, hnil]

/-- The table files every record it holds under its key, and that record is the newest of the key. -/
structure Filed (table : List Item) (rs : List Rec) : Prop where
  keys : table.Pairwise fun a b => a.hhkey ≠ b.hhkey
  entry : ∀ ptr ∈ table, ∃ i value, Newest Prod.fst rs i (ptr.hhkey, value) ∧
    ptr.item = Rec.item (ptr.hhkey, value) ∧ ptr.offset = some (place Rec.bytes rs i) ∧
    ptr.itemsize = (Rec.bytes (ptr.hhkey, value)).length

/-- The newest value of each key in the records. -/
def newest (rs : List Rec) (key : List UInt8) : Option (List UInt8) := (latest Prod.fst rs key).map Prod.snd

theorem newest_append (rs : List Rec) (key value k : List UInt8) :
    newest (rs ++ [(key, value)]) k = if key = k then some value else newest rs k := by
  rw [newest, latest_append]
  by_cases h : key = k
  · rw [if_pos h, if_pos h]
    rfl
  · rw [if_neg h, if_neg h]
    rfl

section Tables

variable {table : List Item} {rs rs' : List Rec} {ptr : Item} {key value : List UInt8} {i : Nat}

theorem find_some (h : (table.find? fun ptr => ptr.hhkey == key) = some ptr) : ptr ∈ table ∧ ptr.hhkey = key :=
  ⟨List.mem_of_find?_eq_some h, by simpa using List.find?_some h⟩

theorem find_none (h : (table.find? fun ptr => ptr.hhkey == key) = none) : ∀ ptr ∈ table, ptr.hhkey ≠ key := by
  intro ptr hptr
  simpa using List.find?_eq_none.mp h ptr hptr

theorem hashDelete_of_find_none (h : (table.find? fun ptr => ptr.hhkey == key) = none) : hashDelete table key = table := by
  refine List.filter_eq_self.mpr fun ptr hptr => ?_
  simpa using find_none h ptr hptr

private theorem hhkey_store (ptr x : Item) : (if x.hhkey = ptr.hhkey then ptr else x).hhkey = x.hhkey := by
  split
  case isTrue heq => exact heq.symm
  case isFalse => rfl

private theorem Filed.others (h : Filed table rs) (hk : Keeps Prod.fst Rec.bytes rs rs' key) (hptr : ptr ∈ table)
    (hne : ptr.hhkey ≠ key) : ∃ i value, Newest Prod.fst rs' i (ptr.hhkey, value) ∧
      ptr.item = Rec.item (ptr.hhkey, value) ∧ ptr.offset = some (place Rec.bytes rs' i) ∧
      ptr.itemsize = (Rec.bytes (ptr.hhkey, value)).length := by
  obtain ⟨i, value, hnew, hitem, hoffset, hsize⟩ := h.entry ptr hptr
  obtain ⟨hnew', hplace⟩ := hk i _ hnew hne
  exact ⟨i, value, hnew', hitem, by rw [hoffset, hplace], hsize⟩

theorem Filed.add (h : Filed table rs) (hk : Keeps Prod.fst Rec.bytes rs rs' ptr.hhkey)
    (hnone : ∀ x ∈ table, x.hhkey ≠ ptr.hhkey) (hnew : Newest Prod.fst rs' i (ptr.hhkey, value))
    (hitem : ptr.item = Rec.item (ptr.hhkey, value)) (hoffset : ptr.offset = some (place Rec.bytes rs' i))
    (hsize : ptr.itemsize = (Rec.bytes (ptr.hhkey, value)).length) : Filed (table ++ [ptr]) rs' := by
  refine ⟨?_, ?_⟩
  · rw [List.pairwise_append]
    refine ⟨h.keys, List.pairwise_singleton _ _, ?_⟩
    intro a ha b hb
    rw [List.mem_singleton.mp hb]
    exact hnone a ha
  · intro x hx
    rcases List.mem_append.mp hx with hx | hx
    · exact h.others hk hx (hnone x hx)
    · obtain rfl := List.mem_singleton.mp hx
      exact ⟨i, value, hnew, hitem, hoffset, hsize⟩

theorem Filed.store (h : Filed table rs) (hk : Keeps Prod.fst Rec.bytes rs rs' ptr.hhkey)
    (hnew : Newest Prod.fst rs' i (ptr.hhkey, value)) (hitem : ptr.item = Rec.item (ptr.hhkey, value))
    (hoffset : ptr.offset = some (place Rec.bytes rs' i)) (hsize : ptr.itemsize = (Rec.bytes (ptr.hhkey, value)).length) :
    Filed (store table ptr) rs' := by
  refine ⟨?_, ?_⟩
  · rw [Kv777.store, List.pairwise_map]
    simpa only [hhkey_store] using h.keys
  · intro x hx
    obtain ⟨y, hy, rfl⟩ := List.mem_map.mp hx
    by_cases heq : y.hhkey = ptr.hhkey
    · rw [if_pos heq]
      exact ⟨i, value, hnew, hitem, hoffset, hsize⟩
    · rw [if_neg heq]
      exact h.others hk hy heq

theorem Filed.hashDelete (h : Filed table rs) (key : List UInt8) : Filed (hashDelete table key) rs := by
  refine ⟨h.keys.filter _, ?_⟩
  intro ptr hptr
  exact h.entry ptr (List.mem_filter.mp hptr).1

theorem lookup_append (hnone : ∀ x ∈ table, x.hhkey ≠ ptr.hhkey) (key : List UInt8) :
    lookup (table ++ [ptr]) key = if ptr.hhkey = key then some ptr.item.itemvalue else lookup table key := by
  rw [lookup, lookup, List.find?_append]
  by_cases h : ptr.hhkey = key
  · have hfind : (table.find? fun ptr => ptr.hhkey == key) = none := by
      rw [List.find?_eq_none]
      intro x hx
      simpa [h] using hnone x hx
    simp [h, hfind]
  · simp [h]

theorem lookup_store (h : ∃ x ∈ table, x.hhkey = ptr.hhkey) (key : List UInt8) :
    lookup (store table ptr) key = if ptr.hhkey = key then some ptr.item.itemvalue else lookup table key := by
  rw [lookup, lookup, Kv777.store, List.find?_map]
  simp only [Function.comp_def, hhkey_store, Option.map_map]
  by_cases hk : ptr.hhkey = key
  · rw [if_pos hk]
    obtain ⟨x, hx, hxk⟩ := h
    cases hfind : table.find? (fun ptr => ptr.hhkey == key) with
    | none => exact absurd (hxk.trans hk) (find_none hfind x hx)
    | some y => simp [(find_some hfind).2, hk]
  · rw [if_neg hk]
    cases hfind : table.find? (fun ptr => ptr.hhkey == key) with
    | none => rfl
    | some y =>
      have hy : y.hhkey ≠ ptr.hhkey := fun heq => hk (heq.symm.trans (find_some hfind).2)
      simp [hy]

theorem lookup_hashDelete (table : List Item) (key k : List UInt8) :
    lookup (hashDelete table key) k = if key = k then none else lookup table k := by
  rw [lookup, lookup, Kv777.hashDelete, List.find?_filter]
  by_cases h : key = k
  · subst h
    simp
  · rw [if_neg h]
    congr 2
    funext ptr
    by_cases hp : ptr.hhkey = k
    · simp [hp, Ne.symm h]
    · simp [hp]

theorem Filed.lookup_newest (h : Filed table rs) (hv : lookup table key = some value) : newest rs key = some value := by
  rw [lookup, Option.map_eq_some_iff] at hv
  obtain ⟨ptr, hfind, rfl⟩ := hv
  obtain ⟨hmem, rfl⟩ := find_some hfind
  obtain ⟨i, value, hnew, hitem, -, -⟩ := h.entry ptr hmem
  have hlatest : latest Prod.fst rs ptr.hhkey = some (ptr.hhkey, value) := hnew.latest
  rw [newest, hlatest, hitem, item_itemvalue]
  rfl

end Tables

theorem setdeleted_isdeleted (item : HddItem) : isdeleted (setdeleted item) = true := by
  rw [isdeleted, setdeleted, Nat.testBit_or, Nat.testBit_two_pow_self, Bool.or_true]

theorem update_deleted {ptr : Item} (h : isdeleted ptr.item = true) (fp : File) : update fp ptr = (fp, ptr, -1) := by
  rw [update, if_pos h]
  rfl

theorem counters_deleted (ptr : Item) (h : isdeleted ptr.item = true) (kv : Kv) : counters kv ptr = (kv, ptr) := by
  obtain ⟨flags, locked, table, fp⟩ := kv
  cases fp with
  | none => rfl
  | some fp =>
    rw [counters]
    simp only [update_deleted h]
    split <;> rfl

/-- Whether the search for `key` meets no freed key. -/
def Alive (table : List Item) (key : List UInt8) : Prop :=
  ∀ ptr ∈ table, ptr.hhfreed = true → ptr.hhkey.length ≠ key.length

theorem hashFind_eq {table : List Item} {key : List UInt8} (h : Alive table key) :
    hashFind table key = some (table.find? fun ptr => ptr.hhkey == key) := by
  rw [hashFind, if_neg]
  intro hany
  obtain ⟨ptr, hptr, hfreed⟩ := List.any_eq_true.mp hany
  rw [Bool.and_eq_true, beq_iff_eq] at hfreed
  exact h ptr hptr hfreed.1 hfreed.2

/-- Without a mutex, `kv777_delete` takes the key out of the table and does nothing else. -/
theorem delete_eq {kv : Kv} {key : List UInt8} (hts : kv.flags.threadsafe = false) (h : Alive kv.table key) :
    ∃ retval, delete kv key = some ({ kv with table := hashDelete kv.table key }, retval) := by
  have hlock (kv : Kv) (hts : kv.flags.threadsafe = false) : lock kv = some kv := by
    rw [lock, hts]
    rfl
  rw [delete, hlock kv hts]
  simp only [Option.bind_eq_bind, Option.bind_some, hashFind_eq h]
  cases hfind : kv.table.find? fun ptr => ptr.hhkey == key with
  | some ptr =>
    refine ⟨0, ?_⟩
    simp only [counters_deleted { ptr with item := setdeleted ptr.item } (setdeleted_isdeleted ptr.item)]
    rw [hlock { kv with table := hashDelete kv.table key } hts]
    rfl
  | none =>
    refine ⟨-1, ?_⟩
    rw [hlock kv hts, hashDelete_of_find_none hfind]
    rfl

/-- One record of the file, registered in front of the rest. -/
theorem register_record (kv : Kv) {rs : List Rec} {r : Rec} (hts : kv.flags.threadsafe = false)
    (hfiled : Filed kv.table rs) (hrs : ∀ r ∈ rs, r.Loadable) (hfresh : ∀ ptr ∈ kv.table, ptr.hhfreed = false)
    (hmap : ∀ k, lookup kv.table k = newest rs k) (hr : r.Loadable) :
    ∃ table, register kv r.item r.bytes.length (image Rec.bytes rs).length = some { kv with table := table } ∧
      Filed table (rs ++ [r]) ∧ (∀ ptr ∈ table, ptr.hhfreed = false) ∧ ∀ k, lookup table k = newest (rs ++ [r]) k := by
  obtain ⟨key, value⟩ := r
  have halive : Alive kv.table key := fun ptr hptr hfreed => absurd hfreed (by rw [hfresh ptr hptr]; simp)
  have hread : read kv key = some ((kv.table.find? fun ptr => ptr.hhkey == key).map Item.item) := by
    rw [read, lock, hts]
    simp only [Bool.false_eq_true, if_false, Option.bind_eq_bind, Option.bind_some, hashFind_eq halive]
    cases hfind : kv.table.find? fun ptr => ptr.hhkey == key with
    | none => rfl
    | some ptr =>
      obtain ⟨i, old, hnew, hitem, -, -⟩ := hfiled.entry ptr (find_some hfind).1
      have hlive : isdeleted ptr.item = false := by
        rw [hitem]
        exact not_isdeleted (hrs _ (List.mem_of_getElem? hnew.here)).valuesize
      simp [hlive]
  have hother : ∀ ptr ∈ hashDelete kv.table key, ptr.hhkey ≠ key := by
    intro ptr hptr
    simpa using (List.mem_filter.mp hptr).2
  have htable : ∃ table, register kv (Rec.item (key, value)) (Rec.bytes (key, value)).length (image Rec.bytes rs).length =
      some { kv with table := table } ∧ table = hashDelete kv.table key ++
        [⟨key, false, some (image Rec.bytes rs).length, (Rec.bytes (key, value)).length, Rec.item (key, value)⟩] := by
    refine ⟨_, ?_, rfl⟩
    rw [register, not_isdeleted hr.valuesize]
    simp only [Bool.false_eq_true, if_false, Option.bind_eq_bind, item_itemkey, hread, Option.bind_some]
    obtain ⟨retval, hdel⟩ := delete_eq hts halive
    cases hfind : kv.table.find? fun ptr => ptr.hhkey == key with
    | some ptr =>
      simp only [Option.map_some, hdel, Option.bind_some]
    | none =>
      rw [hashDelete_of_find_none hfind]
      rfl
  obtain ⟨table, hreg, rfl⟩ := htable
  refine ⟨_, hreg, ?_, ?_, ?_⟩
  · exact (hfiled.hashDelete key).add (keeps_append (key, value)) hother (Lib.RecordLog.newest_append Prod.fst rs (key, value))
      rfl (by rw [place_append _ le_rfl, place_length]) rfl
  · intro ptr hptr
    rcases List.mem_append.mp hptr with hptr | hptr
    · exact hfresh ptr (List.mem_filter.mp hptr).1
    · rw [List.mem_singleton.mp hptr]
  · intro k
    rw [lookup_append hother, newest_append, lookup_hashDelete, hmap, item_itemvalue]
    by_cases hk : key = k
    · rw [if_pos hk, if_pos hk]
    · rw [if_neg hk, if_neg hk, if_neg hk]

/-- The loop of `kv777_init` over the records that are left. -/
theorem loads_records (n : Nat) (kv : Kv) (fp : File) (rs more : List Rec) (hn : more.length < n)
    (hts : kv.flags.threadsafe = false) (hfiled : Filed kv.table rs) (hfresh : ∀ ptr ∈ kv.table, ptr.hhfreed = false)
    (hmap : ∀ k, lookup kv.table k = newest rs k) (hall : ∀ r ∈ rs ++ more, r.Loadable)
    (hfp : fp.bytes = image Rec.bytes (rs ++ more)) :
    ∃ kv' fp', loads n kv fp (image Rec.bytes rs).length = some (kv', fp', fp.bytes.length) ∧ fp'.bytes = fp.bytes ∧
      kv'.locked = kv.locked ∧ Filed kv'.table (rs ++ more) ∧ (∀ ptr ∈ kv'.table, ptr.hhfreed = false) ∧
      ∀ k, lookup kv'.table k = newest (rs ++ more) k := by
  induction more generalizing n kv fp rs with
  | nil =>
    obtain ⟨n, rfl⟩ := Nat.exists_eq_succ_of_ne_zero (by omega : n ≠ 0)
    rw [List.append_nil] at hfp ⊢
    refine ⟨kv, ⟨fp.bytes, fp.bytes.length⟩, ?_, rfl, rfl, hfiled, hfresh, hmap⟩
    rw [loads, ← hfp, load_end rfl]
  | cons r more ih =>
    obtain ⟨n, rfl⟩ := Nat.exists_eq_succ_of_ne_zero (by omega : n ≠ 0)
    rw [List.length_cons] at hn
    have hr : r.Loadable := hall r (List.mem_append_right _ List.mem_cons_self)
    have hrs : ∀ r ∈ rs, r.Loadable := fun r hr => hall r (List.mem_append_left _ hr)
    have hdrop : fp.bytes.drop (image Rec.bytes rs).length = r.bytes ++ image Rec.bytes more := by
      rw [hfp, image_append, List.drop_left, ← List.singleton_append, image_append, image_singleton]
    have hnext : (image Rec.bytes rs).length + r.bytes.length = (image Rec.bytes (rs ++ [r])).length := by
      rw [image_append, image_singleton, List.length_append]
    have hsplit : rs ++ r :: more = rs ++ [r] ++ more := by rw [List.append_assoc, List.singleton_append]
    obtain ⟨table, hreg, hfiled', hfresh', hmap'⟩ := register_record
      { kv with fp := some ⟨fp.bytes, (image Rec.bytes (rs ++ [r])).length⟩ } hts hfiled hrs hfresh hmap hr
    rw [hsplit] at hall hfp
    obtain ⟨kv', fp', hloads, hbytes, hlocked, hrest⟩ := ih
      n { kv with table := table, fp := some ⟨fp.bytes, (image Rec.bytes (rs ++ [r])).length⟩ }
      ⟨fp.bytes, (image Rec.bytes (rs ++ [r])).length⟩ (rs ++ [r]) (by omega) hts hfiled' hfresh' hmap' hall hfp
    refine ⟨kv', fp', ?_, hbytes, hlocked, ?_⟩
    · rw [loads, load_record hr hdrop, hnext]
      simp only [hreg, Option.bind_eq_bind, Option.bind_some, Option.getD_some]
      exact hloads
    · rwa [hsplit]

/-- `kv777_init` on a file of whole records gives each key its newest value. -/
theorem init_image {flags : Flags} {rs : List Rec} (hhdd : flags.hdd = true) (hall : ∀ r ∈ rs, r.Loadable) :
    ∃ kv, init flags (image Rec.bytes rs) = some kv ∧ kv.flags = flags ∧ kv.locked = false ∧
      kv.fp = some ⟨image Rec.bytes rs, (image Rec.bytes rs).length⟩ ∧ Filed kv.table rs ∧
      (∀ ptr ∈ kv.table, ptr.hhfreed = false) ∧ ∀ k, kv.map k = newest rs k := by
  have hcount : rs.length < (image Rec.bytes rs).length + 1 := by
    have hle : rs.length ≤ (image Rec.bytes rs).length := by
      induction rs with
      | nil => exact Nat.zero_le _
      | cons r rs ih =>
        have hih := ih fun r hr => hall r (List.mem_cons_of_mem _ hr)
        have hlen := bytes_length r
        rw [← List.singleton_append, image_append, image_singleton, List.length_append, List.length_append,
          List.length_singleton]
        omega
    omega
  obtain ⟨kv', fp', hloads, hbytes, hlocked, hfiled, hfresh, hmap⟩ := loads_records
    ((image Rec.bytes rs).length + 1) ⟨{ flags with threadsafe := false }, false, [], none⟩ ⟨image Rec.bytes rs, 0⟩ [] rs
    hcount rfl ⟨List.Pairwise.nil, by simp⟩ (by simp) (fun _ => rfl) hall rfl
  refine ⟨{ kv' with flags := flags, fp := some (fp'.fseek (image Rec.bytes rs).length) }, ?_, rfl, hlocked, ?_, hfiled,
    hfresh, hmap⟩
  · have hstart : (image Rec.bytes ([] : List Rec)).length = 0 := rfl
    rw [hstart] at hloads
    rw [init, if_pos hhdd, hloads]
    rfl
  · rw [File.fseek, hbytes]

end SuperNet.KV.Kv777
