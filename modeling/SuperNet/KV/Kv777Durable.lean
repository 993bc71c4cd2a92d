import SuperNet.KV.Kv777Init

/-! Whole runs of `kv777_write` and `kv777_delete`, and what `kv777_init` finds after them. -/
namespace SuperNet.KV.Kv777
open Lib.Words Lib.Bytes Lib.RecordLog Utils.Bits777

/-- The file of the store is made of the records `rs`, and its table points to the newest ones. -/
structure Kv.Holds (kv : Kv) (rs : List Rec) : Prop where
  rw : kv.flags.rw = true
  hdd : kv.flags.hdd = true
  file : kv.fp = some ⟨image Rec.bytes rs, (image Rec.bytes rs).length⟩
  loadable : ∀ r ∈ rs, r.Loadable
  filed : Filed kv.table rs

section Updates

variable {rs : List Rec} {r old : Rec} {ptr : Item} {i : Nat}

theorem update_append (hr : r.Loadable) (hitem : ptr.item = r.item) (hsize : ptr.itemsize = r.bytes.length)
    (hoffset : ptr.offset = none) :
    update ⟨image Rec.bytes rs, (image Rec.bytes rs).length⟩ ptr =
      (⟨image Rec.bytes (rs ++ [r]), (image Rec.bytes (rs ++ [r])).length⟩,
        { ptr with offset := some (image Rec.bytes rs).length }, 0) := by
  rw [update, hitem, not_isdeleted hr.valuesize, hoffset, hsize]
  simp only [Bool.false_eq_true, if_false, File.fwrite]
  change (File.mk (overwrite _ _ (r.bytes.take r.bytes.length)) _, _, _) = _
  rw [List.take_length, overwrite_end, image_append, image_singleton, List.length_append]
  change (File.mk _ (_ + (r.bytes.take r.bytes.length).length), _, _) = _
  rw [List.take_length]

theorem update_set (hr : r.Loadable) (hitem : ptr.item = r.item) (hsize : ptr.itemsize = r.bytes.length)
    (hoffset : ptr.offset = some (place Rec.bytes rs i)) (hold : rs[i]? = some old)
    (hlen : r.bytes.length = old.bytes.length) :
    update ⟨image Rec.bytes rs, (image Rec.bytes rs).length⟩ ptr =
      (⟨image Rec.bytes (rs.set i r), (image Rec.bytes (rs.set i r)).length⟩, ptr, 0) := by
  rw [update, hitem, not_isdeleted hr.valuesize, hoffset, hsize]
  simp only [Bool.false_eq_true, if_false, File.fwrite, File.fseek]
  change (File.mk (overwrite _ _ (r.bytes.take r.bytes.length)) _, _, _) = _
  rw [List.take_length, overwrite_place hold hlen, image_length_set hold hlen]

theorem counters_eq {kv : Kv} {fp : File} (hhdd : kv.flags.hdd = true) (hrw : kv.flags.rw = true) (hfp : kv.fp = some fp)
    (ptr : Item) : counters kv ptr = ({ kv with fp := some (update fp ptr).1 }, (update fp ptr).2.1) := by
  rw [counters, hfp]
  simp [hhdd, hrw]

theorem mem_set_loadable (hrs : ∀ r ∈ rs, r.Loadable) (hr : r.Loadable) : ∀ x ∈ rs.set i r, x.Loadable := by
  intro x hx
  rcases List.mem_or_eq_of_mem_set hx with hx | rfl
  · exact hrs x hx
  · exact hr

theorem mem_append_loadable (hrs : ∀ r ∈ rs, r.Loadable) (hr : r.Loadable) : ∀ x ∈ rs ++ [r], x.Loadable := by
  intro x hx
  rcases List.mem_append.mp hx with hx | hx
  · exact hrs x hx
  · rwa [List.mem_singleton.mp hx]

end Updates

/-- What a successful write does: the new value of the key is in memory and is the newest record. -/
structure Wrote (kv kv' : Kv) (rs rs' : List Rec) (key value : List UInt8) : Prop where
  flags : kv'.flags = kv.flags
  locked : kv'.locked = kv.locked
  holds : kv'.Holds rs'
  map : ∀ k, kv'.map k = if key = k then some value else kv.map k
  newest : ∀ k, newest rs' k = if key = k then some value else newest rs k

theorem newest_set {rs : List Rec} {i : Nat} {key old : List UInt8} (h : Newest Prod.fst rs i (key, old))
    (value k : List UInt8) : newest (rs.set i (key, value)) k = if key = k then some value else newest rs k := by
  rw [newest, h.latest_set (s := (key, value)) rfl]
  by_cases hk : key = k
  · rw [if_pos hk, if_pos hk]
    rfl
  · rw [if_neg hk, if_neg hk]
    rfl

section Writes

variable {kv : Kv} {rs : List Rec} {key value : List UInt8} {ptr : Item}

theorem add_wrote (h : kv.Holds rs) (hr : Rec.Loadable (key, value)) (hnone : ∀ x ∈ kv.table, x.hhkey ≠ key) :
    Wrote kv (add kv ⟨key, false, none, itemsize key.length value.length, hdditem key value⟩) rs (rs ++ [(key, value)])
      key value := by
  have hsize := itemsize_rec hr.keysize hr.valuesize
  rw [add, counters_eq h.hdd h.rw h.file, update_append hr rfl hsize rfl]
  refine ⟨rfl, rfl, ⟨h.rw, h.hdd, rfl, mem_append_loadable h.loadable hr, ?_⟩, ?_, newest_append rs key value⟩
  · exact h.filed.add (keeps_append (key, value)) hnone (Lib.RecordLog.newest_append Prod.fst rs (key, value)) rfl
      (by rw [place_append _ le_rfl, place_length]) hsize
  · intro k
    rw [Kv.map, lookup_append hnone]
    change (if key = k then some (Rec.item (key, value)).itemvalue else _) = _
    rw [item_itemvalue]
    rfl

private theorem map_store (hptr : ∃ x ∈ kv.table, x.hhkey = ptr.hhkey) (hkey : ptr.hhkey = key)
    (hitem : ptr.item = Rec.item (key, value)) (k : List UInt8) :
    lookup (store kv.table ptr) k = if key = k then some value else kv.map k := by
  rw [lookup_store hptr, hitem, hkey, item_itemvalue]
  rfl

theorem rewrite_wrote (h : kv.Holds rs) (hr : Rec.Loadable (key, value)) (hptr : ptr ∈ kv.table) (hkey : ptr.hhkey = key)
    (hfind : (kv.table.find? fun ptr => ptr.hhkey == key) = some ptr) (hsize : value.length = ptr.item.valuesize) :
    ∃ rs', Wrote kv (rewrite kv ptr value) rs rs' key value := by
  subst hkey
  obtain ⟨i, old, hnew, hitem, hoffset, hsizes⟩ := h.filed.entry ptr hptr
  have hlen : value.length = old.length := by
    rw [hsize, hitem]
    rfl
  rw [rewrite]
  split
  · have hnewitem : HddItem.checked { ptr.item with value := value ++ ptr.item.value.drop value.length } =
        Rec.item (ptr.hhkey, value) := by
      have hvalue : value ++ (padded old ++ padded ptr.hhkey).drop value.length = padded value ++ padded ptr.hhkey := by
        have hold : padded value = value ++ List.replicate (align old.length - old.length) 0 := by rw [padded, hlen]
        rw [hold, hlen, padded, List.append_assoc, List.drop_left, List.append_assoc]
      rw [hitem]
      change HddItem.checked ⟨_, old.length, _, value ++ (padded old ++ padded ptr.hhkey).drop value.length⟩ = _
      rw [hvalue, ← hlen]
      rfl
    have hbytes : (Rec.bytes (ptr.hhkey, value)).length = (Rec.bytes (ptr.hhkey, old)).length := by
      rw [bytes_length, bytes_length, hlen]
    refine ⟨rs.set i (ptr.hhkey, value), ?_⟩
    rw [hnewitem, h.file]
    simp only [@update_set _ _ _ { ptr with item := Rec.item (ptr.hhkey, value) } _ hr rfl (hsizes.trans hbytes.symm)
      hoffset hnew.here hbytes]
    refine ⟨rfl, rfl, ⟨h.rw, h.hdd, rfl, mem_set_loadable h.loadable hr, ?_⟩, ?_, ?_⟩
    · exact h.filed.store (hnew.keeps_set rfl hbytes) (hnew.set rfl) rfl (by rw [place_set hnew.here hbytes, hoffset])
        (hsizes.trans hbytes.symm)
    · exact map_store ⟨ptr, hptr, rfl⟩ rfl rfl
    · exact newest_set hnew value
  · next hsame =>
    have hold : old = value := by
      rw [hitem, item_itemvalue] at hsame
      exact not_not.mp hsame
    subst hold
    have hmap : kv.map ptr.hhkey = some old := by
      rw [Kv.map, lookup, hfind, Option.map_some, hitem, item_itemvalue]
    have hnewest := h.filed.lookup_newest hmap
    refine ⟨rs, rfl, rfl, h, ?_, ?_⟩
    · intro k
      split
      · next hk => rw [← hk, hmap]
      · rfl
    · intro k
      split
      · next hk => rw [← hk, hnewest]
      · rfl

theorem resize_wrote (h : kv.Holds rs) (hr : Rec.Loadable (key, value)) (hptr : ptr ∈ kv.table) (hkey : ptr.hhkey = key)
    (hsize : ptr.itemsize ≤ itemsize key.length value.length) :
    ∃ rs', Wrote kv (resize kv ptr key value) rs rs' key value := by
  subst hkey
  obtain ⟨i, old, hnew, hitem, hoffset, hsizes⟩ := h.filed.entry ptr hptr
  have hbytes := itemsize_rec hr.keysize hr.valuesize
  by_cases hgrows : itemsize ptr.hhkey.length value.length > ptr.itemsize
  · refine ⟨rs ++ [(ptr.hhkey, value)], ?_⟩
    rw [resize, if_pos hgrows, counters_eq h.hdd h.rw h.file, update_append hr rfl hbytes rfl]
    refine ⟨rfl, rfl, ⟨h.rw, h.hdd, rfl, mem_append_loadable h.loadable hr, ?_⟩, ?_, newest_append rs ptr.hhkey value⟩
    · exact h.filed.store (keeps_append (ptr.hhkey, value))
        (Lib.RecordLog.newest_append Prod.fst rs (ptr.hhkey, value)) rfl (by rw [place_append _ le_rfl, place_length]) hbytes
    · exact map_store ⟨ptr, hptr, rfl⟩ rfl rfl
  · have hsame : (Rec.bytes (ptr.hhkey, value)).length = (Rec.bytes (ptr.hhkey, old)).length := by
      rw [← hsizes, ← hbytes]
      exact le_antisymm (not_lt.mp hgrows) hsize
    refine ⟨rs.set i (ptr.hhkey, value), ?_⟩
    rw [resize, if_neg hgrows, counters_eq h.hdd h.rw h.file,
      @update_set _ _ _ ⟨ptr.hhkey, true, ptr.offset, itemsize ptr.hhkey.length value.length, hdditem ptr.hhkey value⟩ _ hr rfl hbytes hoffset hnew.here hsame]
    refine ⟨rfl, rfl, ⟨h.rw, h.hdd, rfl, mem_set_loadable h.loadable hr, ?_⟩, ?_, ?_⟩
    · exact h.filed.store (hnew.keeps_set rfl hsame) (hnew.set rfl) rfl (by rw [place_set hnew.here hsame, hoffset]) hbytes
    · exact map_store ⟨ptr, hptr, rfl⟩ rfl rfl
    · exact newest_set hnew value

end Writes

/-- When `kv777_write` does its work: the record is one that loads, it is not shorter than the one
it replaces, and the search for the key meets no freed memory. -/
structure WriteOk (kv : Kv) (key value : List UInt8) : Prop where
  loadable : Rec.Loadable (key, value)
  size : ∀ ptr ∈ kv.table, ptr.hhkey = key → ptr.itemsize ≤ itemsize key.length value.length
  alive : Alive kv.table key

theorem lock_eq {kv : Kv} (h : kv.locked = false) : lock kv = some { kv with locked := kv.flags.threadsafe } := by
  obtain ⟨flags, locked, table, fp⟩ := kv
  change locked = false at h
  subst h
  rw [lock]
  cases flags.threadsafe <;> rfl

theorem unlock_eq {kv : Kv} (h : kv.locked = kv.flags.threadsafe) : unlock kv = { kv with locked := false } := by
  obtain ⟨flags, locked, table, fp⟩ := kv
  change locked = flags.threadsafe at h
  rw [unlock, h]
  cases flags.threadsafe <;> rfl

private theorem Wrote.unlock {kv kv' : Kv} {rs rs' : List Rec} {key value : List UInt8} (hfree : kv.locked = false)
    (h : Wrote { kv with locked := kv.flags.threadsafe } kv' rs rs' key value) :
    Wrote kv (unlock kv') rs rs' key value := by
  have hlocked : kv'.locked = kv'.flags.threadsafe := by rw [h.locked, h.flags]
  rw [unlock_eq hlocked]
  exact ⟨h.flags, hfree.symm, ⟨h.holds.rw, h.holds.hdd, h.holds.file, h.holds.loadable, h.holds.filed⟩, h.map, h.newest⟩

theorem write_wrote {kv : Kv} {rs : List Rec} {key value : List UInt8} (h : kv.Holds rs) (hfree : kv.locked = false)
    (hok : WriteOk kv key value) : ∃ kv' rs', write kv key value = some kv' ∧ Wrote kv kv' rs rs' key value := by
  have hheld : Kv.Holds { kv with locked := kv.flags.threadsafe } rs := ⟨h.rw, h.hdd, h.file, h.loadable, h.filed⟩
  rw [write, lock_eq hfree]
  simp only [Option.bind_eq_bind, Option.bind_some, hashFind_eq hok.alive]
  cases hfind : kv.table.find? fun ptr => ptr.hhkey == key with
  | none =>
    exact ⟨_, _, rfl, (add_wrote hheld hok.loadable (find_none hfind)).unlock hfree⟩
  | some ptr =>
    obtain ⟨hptr, hkey⟩ := find_some hfind
    by_cases hsize : value.length = ptr.item.valuesize
    · obtain ⟨rs', hw⟩ := rewrite_wrote hheld hok.loadable hptr hkey hfind hsize
      exact ⟨_, rs', if_pos hsize, hw.unlock hfree⟩
    · obtain ⟨rs', hw⟩ := resize_wrote hheld hok.loadable hptr hkey (hok.size ptr hptr hkey)
      exact ⟨_, rs', if_neg hsize, hw.unlock hfree⟩

inductive Op where
  | write (key value : List UInt8)
  | delete (key : List UInt8)
  deriving DecidableEq

def step (kv : Kv) : Op → Option Kv
  | .write key value => write kv key value
  | .delete key => (delete kv key).map Prod.fst

def run (kv : Kv) : List Op → Option Kv
  | [] => some kv
  | op :: ops => do run (← step kv op) ops

/-- A store with a mutex hangs in `kv777_delete`. -/
def StepOk (kv : Kv) : Op → Prop
  | .write key value => WriteOk kv key value
  | .delete key => kv.flags.threadsafe = false ∧ Alive kv.table key

/-- Every step of the run meets its condition. -/
def RunOk : Kv → List Op → Prop
  | _, [] => True
  | kv, op :: ops => StepOk kv op ∧ ∀ kv' ∈ step kv op, RunOk kv' ops

instance (table : List Item) (key : List UInt8) : Decidable (Alive table key) :=
  inferInstanceAs (Decidable (∀ ptr ∈ table, _))

instance (kv : Kv) (key value : List UInt8) : Decidable (WriteOk kv key value) :=
  decidable_of_iff ((key.length ≤ MAXKEYSIZE ∧ value.length ≤ MAXVALUESIZE ∧ (hdditem key value).crc ≠ 0) ∧
    (∀ ptr ∈ kv.table, ptr.hhkey = key → ptr.itemsize ≤ itemsize key.length value.length) ∧ Alive kv.table key)
    ⟨fun h => ⟨⟨h.1.1, h.1.2.1, h.1.2.2⟩, h.2.1, h.2.2⟩,
      fun h => ⟨⟨h.loadable.keysize, h.loadable.valuesize, h.loadable.crc⟩, h.size, h.alive⟩⟩

instance (kv : Kv) : (op : Op) → Decidable (StepOk kv op)
  | .write key value => inferInstanceAs (Decidable (WriteOk kv key value))
  | .delete _ => inferInstanceAs (Decidable (_ ∧ _))

instance decidableRunOk : (kv : Kv) → (ops : List Op) → Decidable (RunOk kv ops)
  | _, [] => inferInstanceAs (Decidable True)
  | kv, op :: ops =>
    have (kv' : Kv) : Decidable (RunOk kv' ops) := decidableRunOk kv' ops
    inferInstanceAs (Decidable (StepOk kv op ∧ ∀ kv' ∈ step kv op, RunOk kv' ops))

/-- The map that the operations ask for. -/
def applied (m : List UInt8 → Option (List UInt8)) : List Op → List UInt8 → Option (List UInt8)
  | [], k => m k
  | .write key value :: ops, k => applied (fun k => if key = k then some value else m k) ops k
  | .delete key :: ops, k => applied (fun k => if key = k then none else m k) ops k

/-- The last value written for each key, deleted or not. -/
def written (m : List UInt8 → Option (List UInt8)) : List Op → List UInt8 → Option (List UInt8)
  | [], k => m k
  | .write key value :: ops, k => written (fun k => if key = k then some value else m k) ops k
  | .delete _ :: ops, k => written m ops k

/-- A run goes through: the map in memory is the one asked for, the file has every last value written. -/
theorem run_holds {kv : Kv} {rs : List Rec} {ops : List Op} (h : kv.Holds rs) (hfree : kv.locked = false)
    (hok : RunOk kv ops) : ∃ kv' rs', run kv ops = some kv' ∧ kv'.Holds rs' ∧ kv'.flags = kv.flags ∧
      (∀ k, kv'.map k = applied kv.map ops k) ∧ ∀ k, newest rs' k = written (newest rs) ops k := by
  induction ops generalizing kv rs with
  | nil => exact ⟨kv, rs, rfl, h, rfl, fun _ => rfl, fun _ => rfl⟩
  | cons op ops ih =>
    obtain ⟨hstep, hrest⟩ := hok
    cases op with
    | write key value =>
      obtain ⟨kv₁, rs₁, hwrite, hw⟩ := write_wrote h hfree hstep
      obtain ⟨kv', rs', hrun, hholds, hflags, hmap, hnewest⟩ := ih hw.holds (hw.locked.trans hfree) (hrest kv₁ hwrite)
      refine ⟨kv', rs', ?_, hholds, hflags.trans hw.flags, ?_, ?_⟩
      · rw [run, step, hwrite]
        exact hrun
      · intro k
        rw [hmap, funext hw.map]
        rfl
      · intro k
        rw [hnewest, funext hw.newest]
        rfl
    | delete key =>
      obtain ⟨retval, hdelete⟩ := delete_eq hstep.1 hstep.2
      have hone : step kv (.delete key) = some { kv with table := hashDelete kv.table key } := by
        rw [step, hdelete]
        rfl
      have hholds₁ : Kv.Holds { kv with table := hashDelete kv.table key } rs :=
        ⟨h.rw, h.hdd, h.file, h.loadable, h.filed.hashDelete key⟩
      obtain ⟨kv', rs', hrun, hholds, hflags, hmap, hnewest⟩ := ih hholds₁ hfree (hrest _ hone)
      refine ⟨kv', rs', ?_, hholds, hflags, ?_, hnewest⟩
      · rw [run, hone]
        exact hrun
      · intro k
        rw [hmap]
        have hdel : Kv.map { kv with table := hashDelete kv.table key } = fun k => if key = k then none else kv.map k :=
          funext (lookup_hashDelete kv.table key)
        rw [hdel]
        rfl

theorem applied_append (m : List UInt8 → Option (List UInt8)) (ops : List Op) (op : Op) (k : List UInt8) :
    applied m (ops ++ [op]) k = applied (applied m ops) [op] k := by
  induction ops generalizing m with
  | nil => rfl
  | cons first ops ih => cases first <;> exact ih _

theorem written_append (m : List UInt8 → Option (List UInt8)) (ops : List Op) (op : Op) (k : List UInt8) :
    written m (ops ++ [op]) k = written (written m ops) [op] k := by
  induction ops generalizing m with
  | nil => rfl
  | cons first ops ih => cases first <;> exact ih _

/-- Where a written key is deleted, it is written again later. -/
def Rewritten (m : List UInt8 → Option (List UInt8)) (ops : List Op) (key : List UInt8) : Prop :=
  ∀ pre post, ops = pre ++ .delete key :: post → applied m pre key ≠ none → ∃ value, .write key value ∈ post

/-- What is in the map asked for has been written. -/
theorem written_of_applied {m : List UInt8 → Option (List UInt8)} {pre : List Op} (post : List Op) {k : List UInt8}
    (h : applied m pre k ≠ none) : written m (pre ++ post) k ≠ none := by
  have hpre : written m pre k ≠ none := by
    induction pre using List.reverseRecOn with
    | nil => exact h
    | append_singleton ops op ih =>
      rw [applied_append] at h
      rw [written_append]
      cases op with
      | write key value =>
        change (if key = k then some value else applied m ops k) ≠ none at h
        change (if key = k then some value else written m ops k) ≠ none
        split
        · simp
        · next hk => exact ih (by rwa [if_neg hk] at h)
      | delete key =>
        change (if key = k then none else applied m ops k) ≠ none at h
        exact ih fun hnone => h (by rw [hnone]; split <;> rfl)
  induction post using List.reverseRecOn with
  | nil => rwa [List.append_nil]
  | append_singleton ops op ih =>
    rw [← List.append_assoc, written_append]
    cases op with
    | write key value =>
      change (if key = k then some value else written m (pre ++ ops) k) ≠ none
      split
      · simp
      · exact ih
    | delete key => exact ih

private theorem append_eq_cut {ops pre post : List Op} {op d : Op} (h : ops ++ [op] = pre ++ d :: post) :
    (post = [] ∧ ops = pre ∧ op = d) ∨ ∃ front, post = front ++ [op] ∧ ops = pre ++ d :: front := by
  rcases List.eq_nil_or_concat post with rfl | ⟨front, last, rfl⟩
  · obtain ⟨hops, hop⟩ := List.append_inj' h rfl
    exact .inl ⟨rfl, hops, List.singleton_inj.mp hop⟩
  · rw [List.concat_eq_append, ← List.cons_append, ← List.append_assoc] at h
    obtain ⟨hops, hop⟩ := List.append_inj' h rfl
    refine .inr ⟨front, ?_, hops⟩
    rw [List.concat_eq_append, hop]

private theorem rewritten_append {m : List UInt8 → Option (List UInt8)} {ops : List Op} {op : Op} {k : List UInt8}
    (hdel : op ≠ .delete k) (hwrite : ∀ value, op ≠ .write k value) : Rewritten m (ops ++ [op]) k ↔ Rewritten m ops k := by
  constructor
  · intro h pre post hops hne
    obtain ⟨value, hv⟩ := h pre (post ++ [op]) (by rw [hops, List.append_assoc, List.cons_append]) hne
    rcases List.mem_append.mp hv with hv | hv
    · exact ⟨value, hv⟩
    · exact absurd (List.mem_singleton.mp hv).symm (hwrite value)
  · intro h pre post hops hne
    obtain ⟨-, -, hop⟩ | ⟨front, rfl, hfront⟩ := append_eq_cut hops
    · exact absurd hop hdel
    · obtain ⟨value, hv⟩ := h pre front hfront hne
      exact ⟨value, List.mem_append_left _ hv⟩

/-- The last values written are those asked for exactly when no written key stays deleted. -/
theorem written_eq_applied_iff (m : List UInt8 → Option (List UInt8)) (ops : List Op) (k : List UInt8) :
    written m ops k = applied m ops k ↔ Rewritten m ops k := by
  induction ops using List.reverseRecOn with
  | nil =>
    refine iff_of_true rfl ?_
    intro pre post hops
    simp at hops
  | append_singleton ops op ih =>
    rw [written_append, applied_append]
    cases op with
    | write key value =>
      change (if key = k then some value else written m ops k) = (if key = k then some value else applied m ops k) ↔ _
      by_cases hk : key = k
      · subst hk
        rw [if_pos rfl, if_pos rfl]
        refine iff_of_true rfl ?_
        intro pre post hops _
        obtain ⟨-, -, hop⟩ | ⟨front, rfl, -⟩ := append_eq_cut hops
        · exact absurd hop (by simp)
        · exact ⟨value, List.mem_append_right _ List.mem_cons_self⟩
      · rw [if_neg hk, if_neg hk, ih]
        exact (rewritten_append (by simp) (fun v => by simp [hk])).symm
    | delete key =>
      change written m ops k = (if key = k then none else applied m ops k) ↔ _
      by_cases hk : key = k
      · subst hk
        rw [if_pos rfl]
        constructor
        · intro hnone pre post hops hne
          obtain ⟨-, rfl, -⟩ | ⟨front, -, hfront⟩ := append_eq_cut hops
          · have hw := written_of_applied [] hne
            rw [List.append_nil] at hw
            exact absurd hnone hw
          · have hw := written_of_applied (.delete key :: front) hne
            rw [← hfront] at hw
            exact absurd hnone hw
        · intro h
          have hops : Rewritten m ops key := by
            intro pre post hops hne
            obtain ⟨value, hv⟩ := h pre (post ++ [.delete key]) (by rw [hops, List.append_assoc, List.cons_append]) hne
            exact ⟨value, by simpa using hv⟩
          rw [ih.mpr hops]
          by_contra hne
          obtain ⟨value, hv⟩ := h ops [] rfl hne
          exact absurd hv (by simp)
      · rw [if_neg hk, ih]
        exact (rewritten_append (by simp [hk]) (by simp)).symm

/-- A store that `kv777_init` has opened on a file of whole records. -/
theorem init_holds {flags : Flags} {file : List UInt8} {kv : Kv} (hrw : flags.rw = true) (hhdd : flags.hdd = true)
    (hfile : Parses file) (h : init flags file = some kv) :
    ∃ rs, kv.Holds rs ∧ kv.locked = false ∧ kv.flags = flags ∧ ∀ k, newest rs k = kv.map k := by
  obtain ⟨rs, hrs, rfl⟩ := hfile
  obtain ⟨kv', hinit, hflags, hlocked, hfp, hfiled, -, hmap⟩ := init_image hhdd hrs
  obtain rfl := Option.some.inj (h.symm.trans hinit)
  exact ⟨rs, ⟨by rw [hflags, hrw], by rw [hflags, hhdd], hfp, hrs, hfiled⟩, hlocked, hflags, fun k => (hmap k).symm⟩

private theorem init_run {flags : Flags} {file : List UInt8} {kv : Kv} {ops : List Op} (hrw : flags.rw = true)
    (hhdd : flags.hdd = true) (hfile : Parses file) (hopen : init flags file = some kv) (hok : RunOk kv ops) :
    ∃ kv' fp reopened, run kv ops = some kv' ∧ kv'.fp = some fp ∧ Parses fp.bytes ∧ init flags fp.bytes = some reopened ∧
      (∀ k, kv'.map k = applied kv.map ops k) ∧ ∀ k, reopened.map k = written kv.map ops k := by
  obtain ⟨rs, hholds, hlocked, hflags, hnewest⟩ := init_holds hrw hhdd hfile hopen
  obtain ⟨kv', rs', hrun, hholds', hflags', hmap, hnewest'⟩ := run_holds hholds hlocked hok
  obtain ⟨reopened, hinit, -, -, -, -, -, hmap'⟩ := init_image hhdd hholds'.loadable
  refine ⟨kv', _, reopened, hrun, hholds'.file, ⟨rs', hholds'.loadable, rfl⟩, hinit, hmap, ?_⟩
  intro k
  rw [hmap', hnewest', funext hnewest]

/-- A run of writes alone. -/
def writes (ws : List Rec) : List Op := ws.map fun w => .write w.1 w.2

theorem applied_writes (m : List UInt8 → Option (List UInt8)) (ws : List Rec) (k : List UInt8) :
    applied m (writes ws) k = written m (writes ws) k := by
  induction ws generalizing m with
  | nil => rfl
  | cons w ws ih => exact ih _

theorem written_writes (m : List UInt8 → Option (List UInt8)) (ws : List Rec) (k : List UInt8) :
    written m (writes ws) k = (newest ws k).or (m k) := by
  induction ws using List.reverseRecOn with
  | nil => rfl
  | append_singleton ws w ih =>
    rw [writes, List.map_append, List.map_singleton, written_append, newest_append]
    change (if w.1 = k then some w.2 else written m (writes ws) k) = _
    split
    · rfl
    · exact ih

/-- In every run of writes whose steps meet `WriteOk`, the store that is opened on the file afterwards
holds what the map in memory held: for each key the last value written. -/
theorem init_after_writes {flags : Flags} {file : List UInt8} {kv : Kv} {ws : List Rec} (hrw : flags.rw = true)
    (hhdd : flags.hdd = true) (hfile : Parses file) (hopen : init flags file = some kv) (hok : RunOk kv (writes ws)) :
    ∃ kv' fp reopened, run kv (writes ws) = some kv' ∧ kv'.fp = some fp ∧ init flags fp.bytes = some reopened ∧
      (∀ k, reopened.map k = kv'.map k) ∧ (∀ k, kv'.map k = (newest ws k).or (kv.map k)) ∧ Parses fp.bytes := by
  obtain ⟨kv', fp, reopened, hrun, hfp, hparses, hinit, hmap, hmap'⟩ := init_run hrw hhdd hfile hopen hok
  refine ⟨kv', fp, reopened, hrun, hfp, hinit, ?_, ?_, hparses⟩
  · intro k
    rw [hmap', hmap, applied_writes]
  · intro k
    rw [hmap, applied_writes, written_writes]

private theorem parses_nil : Parses [] := ⟨[], by simp, rfl⟩

/-- A new file, and a key that is written twice, the second time with a longer value. -/
theorem init_after_writes_grown : ∃ kv kv' fp reopened, init defaultflags [] = some kv ∧
    run kv (writes [([97], [1, 2, 3, 4]), ([98, 98], [5]), ([97, 97, 97], []), ([97], [1, 2, 3, 4, 5])]) = some kv' ∧
    kv'.fp = some fp ∧ init defaultflags fp.bytes = some reopened ∧ ∀ k, reopened.map k = kv'.map k := by
  obtain ⟨kv, hopen⟩ := Option.isSome_iff_exists.mp (show (init defaultflags []).isSome = true by decide +kernel)
  have hok : RunOk kv (writes [([97], [1, 2, 3, 4]), ([98, 98], [5]), ([97, 97, 97], []), ([97], [1, 2, 3, 4, 5])]) := by
    have hkv : kv = ⟨defaultflags, false, [], some ⟨[], 0⟩⟩ :=
      Option.some.inj (hopen.symm.trans (by decide +kernel))
    rw [hkv]
    decide +kernel
  obtain ⟨kv', fp, reopened, hrun, hfp, hinit, hmap, -⟩ := init_after_writes rfl rfl parses_nil hopen hok
  exact ⟨kv, kv', fp, reopened, hopen, hrun, hfp, hinit, hmap⟩

/-- A value that becomes shorter leaves the end of its old record behind, where the loader takes it for
the next one: the key written after it is lost. -/
theorem shorter_value_loses_key : ¬ ∀ (ws : List Rec) (kv kv' : Kv) (fp : File) (reopened : Kv),
    init defaultflags [] = some kv → run kv (writes ws) = some kv' → kv'.fp = some fp →
    init defaultflags fp.bytes = some reopened → ∀ k, reopened.map k = kv'.map k := by
  intro hall
  have hlost : ((init defaultflags []).bind fun kv =>
      (run kv (writes [([97], [1, 2, 3, 4, 5, 6, 7, 8]), ([97], [1, 2, 3, 4]), ([98, 98], [9])])).bind fun kv' =>
        kv'.fp.bind fun fp => (init defaultflags fp.bytes).map fun reopened =>
          (reopened.map [98, 98], kv'.map [98, 98])) = some (none, some [9]) := by decide +kernel
  simp only [Option.bind_eq_some_iff, Option.map_eq_some_iff, Prod.mk.injEq] at hlost
  obtain ⟨kv, hopen, kv', hrun, fp, hfp, reopened, hinit, hgone, hhere⟩ := hlost
  have hmap := hall _ kv kv' fp reopened hopen hrun hfp hinit [98, 98]
  rw [hgone, hhere] at hmap
  exact absurd hmap (by simp)

/-- In every run of writes and deletions whose steps meet `StepOk`, the file stays one of whole records,
and the store opened on it holds what was asked for exactly when no written key stays deleted. -/
theorem init_after_deletes_iff {flags : Flags} {file : List UInt8} {kv : Kv} {ops : List Op} (hrw : flags.rw = true)
    (hhdd : flags.hdd = true) (hfile : Parses file) (hopen : init flags file = some kv) (hok : RunOk kv ops) :
    ∃ kv' fp reopened, run kv ops = some kv' ∧ kv'.fp = some fp ∧ init flags fp.bytes = some reopened ∧ Parses fp.bytes ∧
      (∀ k, kv'.map k = applied kv.map ops k) ∧
      ((∀ k, reopened.map k = applied kv.map ops k) ↔ ∀ k, Rewritten kv.map ops k) := by
  obtain ⟨kv', fp, reopened, hrun, hfp, hparses, hinit, hmap, hmap'⟩ := init_run hrw hhdd hfile hopen hok
  refine ⟨kv', fp, reopened, hrun, hfp, hinit, hparses, hmap, ?_⟩
  refine forall_congr' fun k => ?_
  rw [hmap', written_eq_applied_iff]

def unsharedflags : Flags := { defaultflags with threadsafe := false }

theorem init_after_deletes_iff_rewritten : ∃ kv kv' fp reopened, init unsharedflags [] = some kv ∧
    run kv [.write [97] [1, 2], .delete [97], .write [97] [3]] = some kv' ∧ kv'.fp = some fp ∧
    init unsharedflags fp.bytes = some reopened ∧ Parses fp.bytes ∧
    ((∀ k, reopened.map k = applied kv.map [.write [97] [1, 2], .delete [97], .write [97] [3]] k) ↔
      ∀ k, Rewritten kv.map [.write [97] [1, 2], .delete [97], .write [97] [3]] k) := by
  obtain ⟨kv, hopen⟩ := Option.isSome_iff_exists.mp (show (init unsharedflags []).isSome = true by decide +kernel)
  have hok : RunOk kv [.write [97] [1, 2], .delete [97], .write [97] [3]] := by
    have hkv : kv = ⟨unsharedflags, false, [], some ⟨[], 0⟩⟩ :=
      Option.some.inj (hopen.symm.trans (by decide +kernel))
    rw [hkv]
    decide +kernel
  obtain ⟨kv', fp, reopened, hrun, hfp, hinit, hparses, -, hiff⟩ := init_after_deletes_iff rfl rfl parses_nil hopen hok
  exact ⟨kv, kv', fp, reopened, hopen, hrun, hfp, hinit, hparses, hiff⟩

/-- A deleted key is back when the file is opened again. -/
theorem deleted_key_returns : ¬ ∀ (ops : List Op) (kv kv' : Kv) (fp : File) (reopened : Kv),
    init unsharedflags [] = some kv → run kv ops = some kv' → kv'.fp = some fp →
    init unsharedflags fp.bytes = some reopened → ∀ k, reopened.map k = applied kv.map ops k := by
  intro hall
  have hback : ((init unsharedflags []).bind fun kv =>
      (run kv [.write [97] [1, 2], .delete [97]]).bind fun kv' =>
        kv'.fp.bind fun fp => (init unsharedflags fp.bytes).map fun reopened =>
          (reopened.map [97], applied kv.map [.write [97] [1, 2], .delete [97]] [97])) =
      some (some [1, 2], none) := by decide +kernel
  simp only [Option.bind_eq_some_iff, Option.map_eq_some_iff, Prod.mk.injEq] at hback
  obtain ⟨kv, hopen, kv', hrun, fp, hfp, reopened, hinit, hhere, hgone⟩ := hback
  have hmap := hall _ kv kv' fp reopened hopen hrun hfp hinit [97]
  rw [hgone, hhere] at hmap
  exact absurd hmap (by simp)

end SuperNet.KV.Kv777
