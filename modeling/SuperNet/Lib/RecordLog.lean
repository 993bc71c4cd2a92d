import Mathlib.Tactic

/-! Logs of keyed records laid end to end in a file. The newest record of a key counts; it is
replaced by one of the same size in its place, or by a longer one at the end. -/
namespace SuperNet.Lib.RecordLog

section Newest

variable {α K : Type*} {key : α → K} {rs : List α} {i : Nat} {r s : α}

/-- The newest record of key `k`. -/
def latest [DecidableEq K] (key : α → K) (rs : List α) (k : K) : Option α := rs.reverse.find? fun r => key r = k

/-- Record `i` is `r`, and the newest one of its key. -/
structure Newest (key : α → K) (rs : List α) (i : Nat) (r : α) : Prop where
  here : rs[i]? = some r
  later : ∀ j s, i < j → rs[j]? = some s → key s ≠ key r

@[simp] theorem latest_nil [DecidableEq K] (key : α → K) (k : K) : latest key [] k = none := rfl

theorem latest_append [DecidableEq K] (key : α → K) (rs : List α) (r : α) (k : K) :
    latest key (rs ++ [r]) k = if key r = k then some r else latest key rs k := by
  rw [latest, List.reverse_append, List.reverse_singleton, List.singleton_append, List.find?_cons]
  by_cases h : key r = k <;> simp [h, latest]

theorem Newest.lt (h : Newest key rs i r) : i < rs.length := (List.getElem?_eq_some_iff.mp h.here).1

theorem newest_append (key : α → K) (rs : List α) (s : α) : Newest key (rs ++ [s]) rs.length s := by
  refine ⟨by simp, ?_⟩
  intro j t hj ht
  have hlt := (List.getElem?_eq_some_iff.mp ht).1
  rw [List.length_append, List.length_singleton] at hlt
  omega

theorem Newest.append (h : Newest key rs i r) (hs : key s ≠ key r) : Newest key (rs ++ [s]) i r := by
  refine ⟨?_, ?_⟩
  · rw [List.getElem?_append_left h.lt]
    exact h.here
  · intro j t hj ht
    by_cases hlt : j < rs.length
    · rw [List.getElem?_append_left hlt] at ht
      exact h.later j t hj ht
    · rw [List.getElem?_append_right (not_lt.mp hlt)] at ht
      rwa [List.mem_singleton.mp (List.mem_of_getElem? ht)]

theorem Newest.set (h : Newest key rs i r) (hs : key s = key r) : Newest key (rs.set i s) i s := by
  refine ⟨by rw [List.getElem?_set_self h.lt], ?_⟩
  intro j t hj ht
  rw [List.getElem?_set_ne (by omega)] at ht
  rw [hs]
  exact h.later j t hj ht

theorem Newest.set_other {i' : Nat} {r' : α} (h : Newest key rs i r) (h' : Newest key rs i' r') (hs : key s = key r')
    (hne : key r ≠ key r') : Newest key (rs.set i' s) i r := by
  have hi : i' ≠ i := by
    rintro rfl
    exact hne (congrArg key (Option.some.inj (h.here.symm.trans h'.here)))
  refine ⟨by rw [List.getElem?_set_ne hi]; exact h.here, ?_⟩
  intro j t hj ht
  by_cases hj' : i' = j
  · subst hj'
    rw [List.getElem?_set_self h'.lt] at ht
    rw [← Option.some.inj ht, hs]
    exact hne.symm
  · rw [List.getElem?_set_ne hj'] at ht
    exact h.later j t hj ht

private theorem Newest.split (h : Newest key rs i r) :
    rs = rs.take i ++ r :: rs.drop (i + 1) ∧ ∀ t ∈ rs.drop (i + 1), key t ≠ key r := by
  refine ⟨?_, ?_⟩
  · rw [← (List.getElem?_eq_some_iff.mp h.here).2, ← List.drop_eq_getElem_cons h.lt, List.take_append_drop]
  · intro t ht
    obtain ⟨j, hj⟩ := List.mem_iff_getElem?.mp ht
    rw [List.getElem?_drop] at hj
    exact h.later _ t (by omega) hj

private theorem latest_split [DecidableEq K] (pre post : List α) (hpost : ∀ t ∈ post, key t ≠ key s) (k : K) :
    latest key (pre ++ s :: post) k =
      if key s = k then some s else (latest key post k).or (latest key pre k) := by
  have hrev : (pre ++ s :: post).reverse = post.reverse ++ s :: pre.reverse := by simp
  rw [latest, hrev, List.find?_append, List.find?_cons]
  by_cases hk : key s = k
  · have hnone : post.reverse.find? (fun t => decide (key t = k)) = none := by
      rw [List.find?_eq_none]
      intro t ht
      rw [← hk]
      simpa using hpost t (List.mem_reverse.mp ht)
    simp [hk, hnone]
  · simp [hk, latest]

theorem Newest.latest [DecidableEq K] (h : Newest key rs i r) : latest key rs (key r) = some r := by
  obtain ⟨hrs, hpost⟩ := h.split
  rw [hrs, latest_split _ _ hpost, if_pos rfl]

theorem Newest.latest_set [DecidableEq K] (h : Newest key rs i r) (hs : key s = key r) (k : K) :
    RecordLog.latest key (rs.set i s) k = if key s = k then some s else RecordLog.latest key rs k := by
  obtain ⟨hrs, hpost⟩ := h.split
  have hset : rs.set i s = rs.take i ++ s :: rs.drop (i + 1) := by
    rw [List.set_eq_take_append_cons_drop, if_pos h.lt]
  rw [hset, latest_split _ _ (hs ▸ hpost)]
  by_cases hk : key s = k
  · rw [if_pos hk, if_pos hk]
  · have hold := latest_split (rs.take i) _ hpost k
    rw [← hrs, if_neg (hs ▸ hk)] at hold
    rw [if_neg hk, if_neg hk, hold]

end Newest

section Image

variable {α : Type*} (bytes : α → List UInt8)

/-- The file that holds the records. -/
def image (rs : List α) : List UInt8 := rs.flatMap bytes

/-- Where record `i` starts. -/
def place (rs : List α) (i : Nat) : Nat := (image bytes (rs.take i)).length

/-- A file after the bytes `bs` have been written at `pos`. -/
def overwrite (file : List UInt8) (pos : Nat) (bs : List UInt8) : List UInt8 :=
  (file ++ List.replicate (pos - file.length) 0).take pos ++ bs ++ file.drop (pos + bs.length)

variable {bytes} {rs : List α} {i : Nat} {r s : α}

theorem overwrite_end (file bs : List UInt8) : overwrite file file.length bs = file ++ bs := by
  have hdrop : file.drop (file.length + bs.length) = [] := List.drop_eq_nil_of_le (by omega)
  rw [overwrite, hdrop, Nat.sub_self, List.replicate_zero, List.append_nil, List.append_nil, List.take_length]

@[simp] theorem image_append (rs ss : List α) : image bytes (rs ++ ss) = image bytes rs ++ image bytes ss :=
  List.flatMap_append

@[simp] theorem image_singleton (r : α) : image bytes [r] = bytes r := by simp [image]

/-- A record of the same size in the place of another one. -/
theorem overwrite_place (h : rs[i]? = some r) (hlen : (bytes s).length = (bytes r).length) :
    overwrite (image bytes rs) (place bytes rs i) (bytes s) = image bytes (rs.set i s) := by
  obtain ⟨hi, hget⟩ := List.getElem?_eq_some_iff.mp h
  have hrs : rs = rs.take i ++ r :: rs.drop (i + 1) := by
    rw [← hget, ← List.drop_eq_getElem_cons hi, List.take_append_drop]
  have himage : image bytes rs = image bytes (rs.take i) ++ (bytes r ++ image bytes (rs.drop (i + 1))) := by
    conv_lhs => rw [hrs, image_append, ← List.singleton_append, image_append, image_singleton]
  rw [List.set_eq_take_append_cons_drop, if_pos hi, image_append, ← List.singleton_append, image_append, image_singleton,
    overwrite, himage, place]
  have hzero : (image bytes (rs.take i)).length -
      (image bytes (rs.take i) ++ (bytes r ++ image bytes (rs.drop (i + 1)))).length = 0 := by
    rw [List.length_append]
    omega
  rw [hzero, List.replicate_zero, List.append_nil, List.take_left, List.drop_append,
    List.drop_eq_nil_of_le (Nat.le_add_right _ _), Nat.add_sub_cancel_left, hlen, List.drop_left, List.nil_append,
    List.append_assoc]

private theorem sizes_set (h : rs[i]? = some r) (hlen : (bytes s).length = (bytes r).length) :
    (rs.set i s).map (fun r => (bytes r).length) = rs.map fun r => (bytes r).length := by
  obtain ⟨hi, rfl⟩ := List.getElem?_eq_some_iff.mp h
  rw [List.map_set, hlen]
  have hself := @List.set_getElem_self _ (rs.map fun r => (bytes r).length) i (by rwa [List.length_map])
  rwa [List.getElem_map] at hself

private theorem place_eq (rs : List α) (i : Nat) :
    place bytes rs i = ((rs.map fun r => (bytes r).length).take i).sum := by
  rw [place, image, List.length_flatMap, List.map_take]

theorem place_set (h : rs[i]? = some r) (hlen : (bytes s).length = (bytes r).length) (j : Nat) :
    place bytes (rs.set i s) j = place bytes rs j := by
  rw [place_eq, place_eq, sizes_set h hlen]

theorem image_length_set (h : rs[i]? = some r) (hlen : (bytes s).length = (bytes r).length) :
    (image bytes (rs.set i s)).length = (image bytes rs).length := by
  rw [image, image, List.length_flatMap, List.length_flatMap, sizes_set h hlen]

theorem place_append (ss : List α) (hi : i ≤ rs.length) : place bytes (rs ++ ss) i = place bytes rs i := by
  rw [place, place, List.take_append_of_le_length hi]

theorem place_length (rs : List α) : place bytes rs rs.length = (image bytes rs).length := by
  rw [place, List.take_length]

/-- `rs` has become `rs'` by a change to the record of key `k` alone. -/
def Keeps {K : Type*} (key : α → K) (bytes : α → List UInt8) (rs rs' : List α) (k : K) : Prop :=
  ∀ i r, Newest key rs i r → key r ≠ k → Newest key rs' i r ∧ place bytes rs' i = place bytes rs i

theorem keeps_append {K : Type*} {key : α → K} (s : α) : Keeps key bytes rs (rs ++ [s]) (key s) :=
  fun _ _ h hne => ⟨h.append (Ne.symm hne), place_append [s] h.lt.le⟩

theorem Newest.keeps_set {K : Type*} {key : α → K} (h : Newest key rs i r) (hs : key s = key r)
    (hlen : (bytes s).length = (bytes r).length) : Keeps key bytes rs (rs.set i s) (key s) :=
  fun j _ hj hne => ⟨hj.set_other h hs (hs ▸ hne), place_set h.here hlen j⟩

end Image

end SuperNet.Lib.RecordLog
