import Mathlib.Data.UInt
import Mathlib.Tactic

/-! The sets of numbers of utils777.c, kept in arrays of fixed size that end at the first zero. -/
namespace SuperNet.Utils.NumberSets

section Source
variable {α : Type} [Zero α] [DecidableEq α]

/-- The loop of the three `find` functions from index `i` on: the index of the value and the empty slot, of
which none stands for -1. There is no result where the 32-bit index would overflow. -/
def findLoop (val : α) : List α → Nat → Option (Option Nat × Option Nat)
  | [], _ => some (none, none)
  | num :: nums, i =>
    if num = 0 then some (none, some i)
    else if num = val then some (some i, none)
    else if i + 1 = 2^31 then none
    else findLoop val nums (i + 1)

def findNum (nums : List α) (val : α) : Option (Option Nat × Option Nat) := findLoop val nums 0

def addNum (nums : List α) (val : α) : Option (Option Nat × List α) :=
  match findNum nums val with
  | none => none
  | some (some i, _) => some (some i, nums)
  | some (none, some emptyslot) => some (some emptyslot, nums.set emptyslot val)
  | some (none, none) => some (none, nums)

def removeNum (nums : List α) (val : α) : Option (Option Nat × List α) :=
  match findNum nums val with
  | none => none
  | some (some i, _) => some (some i, nums.set i 0)
  | some (none, _) => some (none, nums)

end Source

def findUint32 (nums : List UInt32) (val : UInt32) : Option (Option Nat × Option Nat) := findNum nums val
def addUint32 (nums : List UInt32) (val : UInt32) : Option (Option Nat × List UInt32) := addNum nums val
def removeUint32 (nums : List UInt32) (val : UInt32) : Option (Option Nat × List UInt32) := removeNum nums val
def findUint16 (nums : List UInt16) (val : UInt16) : Option (Option Nat × Option Nat) := findNum nums val
def addUint16 (nums : List UInt16) (val : UInt16) : Option (Option Nat × List UInt16) := addNum nums val
def removeUint16 (nums : List UInt16) (val : UInt16) : Option (Option Nat × List UInt16) := removeNum nums val
def findUint64 (nums : List UInt64) (val : UInt64) : Option (Option Nat × Option Nat) := findNum nums val
def addUint64 (nums : List UInt64) (val : UInt64) : Option (Option Nat × List UInt64) := addNum nums val
def removeUint64 (nums : List UInt64) (val : UInt64) : Option (Option Nat × List UInt64) := removeNum nums val

/-- The three functions for one width. -/
structure Numbers (α : Type) where
  find : List α → α → Option (Option Nat × Option Nat)
  add : List α → α → Option (Option Nat × List α)
  remove : List α → α → Option (Option Nat × List α)

def uint64s : Numbers UInt64 := ⟨findUint64, addUint64, removeUint64⟩
def uint32s : Numbers UInt32 := ⟨findUint32, addUint32, removeUint32⟩
def uint16s : Numbers UInt16 := ⟨findUint16, addUint16, removeUint16⟩

inductive Call (α : Type) where
  | find (val : α)
  | add (val : α)
  | remove (val : α)

section Runs
variable {α : Type} [Zero α] [DecidableEq α]

/-- A call with a value other than zero, on the array and on the set of the values that have been added and
not removed since. -/
inductive Step (ops : Numbers α) : List α → Finset α → Call α → List α → Finset α → Prop
  | find {nums S val found slot} (hval : val ≠ 0) (h : ops.find nums val = some (found, slot)) :
      Step ops nums S (.find val) nums S
  | add {nums S val i nums'} (hval : val ≠ 0) (h : ops.add nums val = some (some i, nums')) :
      Step ops nums S (.add val) nums' (insert val S)
  | addFails {nums S val nums'} (hval : val ≠ 0) (h : ops.add nums val = some (none, nums')) :
      Step ops nums S (.add val) nums' S
  | remove {nums S val i nums'} (hval : val ≠ 0) (h : ops.remove nums val = some (i, nums')) :
      Step ops nums S (.remove val) nums' (S.erase val)

/-- A run on an array of zeros whose calls all meet a condition. -/
inductive Run (ops : Numbers α) (capacity : Nat) (fine : List α → Finset α → Call α → Prop) : List α → Finset α → Prop
  | start : Run ops capacity fine (List.replicate capacity 0) ∅
  | step {nums S call nums' S'} (h : Run ops capacity fine nums S) (hfine : fine nums S call)
      (hstep : Step ops nums S call nums' S') : Run ops capacity fine nums' S'

/-- The array answers as the set, holds no value twice, and takes every value until it is full. -/
structure AsSet (ops : Numbers α) (capacity : Nat) (nums : List α) (S : Finset α) : Prop where
  find : ∀ val ≠ 0, ∃ found slot, ops.find nums val = some (found, slot) ∧ (found.isSome ↔ val ∈ S)
  once : ∀ val ≠ 0, nums.count val ≤ 1
  add : ∀ val ≠ 0, ∃ i nums', ops.add nums val = some (i, nums') ∧ (i = none → S.card = capacity)

/-- Nothing but zeros stands after the value in the array. -/
def Last (nums : List α) (val : α) : Prop := ∀ i j, nums[i]? = some val → i < j → nums.getD j 0 = 0

/-- Only the last value is removed, and fewer than `2^31` values are held. -/
def LastRemoved (capacity : Nat) (nums : List α) (S : Finset α) : Call α → Prop
  | .find _ => True
  | .add val => val ∈ S ∨ S.card = capacity ∨ S.card + 1 < 2^31
  | .remove val => Last nums val

/-- The values stand at the start of the array, in the order of their addition. -/
structure Stored (capacity : Nat) (nums : List α) (S : Finset α) (stored : List α) (k : Nat) : Prop where
  nums : nums = stored ++ List.replicate k 0
  nonzero : 0 ∉ stored
  nodup : stored.Nodup
  set : stored.toFinset = S
  capacity : stored.length + k = capacity
  short : stored.length < 2^31

theorem findLoop_append {val : α} (tail stored : List α) (i : Nat) (h0 : 0 ∉ stored)
    (hshort : i + stored.length < 2^31) : findLoop val (stored ++ tail) i =
      if val ∈ stored then some (some (i + stored.idxOf val), none) else findLoop val tail (i + stored.length) := by
  induction stored generalizing i with
  | nil => rw [if_neg List.not_mem_nil, List.nil_append, List.length_nil, Nat.add_zero]
  | cons num stored ih =>
    have hnum : num ≠ 0 := fun h => h0 (h ▸ List.mem_cons_self)
    rw [List.length_cons] at hshort
    rw [List.cons_append, findLoop, if_neg hnum]
    by_cases heq : num = val
    · rw [if_pos heq, heq, if_pos List.mem_cons_self, List.idxOf_cons_self, Nat.add_zero]
    · have hmem : val ∈ num :: stored ↔ val ∈ stored := by
        rw [List.mem_cons]
        exact or_iff_right (Ne.symm heq)
      rw [if_neg heq, if_neg (by omega), ih (i + 1) (fun h => h0 (List.mem_cons_of_mem num h)) (by omega),
        List.idxOf_cons_ne _ heq, List.length_cons]
      simp only [hmem, Nat.add_assoc, Nat.add_comm 1]

namespace Stored
variable {capacity : Nat} {nums : List α} {S : Finset α} {stored : List α} {k : Nat} {val : α}

theorem mem_iff (h : Stored capacity nums S stored k) : val ∈ stored ↔ val ∈ S := by
  rw [← h.set, List.mem_toFinset]

theorem card (h : Stored capacity nums S stored k) : S.card = stored.length := by
  rw [← h.set, List.toFinset_card_of_nodup h.nodup]

theorem findNum_eq (h : Stored capacity nums S stored k) : findNum nums val =
    if val ∈ stored then some (some (stored.idxOf val), none)
    else some (none, if k = 0 then none else some stored.length) := by
  rw [findNum, h.nums, findLoop_append _ stored 0 h.nonzero (by rw [Nat.zero_add]; exact h.short), Nat.zero_add, Nat.zero_add]
  cases k with
  | zero => rfl
  | succ k => rw [List.replicate_succ, findLoop, if_pos rfl, if_neg (Nat.succ_ne_zero k)]

theorem addNum_mem (h : Stored capacity nums S stored k) (hmem : val ∈ stored) :
    addNum nums val = some (some (stored.idxOf val), nums) := by
  rw [addNum, h.findNum_eq, if_pos hmem]

theorem addNum_full (h : Stored capacity nums S stored 0) (hmem : val ∉ stored) : addNum nums val = some (none, nums) := by
  rw [addNum, h.findNum_eq, if_neg hmem, if_pos rfl]

theorem addNum_new (h : Stored capacity nums S stored (k + 1)) (hmem : val ∉ stored) :
    addNum nums val = some (some stored.length, nums.set stored.length val) := by
  rw [addNum, h.findNum_eq, if_neg hmem, if_neg (Nat.succ_ne_zero k)]

/-- A new value takes the first zero. -/
theorem insert (h : Stored capacity nums S stored (k + 1)) (hval : val ≠ 0) (hmem : val ∉ stored)
    (hshort : S.card + 1 < 2^31) :
    Stored capacity (nums.set stored.length val) (insert val S) (stored ++ [val]) k where
  nums := by
    rw [h.nums, List.set_append_right _ _ (le_refl _), Nat.sub_self, List.replicate_succ, List.set_cons_zero,
      List.append_assoc, List.singleton_append]
  nonzero := by
    rw [List.mem_append, List.mem_singleton, not_or]
    exact ⟨h.nonzero, hval.symm⟩
  nodup := by
    rw [List.nodup_append_comm, List.singleton_append, List.nodup_cons]
    exact ⟨hmem, h.nodup⟩
  set := by
    rw [List.toFinset_append, h.set, List.toFinset_cons, List.toFinset_nil, Finset.union_comm]
    rfl
  capacity := by
    rw [List.length_append, List.length_singleton, ← h.capacity]
    omega
  short := by
    rw [List.length_append, List.length_singleton, ← h.card]
    exact hshort

/-- The removal of the last value puts the first zero in its place. -/
theorem erase (h : Stored capacity nums S stored k) (hmem : val ∈ stored) (hlast : Last nums val) :
    ∃ rest, stored = rest ++ [val] ∧
      Stored capacity (nums.set (stored.idxOf val) 0) (S.erase val) rest (k + 1) := by
  obtain ⟨rest, after, rfl, hrest⟩ := List.eq_append_cons_of_mem hmem
  have hnodup := List.nodup_append.mp h.nodup
  have hat : nums[rest.length]? = some val := by
    rw [h.nums, List.append_assoc, List.getElem?_append_right (le_refl _), Nat.sub_self]
    rfl
  -- A value after this one would be a zero.
  have hafter : after = [] := by
    cases hcase : after with
    | nil => rfl
    | cons next after' =>
      subst hcase
      have hnext : nums.getD (rest.length + 1) 0 = next := by
        rw [h.nums, List.append_assoc, List.getD_eq_getElem?_getD, List.getElem?_append_right (Nat.le_succ _),
          Nat.succ_sub (le_refl _), Nat.sub_self]
        rfl
      have hzero := hlast _ _ hat (Nat.lt_succ_self _)
      have hin : (0 : α) ∈ rest ++ val :: next :: after' := by
        rw [hnext] at hzero
        rw [hzero]
        simp
      exact absurd hin h.nonzero
  subst hafter
  have hidx : (rest ++ [val]).idxOf val = rest.length := by
    rw [List.idxOf_append_of_notMem hrest, List.idxOf_cons_self, Nat.add_zero]
  refine ⟨rest, rfl, ?_, ?_, ?_, ?_, ?_, ?_⟩
  · rw [h.nums, hidx, List.append_assoc, List.set_append_right _ _ (le_refl _), Nat.sub_self, List.replicate_succ]
    rfl
  · exact fun h0 => h.nonzero (List.mem_append_left [val] h0)
  · exact hnodup.1
  · rw [← h.set, List.toFinset_append, List.toFinset_cons, List.toFinset_nil]
    ext x
    simp only [List.mem_toFinset, Finset.mem_erase, Finset.mem_union, Finset.mem_insert, Finset.notMem_empty, or_false]
    constructor
    · intro hx
      exact ⟨fun heq => hrest (heq ▸ hx), Or.inl hx⟩
    · rintro ⟨hne, hx | hx⟩
      · exact hx
      · exact absurd hx hne
  · have hcapacity := h.capacity
    rw [List.length_append, List.length_singleton] at hcapacity
    omega
  · have hshort := h.short
    rw [List.length_append, List.length_singleton] at hshort
    omega

theorem step {call : Call α} {nums' : List α} {S' : Finset α} (h : Stored capacity nums S stored k)
    (hfine : LastRemoved capacity nums S call) (hstep : Step ⟨findNum, addNum, removeNum⟩ nums S call nums' S') :
    ∃ stored' k', Stored capacity nums' S' stored' k' := by
  cases hstep with
  | find hval hfind => exact ⟨stored, k, h⟩
  | @add val i _ hval hadd =>
    dsimp only at hadd
    by_cases hmem : val ∈ stored
    · rw [h.addNum_mem hmem, Option.some_inj, Prod.mk.injEq] at hadd
      rw [← hadd.2, Finset.insert_eq_of_mem (h.mem_iff.mp hmem)]
      exact ⟨stored, k, h⟩
    · cases k with
      | zero =>
        rw [h.addNum_full hmem] at hadd
        cases hadd
      | succ k =>
        rw [h.addNum_new hmem, Option.some_inj, Prod.mk.injEq] at hadd
        have hcapacity := h.capacity
        have hcard := h.card
        obtain hin | hfull | hshort := hfine
        · exact absurd (h.mem_iff.mpr hin) hmem
        · omega
        · rw [← hadd.2]
          exact ⟨stored ++ [val], k, h.insert hval hmem hshort⟩
  | @addFails val _ hval hadd =>
    dsimp only at hadd
    by_cases hmem : val ∈ stored
    · rw [h.addNum_mem hmem] at hadd
      cases hadd
    · cases k with
      | zero =>
        rw [h.addNum_full hmem, Option.some_inj, Prod.mk.injEq] at hadd
        rw [← hadd.2]
        exact ⟨stored, 0, h⟩
      | succ k =>
        rw [h.addNum_new hmem] at hadd
        cases hadd
  | @remove val i _ hval hremove =>
    dsimp only at hremove
    rw [removeNum, h.findNum_eq] at hremove
    by_cases hmem : val ∈ stored
    · rw [if_pos hmem, Option.some_inj, Prod.mk.injEq] at hremove
      obtain ⟨rest, -, hrest⟩ := h.erase hmem hfine
      rw [← hremove.2]
      exact ⟨rest, k + 1, hrest⟩
    · rw [if_neg hmem, Option.some_inj, Prod.mk.injEq] at hremove
      rw [← hremove.2, Finset.erase_eq_of_notMem fun hin => hmem (h.mem_iff.mpr hin)]
      exact ⟨stored, k, h⟩

/-- The removal of another value hides the values behind it. -/
theorem not_asSet_of_remove {rest after : List α} {next : α} {i : Option Nat} {nums' : List α}
    (h : Stored capacity nums S (rest ++ val :: next :: after) k) (hremove : removeNum nums val = some (i, nums')) :
    ¬ AsSet ⟨findNum, addNum, removeNum⟩ capacity nums' (S.erase val) := by
  obtain ⟨-, hcons, hdisjoint⟩ := List.nodup_append.mp h.nodup
  have hrest : val ∉ rest := fun hin => hdisjoint val hin val List.mem_cons_self rfl
  have hmem : val ∈ rest ++ val :: next :: after := List.mem_append_right rest List.mem_cons_self
  have hnext : next ∈ rest ++ val :: next :: after :=
    List.mem_append_right rest (List.mem_cons_of_mem val List.mem_cons_self)
  have hne : next ≠ val := fun heq => (List.nodup_cons.mp hcons).1 (heq ▸ List.mem_cons_self)
  have hbefore : next ∉ rest := fun hin => hdisjoint next hin next (List.mem_cons_of_mem val List.mem_cons_self) rfl
  have hidx : (rest ++ val :: next :: after).idxOf val = rest.length := by
    rw [List.idxOf_append_of_notMem hrest, List.idxOf_cons_self, Nat.add_zero]
  rw [removeNum, h.findNum_eq, if_pos hmem, Option.some_inj, Prod.mk.injEq] at hremove
  have hnums : nums' = rest ++ 0 :: (next :: after ++ List.replicate k 0) := by
    rw [← hremove.2, h.nums, hidx, List.append_assoc, List.set_append_right _ _ (le_refl _), Nat.sub_self]
    rfl
  have hhidden : findNum nums' next = some (none, some rest.length) := by
    have hshort := h.short
    rw [List.length_append] at hshort
    rw [findNum, hnums, findLoop_append _ rest 0 (fun h0 => h.nonzero (List.mem_append_left _ h0)) (by omega),
      if_neg hbefore, findLoop, if_pos rfl, Nat.zero_add]
  intro hset
  obtain ⟨found, slot, hfind, hiff⟩ := hset.find next fun heq => h.nonzero (heq ▸ hnext)
  obtain ⟨rfl, -⟩ := Prod.mk.injEq .. ▸ Option.some_inj.mp (hhidden.symm.trans hfind)
  exact absurd (hiff.mpr (Finset.mem_erase.mpr ⟨hne, h.mem_iff.mp hnext⟩)) Bool.false_ne_true

theorem asSet (h : Stored capacity nums S stored k) : AsSet ⟨findNum, addNum, removeNum⟩ capacity nums S where
  find := by
    intro val _
    by_cases hmem : val ∈ stored
    · refine ⟨_, _, h.findNum_eq.trans (if_pos hmem), ?_⟩
      exact ⟨fun _ => h.mem_iff.mp hmem, fun _ => rfl⟩
    · refine ⟨_, _, h.findNum_eq.trans (if_neg hmem), ?_⟩
      exact ⟨fun hsome => absurd hsome Bool.false_ne_true, fun hin => absurd (h.mem_iff.mpr hin) hmem⟩
  once := by
    intro val hval
    rw [h.nums, List.count_append, List.count_replicate, if_neg (by simpa using hval.symm), Nat.add_zero]
    exact List.nodup_iff_count_le_one.mp h.nodup val
  add := by
    intro val _
    by_cases hmem : val ∈ stored
    · exact ⟨_, _, h.addNum_mem hmem, fun hnone => absurd hnone (Option.some_ne_none _)⟩
    · cases k with
      | zero => exact ⟨_, _, h.addNum_full hmem, fun _ => h.card.trans h.capacity⟩
      | succ k => exact ⟨_, _, h.addNum_new hmem, fun hnone => absurd hnone (Option.some_ne_none _)⟩

end Stored

theorem Run.stored {capacity : Nat} {nums : List α} {S : Finset α}
    (h : Run ⟨findNum, addNum, removeNum⟩ capacity (LastRemoved capacity) nums S) :
    ∃ stored k, Stored capacity nums S stored k := by
  induction h with
  | start =>
    exact ⟨[], capacity, rfl, List.not_mem_nil, List.nodup_nil, rfl, Nat.zero_add capacity, Nat.two_pow_pos 31⟩
  | step h hfine hstep ih =>
    obtain ⟨stored, k, hstored⟩ := ih
    exact hstored.step hfine hstep

theorem Run.asSet {capacity : Nat} {nums : List α} {S : Finset α}
    (h : Run ⟨findNum, addNum, removeNum⟩ capacity (LastRemoved capacity) nums S) :
    AsSet ⟨findNum, addNum, removeNum⟩ capacity nums S := by
  obtain ⟨stored, k, hstored⟩ := h.stored
  exact hstored.asSet

end Runs

/-- Where only the last value is ever removed, the arrays are sets. -/
theorem asSet_of_last_removed (capacity : Nat) :
    (∀ nums S, Run uint64s capacity (LastRemoved capacity) nums S → AsSet uint64s capacity nums S) ∧
    (∀ nums S, Run uint32s capacity (LastRemoved capacity) nums S → AsSet uint32s capacity nums S) ∧
    ∀ nums S, Run uint16s capacity (LastRemoved capacity) nums S → AsSet uint16s capacity nums S :=
  ⟨fun _ _ h => h.asSet, fun _ _ h => h.asSet, fun _ _ h => h.asSet⟩

theorem asSet_of_last_removed_three : AsSet uint64s 3 [1, 2, 0] (Finset.erase {3, 2, 1} 3) := by
  have hone : Step uint64s [0, 0, 0] ∅ (.add 1) [1, 0, 0] {1} := .add (by decide) (i := 0) rfl
  have htwo : Step uint64s [1, 0, 0] {1} (.add 2) [1, 2, 0] {2, 1} := .add (by decide) (i := 1) rfl
  have hthree : Step uint64s [1, 2, 0] {2, 1} (.add 3) [1, 2, 3] {3, 2, 1} := .add (by decide) (i := 2) rfl
  have hremove : Step uint64s [1, 2, 3] {3, 2, 1} (.remove 3) [1, 2, 0] (Finset.erase {3, 2, 1} 3) :=
    .remove (by decide) (i := some 2) rfl
  have hlast : LastRemoved 3 [1, 2, 3] ({3, 2, 1} : Finset UInt64) (.remove 3) := by
    intro i j hi hij
    have hi2 : ¬ i < 2 := by
      intro hlt
      interval_cases i <;> revert hi <;> decide
    obtain ⟨k, rfl⟩ : ∃ k, j = k + 3 := ⟨j - 3, by omega⟩
    rfl
  have hfull : Run uint64s 3 (LastRemoved 3) [1, 2, 3] {3, 2, 1} :=
    .step (.step (.step .start (show LastRemoved 3 _ _ (.add 1) from .inr (.inr (by decide))) hone)
      (show LastRemoved 3 _ _ (.add 2) from .inr (.inr (by decide))) htwo)
      (show LastRemoved 3 _ _ (.add 3) from .inr (.inr (by decide))) hthree
  exact (asSet_of_last_removed 3).1 _ _ (.step hfull hlast hremove)

/-- Of 1 and 2 the first is removed, and 2 is not found any more. -/
theorem removed_hides : ¬ ∀ capacity nums S, Run uint64s capacity (fun _ _ _ => True) nums S →
    AsSet uint64s capacity nums S := by
  intro h
  have hone : Step uint64s [0, 0, 0] ∅ (.add 1) [1, 0, 0] {1} := .add (by decide) (i := 0) rfl
  have htwo : Step uint64s [1, 0, 0] {1} (.add 2) [1, 2, 0] {2, 1} := .add (by decide) (i := 1) rfl
  have hremove : Step uint64s [1, 2, 0] {2, 1} (.remove 1) [0, 2, 0] (Finset.erase {2, 1} 1) :=
    .remove (by decide) (i := some 0) rfl
  have hrun : Run uint64s 3 (fun _ _ _ => True) [0, 2, 0] (Finset.erase {2, 1} 1) :=
    .step (.step (.step .start trivial hone) trivial htwo) trivial hremove
  have hstored : Stored 3 [1, 2, 0] {2, 1} ([] ++ (1 : UInt64) :: 2 :: []) 1 :=
    ⟨rfl, by decide, by decide, by decide, rfl, by decide⟩
  exact hstored.not_asSet_of_remove (i := some 0) rfl (h 3 _ _ hrun)

end SuperNet.Utils.NumberSets
