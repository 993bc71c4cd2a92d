import SuperNet.Lib.SwapRemove
import SuperNet.Utils.Libgfshare

/-! The choice of share numbers: `init_sharenrs` draws from what is left of an array. -/
namespace SuperNet.Utils.Libgfshare
open SuperNet.Lib.Runs SuperNet.Lib.SwapRemove

/-- `m` draws: the drawn numbers, and what is left of `valid`. The entry drawn is overwritten with the last one. -/
def draws (r : Nat → Nat → Nat) (valid : List UInt8) (m : Nat) : List UInt8 × List UInt8 :=
  rounds (fun s i => (s.1 ++ [s.2.getD (r i s.2.length) 0], swapRemove s.2 (r i s.2.length))) ([], valid) m

/-- The final test of `init_sharenrs`; zeros are not compared. -/
def Duplicated (sharenrs : List UInt8) (m : Nat) : Prop :=
  ∃ i < m, ∃ j < m, i ≠ j ∧ sharenrs.getD i 0 ≠ 0 ∧ sharenrs.getD i 0 = sharenrs.getD j 0

instance (sharenrs : List UInt8) (m : Nat) : Decidable (Duplicated sharenrs m) :=
  inferInstanceAs (Decidable (∃ i < m, ∃ j < m, _))

/-- All share numbers, 1 to 255. -/
def fullSet : List UInt8 := (List.range 255).map fun i => UInt8.ofNat (i + 1)

/-- The first `n` share numbers. The numbers to draw from are copied from `sharenrs`, not from `orig`. -/
def initSharenrs (randvals : Nat → UInt8) (rand : Nat → Nat) (orig : Option (List UInt8)) (m n : Nat) : Option (List UInt8) :=
  if n < m ∨ 0xff ≤ n then none
  else
    let sharenrs : List UInt8 := List.replicate n 0
    let (drawn, orign) :=
      if orig = none ∧ n = m then (draws (fun i remains => (randvals i).toNat % remains) fullSet n, 255)
      else (draws (fun i remains => (rand i >>> 8) % remains) sharenrs m, n)
    let sharenrs := drawn.1 ++ sharenrs.drop m
    if drawn.2.length ≠ orign - m then none
    else if Duplicated sharenrs m then none
    else some sharenrs

/-- Exactly `m` of the `n` numbers are real, and these are distinct. -/
structure Selected (sharenrs : List UInt8) (m n : Nat) : Prop where
  length : sharenrs.length = n
  nonzero : (sharenrs.filter (· ≠ 0)).length = m
  distinct : (sharenrs.filter (· ≠ 0)).Nodup

def DrawnFrom (sharenrs : List UInt8) (orig : Option (List UInt8)) : Prop :=
  ∀ set, orig = some set → ∀ x ∈ sharenrs, x ≠ 0 → x ∈ set

section
variable {r : Nat → Nat → Nat} {valid : List UInt8} {m : Nat}

/-- Drawing splits the array, whatever the random numbers are. -/
theorem draws_perm (hr : ∀ i remains, 0 < remains → r i remains < remains) (hm : m ≤ valid.length) :
    ((draws r valid m).1 ++ (draws r valid m).2).Perm valid ∧ (draws r valid m).1.length = m := by
  refine rounds_induct (motive := fun k (s : List UInt8 × List UInt8) => (s.1 ++ s.2).Perm valid ∧ s.1.length = k) m
    ⟨List.Perm.refl _, rfl⟩ ?_
  intro k hk
  generalize rounds _ _ k = s
  rintro ⟨hperm, hlen⟩
  have hcount := hperm.length_eq
  rw [List.length_append] at hcount
  have hlt := hr k s.2.length (by omega)
  have hx : s.2[r k s.2.length]? = some (s.2.getD (r k s.2.length) 0) := by
    rw [List.getD_eq_getElem?_getD, List.getElem?_eq_getElem hlt]
    rfl
  constructor
  · rw [List.append_assoc]
    exact ((swapRemove_perm hx).append_left s.1).trans hperm
  · rw [List.length_append, hlen, List.length_singleton]

/-- The test of the number of those left never fails. -/
theorem draws_left (hr : ∀ i remains, 0 < remains → r i remains < remains) (hm : m ≤ valid.length) :
    (draws r valid m).2.length = valid.length - m := by
  obtain ⟨hperm, hlen⟩ := draws_perm hr hm
  have hcount := hperm.length_eq
  rw [List.length_append] at hcount
  omega

theorem mem_of_mem_draws (hr : ∀ i remains, 0 < remains → r i remains < remains) (hm : m ≤ valid.length) {x : UInt8}
    (hx : x ∈ (draws r valid m).1) : x ∈ valid :=
  (draws_perm hr hm).1.subset (List.mem_append_left _ hx)

theorem not_duplicated {sharenrs : List UInt8} (h : sharenrs.Nodup) : ¬ Duplicated sharenrs sharenrs.length := by
  rintro ⟨i, hi, j, hj, hne, -, heq⟩
  apply hne
  rw [List.getD_eq_getElem?_getD, List.getD_eq_getElem?_getD, List.getElem?_eq_getElem hi, List.getElem?_eq_getElem hj] at heq
  exact (h.getElem_inj_iff).mp heq

end

theorem fullSet_toNat {i : Nat} (hi : i ∈ List.range 255) : (UInt8.ofNat (i + 1)).toNat = i + 1 := by
  have hlt := List.mem_range.mp hi
  rw [UInt8.toNat_ofNat', Nat.mod_eq_of_lt (by omega)]

theorem fullSet_nodup : fullSet.Nodup := by
  apply List.nodup_range.map_on
  intro i hi j hj heq
  have hnat := congrArg UInt8.toNat heq
  rw [fullSet_toNat hi, fullSet_toNat hj] at hnat
  exact Nat.succ_injective hnat

theorem fullSet_nonzero : 0 ∉ fullSet := by
  intro hmem
  obtain ⟨i, hi, heq⟩ := List.mem_map.mp hmem
  have hnat := congrArg UInt8.toNat heq
  rw [fullSet_toNat hi] at hnat
  exact absurd hnat (Nat.succ_ne_zero i)

section
variable (randvals : Nat → UInt8) (rand : Nat → Nat) {m n : Nat}

/-- Without a set, `n` of the 255 numbers are drawn. -/
theorem initSharenrs_full (hn : n < 0xff) :
    ∃ sharenrs, initSharenrs randvals rand none n n = some sharenrs ∧ sharenrs.length = n ∧ sharenrs.Nodup ∧
      0 ∉ sharenrs := by
  have hr : ∀ i remains, 0 < remains → (randvals i).toNat % remains < remains := fun i remains h => Nat.mod_lt _ h
  have hfull : fullSet.length = 255 := by rw [fullSet, List.length_map, List.length_range]
  have hm : n ≤ fullSet.length := by omega
  obtain ⟨hperm, hlen⟩ := draws_perm hr hm
  have hleft := draws_left hr hm
  rw [hfull] at hleft
  have hnodup : (draws (fun i remains => (randvals i).toNat % remains) fullSet n).1.Nodup :=
    (hperm.nodup_iff.mpr fullSet_nodup).of_append_left
  have hzero : 0 ∉ (draws (fun i remains => (randvals i).toNat % remains) fullSet n).1 :=
    fun h => fullSet_nonzero (mem_of_mem_draws hr hm h)
  refine ⟨_, ?_, hlen, hnodup, hzero⟩
  have hdrop : (List.replicate n (0 : UInt8)).drop n = [] := List.drop_eq_nil_of_le (by rw [List.length_replicate])
  have hnew := not_duplicated hnodup
  rw [hlen] at hnew
  rw [initSharenrs, if_neg (by omega)]
  simp only [and_self, if_true, hdrop, List.append_nil]
  rw [if_neg (not_not.mpr hleft), if_neg hnew]

/-- With a set, the numbers are drawn from the cleared array: all of them are zero. -/
theorem initSharenrs_set (set : List UInt8) (hm : m ≤ n) (hn : n < 0xff) :
    initSharenrs randvals rand (some set) m n = some (List.replicate n 0) := by
  have hr : ∀ i remains, 0 < remains → (rand i >>> 8) % remains < remains := fun i remains h => Nat.mod_lt _ h
  have hlen : (List.replicate n (0 : UInt8)).length = n := List.length_replicate
  have hle : m ≤ (List.replicate n (0 : UInt8)).length := by rwa [hlen]
  obtain ⟨-, hdrawn⟩ := draws_perm hr hle
  have hleft := draws_left hr hle
  rw [hlen] at hleft
  have hzeros : (draws (fun i remains => (rand i >>> 8) % remains) (List.replicate n 0) m).1 = List.replicate m 0 := by
    apply List.eq_replicate_iff.mpr
    exact ⟨hdrawn, fun x hx => (List.mem_replicate.mp (mem_of_mem_draws hr hle hx)).2⟩
  have hstored : List.replicate m (0 : UInt8) ++ (List.replicate n 0).drop m = List.replicate n 0 := by
    rw [List.drop_replicate, List.replicate_append_replicate, Nat.add_sub_cancel' hm]
  have hnone : ¬ Duplicated (List.replicate n 0) m := by
    rintro ⟨i, hi, -, -, -, hne, -⟩
    apply hne
    rw [List.getD_eq_getElem?_getD, List.getElem?_replicate]
    split <;> rfl
  rw [initSharenrs, if_neg (by omega)]
  simp only [reduceCtorEq, false_and, if_false, hzeros, hstored]
  rw [if_neg (not_not.mpr hleft), if_neg hnone]

/-- What is promised of the share numbers. -/
structure Shared (sharenrs : List UInt8) (orig : Option (List UInt8)) (m n : Nat) : Prop where
  selected : Selected sharenrs m n
  drawn : DrawnFrom sharenrs orig

/-- The choice succeeds, and is what is promised only of all numbers at once or of none. -/
theorem initSharenrs_shared_iff (orig : Option (List UInt8)) (hm : m ≤ n) (hn : n < 0xff) (hfull : orig = none → m = n) :
    (∃ sharenrs, initSharenrs randvals rand orig m n = some sharenrs ∧ Shared sharenrs orig m n) ↔ orig = none ∨ m = 0 := by
  cases orig with
  | none =>
    obtain rfl := hfull rfl
    obtain ⟨sharenrs, hinit, hlen, hnodup, hzero⟩ := initSharenrs_full randvals rand hn
    have hfilter : sharenrs.filter (· ≠ 0) = sharenrs := by
      apply List.filter_eq_self.mpr
      intro x hx
      rw [decide_eq_true_iff]
      rintro rfl
      exact hzero hx
    refine iff_of_true ⟨sharenrs, hinit, ⟨hlen, by rw [hfilter, hlen], by rwa [hfilter]⟩, fun set hset => ?_⟩ (.inl rfl)
    cases hset
  | some set =>
    have hinit := initSharenrs_set randvals rand set hm hn
    have hfilter : (List.replicate n (0 : UInt8)).filter (· ≠ 0) = [] := by
      apply List.filter_eq_nil_iff.mpr
      intro x hx
      simp [(List.mem_replicate.mp hx).2]
    constructor
    · rintro ⟨sharenrs, hstored, hshared, -⟩
      obtain rfl := Option.some.inj (hinit.symm.trans hstored)
      have hcount := hshared.nonzero
      rw [hfilter] at hcount
      exact .inr hcount.symm
    · rintro (hnone | rfl)
      · cases hnone
      · refine ⟨_, hinit, ⟨List.length_replicate, by rw [hfilter]; rfl, by rw [hfilter]; exact List.nodup_nil⟩, ?_⟩
        intro _ _ x hx hx0
        exact absurd (List.mem_replicate.mp hx).2 hx0

theorem initSharenrs_shared_three :
    ∃ sharenrs, initSharenrs (fun i => UInt8.ofNat (i * 77)) (fun _ => 0) none 3 3 = some sharenrs ∧ Shared sharenrs none 3 3 :=
  (initSharenrs_shared_iff _ _ none (by decide) (by decide) fun _ => rfl).mpr (.inl rfl)

/-- Two numbers asked of three, and none given. -/
theorem initSharenrs_unshared :
    initSharenrs (fun _ => 0) (fun _ => 0) (some [1, 2, 3]) 2 3 = some [0, 0, 0] ∧
      ¬ ∀ (randvals : Nat → UInt8) (rand : Nat → Nat) (set : List UInt8) (m n : Nat), m ≤ n → n < 0xff → set.length = n →
        set.Nodup → 0 ∉ set → ∀ sharenrs, initSharenrs randvals rand (some set) m n = some sharenrs →
          Shared sharenrs (some set) m n := by
  have hinit := initSharenrs_set (fun _ => 0) (fun _ => 0) (m := 2) (n := 3) [1, 2, 3] (by decide) (by decide)
  refine ⟨hinit, fun h => ?_⟩
  have hshared := h _ _ [1, 2, 3] 2 3 (by decide) (by decide) rfl (by decide) (by decide) _ hinit
  exact absurd hshared.selected.nonzero (by decide)

end

end SuperNet.Utils.Libgfshare
