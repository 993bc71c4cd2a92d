import Mathlib.Tactic

/-! Removal from an array by moving the last entry into the freed place. -/
namespace SuperNet.Lib.SwapRemove

variable {α : Type*}

def swapRemove (l : List α) (i : Nat) : List α :=
  match l.getLast? with
  | none => l
  | some x => (l.set i x).dropLast

/-- What is left is, up to order, the array without its entry `i`. -/
theorem swapRemove_perm {l : List α} {i : Nat} {x : α} (h : l[i]? = some x) : (x :: swapRemove l i).Perm l := by
  obtain ⟨hi, hx⟩ := List.getElem?_eq_some_iff.mp h
  obtain ⟨front, last, rfl⟩ : ∃ front last, l = front ++ [last] :=
    ⟨l.dropLast, l.getLast (List.ne_nil_of_length_pos (by omega)), (List.dropLast_append_getLast _).symm⟩
  rw [List.length_append, List.length_singleton] at hi
  rw [swapRemove, List.getLast?_append_of_ne_nil _ (by simp)]
  rcases Nat.lt_succ_iff_lt_or_eq.mp hi with hlt | rfl
  · have hx' : front[i] = x := by rw [← hx, List.getElem_append_left hlt]
    have hset : (front ++ [last]).set i last = front.set i last ++ [last] := List.set_append_left _ _ hlt
    simp only [List.getLast?_singleton, hset, List.dropLast_concat]
    have hfront : front = front.take i ++ x :: front.drop (i + 1) := by
      rw [← hx', List.getElem_cons_drop, List.take_append_drop]
    rw [List.set_eq_take_append_cons_drop, if_pos hlt]
    conv_rhs => rw [hfront]
    refine (List.Perm.cons _ List.perm_middle).trans (List.Perm.trans ?_ (List.perm_append_singleton _ _).symm)
    exact (List.Perm.swap _ _ _).trans (List.Perm.cons _ List.perm_middle.symm)
  · have hx' : last = x := by simpa using hx
    subst hx'
    have hset : (front ++ [last]).set front.length last = front ++ [last] := by
      rw [List.set_append_right _ _ le_rfl, Nat.sub_self, List.set_cons_zero]
    simp only [List.getLast?_singleton, hset, List.dropLast_concat]
    exact (List.perm_append_singleton _ _).symm

theorem mem_of_mem_swapRemove {l : List α} {i : Nat} {y : α} (h : y ∈ swapRemove l i) : y ∈ l := by
  rw [swapRemove] at h
  split at h
  · exact h
  · next x hx =>
    rcases List.mem_or_eq_of_mem_set (List.mem_of_mem_dropLast h) with h | rfl
    · exact h
    · exact List.mem_of_mem_getLast? hx

end SuperNet.Lib.SwapRemove
