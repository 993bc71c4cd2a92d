import Mathlib.Data.List.GetD
import SuperNet.Lib.Huffman
import SuperNet.Utils.HuffCodes

/-! What `huff_init` builds: the heap keeps its order, each round merges the two lightest trees, and the
predecessor links lead from an item up to the last node along its code. -/
namespace SuperNet.Utils.HuffCodes
open SuperNet.Lib.Runs SuperNet.Lib.Huffman Relation

section Heap
variable {f : Nat → Nat}

/-- The smallest frequencies come last. -/
def Ordered (f : Nat → Nat) (h : List Nat) : Prop := h.Pairwise fun a b => f b ≤ f a

private theorem heapSort_end (m : Nat) {h : List Nat} {i j : Nat} (hi : h.length ≤ i) : heapSort f m h i j = h := by
  cases m with
  | zero => rfl
  | succ m => rw [heapSort, if_neg (not_lt.mpr hi)]

private theorem heapSort_forward {h : List Nat} (ind : Nat) (hord : Ordered f h) (k m : Nat) (hk : k < h.length) :
    heapSort f (m + k) (h ++ [ind]) (h.length - k) (h.length - k + 1) =
      heapSort f m (h ++ [ind]) h.length (h.length + 1) := by
  induction k generalizing m with
  | zero => rfl
  | succ k ih =>
    have hle : f ((h ++ [ind]).getD (h.length - (k + 1)) 0) ≤ f ((h ++ [ind]).getD (h.length - (k + 1) - 1) 0) := by
      rw [List.getD_append _ _ _ _ (by omega), List.getD_append _ _ _ _ (by omega), List.getD_eq_getElem _ _ (by omega),
        List.getD_eq_getElem _ _ (by omega)]
      exact List.pairwise_iff_getElem.mp hord _ _ (by omega) (by omega) (by omega)
    rw [← Nat.add_assoc, heapSort, if_pos (by rw [List.length_append]; omega), if_pos hle]
    have hstep : h.length - (k + 1) + 1 = h.length - k := by omega
    rw [hstep]
    exact ih m (by omega)

private theorem heapSort_back {x : Nat} (A B : List Nat) (hA : A ≠ []) (hord : Ordered f (A ++ B))
    (hB : ∀ b ∈ B, f b ≤ f x) :
    ∃ h, (∀ m j, A.length ≤ m → (A ++ x :: B).length ≤ j → heapSort f m (A ++ x :: B) A.length j = h) ∧
      h.Perm (x :: (A ++ B)) ∧ Ordered f h := by
  induction A using List.reverseRecOn generalizing B with
  | nil => exact absurd rfl hA
  | append_singleton A a ih =>
    have hprev : (A ++ [a] ++ x :: B).getD ((A ++ [a]).length - 1) 0 = a := by simp
    have hhere : (A ++ [a] ++ x :: B).getD (A ++ [a]).length 0 = x := by simp
    have hswap : ((A ++ [a] ++ x :: B).set ((A ++ [a]).length - 1) x).set (A ++ [a]).length a = A ++ x :: a :: B := by
      simp
    have hin : (A ++ [a]).length < (A ++ [a] ++ x :: B).length := by simp
    have hround (m j : Nat) (hm : (A ++ [a]).length ≤ m) : ∃ m', m = m' + 1 ∧ A.length ≤ m' := by
      rw [List.length_append, List.length_singleton] at hm
      exact ⟨m - 1, by omega, by omega⟩
    by_cases hax : f x ≤ f a
    · refine ⟨A ++ [a] ++ x :: B, ?_, List.perm_middle, ?_⟩
      · intro m j hm hj
        obtain ⟨m', rfl, -⟩ := hround m j hm
        rw [heapSort, if_pos hin, hprev, hhere, if_pos hax]
        exact heapSort_end m' hj
      · rw [Ordered, List.pairwise_append] at hord ⊢
        obtain ⟨hordA, hordB, hAB⟩ := hord
        refine ⟨hordA, List.pairwise_cons.mpr ⟨hB, hordB⟩, ?_⟩
        have hxA : ∀ b ∈ A ++ [a], f x ≤ f b := by
          intro b hb
          rcases List.mem_append.mp hb with hb | hb
          · exact hax.trans ((List.pairwise_append.mp hordA).2.2 b hb a (List.mem_singleton_self a))
          · exact List.mem_singleton.mp hb ▸ hax
        intro b hb c hc
        rcases List.mem_cons.mp hc with rfl | hc
        · exact hxA b hb
        · exact hAB b hb c hc
    · have hperm : (A ++ x :: a :: B).Perm (x :: (A ++ [a] ++ B)) := by
        rw [List.append_assoc, List.singleton_append]
        exact List.perm_middle
      have hlen : (A ++ x :: a :: B).length = (A ++ [a] ++ x :: B).length := by simp
      by_cases hnil : A = []
      · subst hnil
        refine ⟨x :: a :: B, ?_, hperm, ?_⟩
        · intro m j hm hj
          obtain ⟨m', rfl, -⟩ := hround m j hm
          rw [heapSort, if_pos hin, hprev, hhere, if_neg hax, hswap]
          exact heapSort_end m' (hlen ▸ hj)
        · refine List.pairwise_cons.mpr ⟨?_, hord⟩
          intro b hb
          rcases List.mem_cons.mp hb with rfl | hb
          · exact (not_le.mp hax).le
          · exact hB b hb
      · rw [List.append_assoc, List.singleton_append] at hord
        have hB' : ∀ b ∈ a :: B, f b ≤ f x := by
          intro b hb
          rcases List.mem_cons.mp hb with rfl | hb
          · exact (not_le.mp hax).le
          · exact hB b hb
        obtain ⟨h, hrun, hperm', hord'⟩ := ih (a :: B) hnil hord hB'
        refine ⟨h, ?_, ?_, hord'⟩
        · intro m j hm hj
          obtain ⟨m', rfl, hm'⟩ := hround m j hm
          have hpos : A.length ≠ 0 := fun h0 => hnil (List.length_eq_zero_iff.mp h0)
          have hback : (A ++ [a]).length - 1 = A.length := by simp
          rw [heapSort, if_pos hin, hprev, hhere, if_neg hax, hswap, if_neg (by rw [hback]; exact hpos), hback]
          exact hrun m' j hm' (hlen ▸ hj)
        · rw [List.append_assoc, List.singleton_append]
          exact hperm'

/-- With rounds enough the sort ends, and what was added stands in its place. -/
theorem heapSort_spec {h : List Nat} (hord : Ordered f h) (ind : Nat) :
    ∃ h', (∀ m, 2 * h.length ≤ m → heapSort f m (h ++ [ind]) 1 2 = h') ∧ h'.Perm (ind :: h) ∧ Ordered f h' := by
  by_cases hnil : h = []
  · subst hnil
    exact ⟨[ind], fun m _ => heapSort_end m le_rfl, .refl _, List.pairwise_singleton _ _⟩
  · obtain ⟨h', hrun, hperm, hord'⟩ := heapSort_back h [] hnil (by rwa [List.append_nil])
      (fun b hb => absurd hb List.not_mem_nil)
    rw [List.append_nil] at hperm
    have hpos : 0 < h.length := List.length_pos_iff.mpr hnil
    refine ⟨h', ?_, hperm, hord'⟩
    intro m hm
    have hfwd := heapSort_forward ind hord (h.length - 1) (m - (h.length - 1)) (by omega)
    have hm' : m - (h.length - 1) + (h.length - 1) = m := by omega
    have hone : h.length - (h.length - 1) = 1 := by omega
    rw [hm', hone] at hfwd
    rw [hfwd]
    exact hrun _ _ (by omega) (by rw [List.length_append, List.length_singleton])

theorem heapAdd_spec {h : List Nat} (hord : Ordered f h) (ind : Nat) :
    (heapAdd f h ind).Perm (ind :: h) ∧ Ordered f (heapAdd f h ind) := by
  obtain ⟨h', hrun, hperm, hord'⟩ := heapSort_spec hord ind
  have hadd : heapAdd f h ind = h' := by
    refine hrun _ ?_
    rw [List.length_append, List.length_singleton]
    nlinarith [Nat.zero_le (h.length * h.length)]
  rw [hadd]
  exact ⟨hperm, hord'⟩

end Heap

/-! The trees. -/

def freqOf (items : List Huffitem) (i : Nat) : Nat := (items.map Huffitem.freq).getD i 0

/-- The items that get a code. -/
def nonzero (items : List Huffitem) : Finset Nat := (Finset.range items.length).filter fun i => freqOf items i ≠ 0

/-- The trees of the nodes: of the items and, after them, of each round. -/
def nodes (numitems : Nat) (revtree : List (Nat × Nat)) : List (CodeTree Nat) :=
  revtree.foldl (fun ts r => ts ++ [.node (ts.getD r.1 (.leaf 0)) (ts.getD r.2 (.leaf 0))])
    ((List.range numitems).map .leaf)

def treeAt (numitems : Nat) (revtree : List (Nat × Nat)) (i : Nat) : CodeTree Nat := (nodes numitems revtree).getD i (.leaf 0)

section Nodes
variable {n : Nat}

private theorem nodes_append (n : Nat) (rt : List (Nat × Nat)) (a b : Nat) :
    nodes n (rt ++ [(a, b)]) = nodes n rt ++ [.node (treeAt n rt a) (treeAt n rt b)] := by
  rw [nodes, List.foldl_append]
  rfl

private theorem nodes_length (n : Nat) (rt : List (Nat × Nat)) : (nodes n rt).length = n + rt.length := by
  induction rt using List.reverseRecOn with
  | nil => simp [nodes]
  | append_singleton rt r ih =>
    rw [nodes_append, List.length_append, ih, List.length_append]
    rfl

private theorem treeAt_nil {i : Nat} (hi : i < n) : treeAt n [] i = .leaf i := by
  simp [treeAt, nodes, hi]

private theorem treeAt_old {rt : List (Nat × Nat)} {i : Nat} (hi : i < n + rt.length) (a b : Nat) :
    treeAt n (rt ++ [(a, b)]) i = treeAt n rt i := by
  rw [treeAt, nodes_append, List.getD_append _ _ _ _ (by rwa [nodes_length])]
  rfl

private theorem treeAt_new (n : Nat) (rt : List (Nat × Nat)) (a b : Nat) :
    treeAt n (rt ++ [(a, b)]) (n + rt.length) = .node (treeAt n rt a) (treeAt n rt b) := by
  rw [treeAt, nodes_append, List.getD_append_right _ _ _ _ (nodes_length n rt).le, nodes_length, Nat.sub_self]
  rfl

end Nodes

def children (revtree : List (Nat × Nat)) : List Nat := revtree.flatMap fun r => [r.1, r.2]

/-- What the rounds of `huff_init` keep. -/
structure Forest.Grown (items : List Huffitem) (s : Forest) : Prop where
  extf : s.extf = items.length + s.revtree.length
  preds_length : s.preds.length = 2 * items.length
  efreqs_length : s.efreqs.length = 2 * items.length
  ordered : Ordered s.freq s.heap
  known : ∀ i ∈ s.heap, i < s.extf
  once : (s.heap ++ children s.revtree).Nodup
  count : s.revtree.length + s.heap.length = (nonzero items).card
  last : ∀ k, s.revtree.length = k + 1 → items.length + k ∈ s.heap
  freqs : ∀ i < s.extf, s.freq i = (treeAt items.length s.revtree i).weight (freqOf items)
  leaf : ∀ i < items.length, treeAt items.length s.revtree i = .leaf i
  node : ∀ k a b, s.revtree[k]? = some (a, b) → a < items.length + k ∧ b < items.length + k ∧
    treeAt items.length s.revtree (items.length + k) = .node (treeAt items.length s.revtree a) (treeAt items.length s.revtree b)
  links : ∀ k a b, s.revtree[k]? = some (a, b) →
    s.preds.getD a 0 = -((items.length + k : Nat) : Int) ∧ s.preds.getD b 0 = ((items.length + k : Nat) : Int)
  run : ReflTransGen (Merge (freqOf items)) ((nonzero items).val.map .leaf)
    (s.heap.map (treeAt items.length s.revtree) : Multiset (CodeTree Nat))

variable {items : List Huffitem}

private theorem nonzero_card_le (items : List Huffitem) : (nonzero items).card ≤ items.length :=
  (Finset.card_filter_le _ _).trans_eq (Finset.card_range _)

private theorem leaves_freq (items : List Huffitem) {i : Nat} (hi : i < items.length) :
    (leaves items).freq i = freqOf items i := by
  rw [Forest.freq, leaves, List.getD_append _ _ _ _ (by rwa [List.length_map])]
  rfl

private theorem leaves_heap (items : List Huffitem) : Ordered (leaves items).freq (leaves items).heap ∧
    (leaves items).heap.Perm ((List.range items.length).filter fun i => freqOf items i ≠ 0) := by
  refine rounds_induct (motive := fun k heap => Ordered (leaves items).freq heap ∧
    heap.Perm ((List.range k).filter fun i => freqOf items i ≠ 0)) items.length ⟨List.Pairwise.nil, .refl _⟩ ?_
  intro k hk ⟨hord, hperm⟩
  have hfreq : (leaves items).efreqs.getD k 0 = freqOf items k := leaves_freq items hk
  rw [List.range_succ, List.filter_append]
  change Ordered _ (if 0 < (leaves items).efreqs.getD k 0 then heapAdd (leaves items).freq _ k else _) ∧
    List.Perm (if 0 < (leaves items).efreqs.getD k 0 then heapAdd (leaves items).freq _ k else _) _
  rw [hfreq]
  by_cases h0 : freqOf items k = 0
  · rw [if_neg (by omega)]
    refine ⟨hord, ?_⟩
    simpa [h0] using hperm
  · obtain ⟨hadd, hord'⟩ := heapAdd_spec hord k
    rw [if_pos (Nat.pos_of_ne_zero h0)]
    refine ⟨hord', hadd.trans ?_⟩
    have hk1 : ([k].filter fun i => decide (freqOf items i ≠ 0)) = [k] := by simp [h0]
    rw [hk1]
    exact (hperm.cons k).trans (List.perm_append_singleton k _).symm

theorem leaves_grown (items : List Huffitem) : (leaves items).Grown items := by
  obtain ⟨hord, hperm⟩ := leaves_heap items
  have hmem {i : Nat} (hi : i ∈ (leaves items).heap) : i < items.length :=
    List.mem_range.mp (List.mem_filter.mp (hperm.subset hi)).1
  have hval : ((leaves items).heap : Multiset Nat) = (nonzero items).val := by
    rw [Multiset.coe_eq_coe.mpr hperm]
    rfl
  have hnone {k : Nat} {r : Nat × Nat} (h : ([] : List (Nat × Nat))[k]? = some r) : False := by simp at h
  refine ⟨rfl, ?_, ?_, hord, fun i hi => hmem hi, ?_, ?_, fun k hk => absurd hk (by simp [leaves]), ?_, ?_,
    fun k a b h => (hnone h).elim, fun k a b h => (hnone h).elim, ?_⟩
  · simp [leaves]
  · simp [leaves]
    omega
  · have hnd := hperm.nodup_iff.mpr (List.nodup_range.filter _)
    simpa [children, leaves] using hnd
  · have hcard := congrArg Multiset.card hval
    rw [Multiset.coe_card] at hcard
    change 0 + (leaves items).heap.length = _
    rw [Nat.zero_add, hcard]
    rfl
  · intro i hi
    change i < items.length at hi
    rw [leaves_freq items hi]
    change _ = CodeTree.weight _ (treeAt items.length [] i)
    rw [treeAt_nil hi]
    rfl
  · intro i hi
    exact treeAt_nil hi
  · have hleaf : (leaves items).heap.map (treeAt items.length (leaves items).revtree) = (leaves items).heap.map .leaf :=
      List.map_congr_left fun i hi => treeAt_nil (hmem hi)
    rw [hleaf, ← Multiset.map_coe, hval]

/-! One round. -/

private theorem getD_set_self {α : Type*} (l : List α) (i : Nat) (x d : α) (hi : i < l.length) :
    (l.set i x).getD i d = x := by
  rw [List.getD_eq_getElem _ _ (by rwa [List.length_set]), List.getElem_set_self]

private theorem getD_set_ne {α : Type*} (l : List α) {i j : Nat} (x d : α) (hij : i ≠ j) :
    (l.set i x).getD j d = l.getD j d := by
  rw [List.getD_eq_getElem?_getD, List.getElem?_set_ne hij, List.getD_eq_getElem?_getD]

private theorem child_mem {rt : List (Nat × Nat)} {k a b : Nat} (h : rt[k]? = some (a, b)) :
    a ∈ children rt ∧ b ∈ children rt := by
  have hmem := List.mem_of_getElem? h
  exact ⟨List.mem_flatMap.mpr ⟨_, hmem, List.mem_cons_self⟩,
    List.mem_flatMap.mpr ⟨_, hmem, List.mem_cons_of_mem _ List.mem_cons_self⟩⟩

private theorem snoc_cases {α : Type*} {l : List α} {x y : α} {k : Nat} (h : (l ++ [x])[k]? = some y) :
    l[k]? = some y ∨ k = l.length ∧ y = x := by
  rcases lt_trichotomy k l.length with hk | hk | hk
  · rw [List.getElem?_append_left hk] at h
    exact .inl h
  · subst hk
    rw [List.getElem?_append_right le_rfl, Nat.sub_self, List.getElem?_cons_zero] at h
    exact .inr ⟨rfl, (Option.some.inj h).symm⟩
  · rw [List.getElem?_eq_none (by rw [List.length_append, List.length_singleton]; omega)] at h
    exact absurd h (by simp)

section Round
variable {s : Forest} {r1 r2 : Nat} {rest : List Nat}

private theorem Forest.Grown.taken (hs : s.Grown items) (hheap : s.heap = rest ++ [r2, r1]) :
    r1 < s.extf ∧ r2 < s.extf ∧ r1 ≠ r2 ∧ s.extf < 2 * items.length ∧
    (∀ i ∈ rest, i < s.extf ∧ s.freq r1 ≤ s.freq i ∧ s.freq r2 ≤ s.freq i) := by
  have hord := hs.ordered
  have honce := hs.once.of_append_left
  have hcount := hs.count
  have hcard := nonzero_card_le items
  rw [hheap] at hord honce hcount
  rw [List.length_append, List.length_cons, List.length_singleton] at hcount
  have hknown {i : Nat} (hi : i ∈ rest ++ [r2, r1]) : i < s.extf := hs.known i (hheap ▸ hi)
  have hext := hs.extf
  refine ⟨hknown (by simp), hknown (by simp), ?_, by omega, fun i hi => ⟨hknown (by simp [hi]), ?_, ?_⟩⟩
  · rintro rfl
    exact absurd honce.of_append_right (by simp)
  · exact (List.pairwise_append.mp hord).2.2 i hi r1 (by simp)
  · exact (List.pairwise_append.mp hord).2.2 i hi r2 (by simp)

private theorem Forest.Grown.merge_freq (hs : s.Grown items) (hheap : s.heap = rest ++ [r2, r1]) :
    (merge s r1 r2 rest).freq s.extf = s.freq r1 + s.freq r2 ∧
    ∀ i < s.extf, (merge s r1 r2 rest).freq i = s.freq i := by
  obtain ⟨-, -, -, hext, -⟩ := hs.taken hheap
  refine ⟨?_, fun i hi => ?_⟩
  · exact getD_set_self _ _ _ _ (by rwa [hs.efreqs_length])
  · exact getD_set_ne _ _ _ (Nat.ne_of_gt hi)

private theorem Forest.Grown.merge_heap (hs : s.Grown items) (hheap : s.heap = rest ++ [r2, r1]) :
    (merge s r1 r2 rest).heap.Perm (s.extf :: rest) ∧ Ordered (merge s r1 r2 rest).freq (merge s r1 r2 rest).heap := by
  obtain ⟨-, -, -, -, hrest⟩ := hs.taken hheap
  have hord : Ordered (merge s r1 r2 rest).freq rest := by
    have h := hs.ordered
    rw [hheap] at h
    refine (List.pairwise_append.mp h).1.imp_of_mem fun ha hb hle => ?_
    rwa [(hs.merge_freq hheap).2 _ (hrest _ ha).1, (hs.merge_freq hheap).2 _ (hrest _ hb).1]
  exact heapAdd_spec hord s.extf

private theorem Forest.Grown.merge_once (hs : s.Grown items) (hheap : s.heap = rest ++ [r2, r1]) :
    ((merge s r1 r2 rest).heap ++ children (merge s r1 r2 rest).revtree).Nodup := by
  have hperm : ((merge s r1 r2 rest).heap ++ children (merge s r1 r2 rest).revtree).Perm
      (s.extf :: (s.heap ++ children s.revtree)) := by
    have hch : children (merge s r1 r2 rest).revtree = children s.revtree ++ [r2, r1] := by
      rw [children, merge, List.flatMap_append]
      rfl
    rw [hch, hheap, ← List.cons_append, ← List.cons_append, List.append_assoc]
    exact (hs.merge_heap hheap).1.append List.perm_append_comm
  rw [hperm.nodup_iff, List.nodup_cons]
  refine ⟨fun hmem => ?_, hs.once⟩
  rcases List.mem_append.mp hmem with hmem | hmem
  · exact absurd (hs.known _ hmem) (lt_irrefl _)
  · obtain ⟨⟨a, b⟩, hr, hab⟩ := List.mem_flatMap.mp hmem
    obtain ⟨k, hk, hr⟩ := List.mem_iff_getElem.mp hr
    obtain ⟨ha, hb, -⟩ := hs.node k a b (by rw [List.getElem?_eq_getElem hk, hr])
    have hext := hs.extf
    simp only [List.mem_cons, List.not_mem_nil, or_false] at hab
    omega

private theorem Forest.Grown.merge_links (hs : s.Grown items) (hheap : s.heap = rest ++ [r2, r1]) (k a b : Nat)
    (h : (merge s r1 r2 rest).revtree[k]? = some (a, b)) :
    (merge s r1 r2 rest).preds.getD a 0 = -((items.length + k : Nat) : Int) ∧
    (merge s r1 r2 rest).preds.getD b 0 = ((items.length + k : Nat) : Int) := by
  obtain ⟨h1, h2, hne, hext, -⟩ := hs.taken hheap
  have hplen := hs.preds_length
  change ((s.preds.set r1 s.extf).set r2 (-s.extf)).getD a 0 = _ ∧ ((s.preds.set r1 s.extf).set r2 (-s.extf)).getD b 0 = _
  rcases snoc_cases h with h | ⟨rfl, heq⟩
  · -- What had a node above it is not on the heap any more.
    have hdisj := List.disjoint_of_nodup_append hs.once
    have hr1 : r1 ∈ s.heap := by simp [hheap]
    have hr2 : r2 ∈ s.heap := by simp [hheap]
    obtain ⟨hca, hcb⟩ := child_mem h
    have hold {c : Nat} (hc : c ∈ children s.revtree) : ((s.preds.set r1 s.extf).set r2 (-s.extf)).getD c 0 = s.preds.getD c 0 := by
      rw [getD_set_ne _ _ _ fun he : r2 = c => hdisj hr2 (he ▸ hc), getD_set_ne _ _ _ fun he : r1 = c => hdisj hr1 (he ▸ hc)]
    rw [hold hca, hold hcb]
    exact hs.links k a b h
  · obtain ⟨rfl, rfl⟩ := Prod.mk.inj heq
    rw [← hs.extf]
    refine ⟨getD_set_self _ _ _ _ (by rw [List.length_set]; omega), ?_⟩
    rw [getD_set_ne _ _ _ hne.symm]
    exact getD_set_self _ _ _ _ (by omega)

private theorem Forest.Grown.merge_run (hs : s.Grown items) (hheap : s.heap = rest ++ [r2, r1]) :
    ReflTransGen (Merge (freqOf items)) ((nonzero items).val.map .leaf)
      ((merge s r1 r2 rest).heap.map (treeAt items.length (merge s r1 r2 rest).revtree) : Multiset (CodeTree Nat)) := by
  obtain ⟨h1, h2, -, -, hrest⟩ := hs.taken hheap
  let t := treeAt items.length s.revtree
  have hweight {i : Nat} (hi : i < s.extf) : (t i).weight (freqOf items) = s.freq i := (hs.freqs i hi).symm
  have hext := hs.extf
  have hnew : treeAt items.length (merge s r1 r2 rest).revtree s.extf = .node (t r2) (t r1) := by
    rw [hext]
    exact treeAt_new _ _ _ _
  have hold : ∀ i ∈ rest, treeAt items.length (merge s r1 r2 rest).revtree i = t i :=
    fun i hi => treeAt_old (hext ▸ (hrest i hi).1) _ _
  have hto : ((merge s r1 r2 rest).heap.map (treeAt items.length (merge s r1 r2 rest).revtree) : Multiset (CodeTree Nat)) =
      .node (t r2) (t r1) ::ₘ (rest.map t : Multiset (CodeTree Nat)) := by
    rw [Multiset.coe_eq_coe.mpr ((hs.merge_heap hheap).1.map _), List.map_cons, hnew, List.map_congr_left hold]
    rfl
  have hfrom : (s.heap.map t : Multiset (CodeTree Nat)) = t r2 ::ₘ t r1 ::ₘ (rest.map t : Multiset (CodeTree Nat)) := by
    rw [hheap, List.map_append]
    exact Multiset.coe_eq_coe.mpr List.perm_append_comm
  rw [hto]
  refine hs.run.tail ?_
  change Merge _ (s.heap.map t : Multiset (CodeTree Nat)) _
  rw [hfrom]
  refine .intro fun u hu => ?_
  obtain ⟨i, hi, rfl⟩ := List.mem_map.mp (Multiset.mem_coe.mp hu)
  obtain ⟨hik, hle1, hle2⟩ := hrest i hi
  rw [hweight h2, hweight h1, hweight hik]
  exact ⟨hle2, hle1⟩

theorem Forest.Grown.merge (hs : s.Grown items) (hheap : s.heap = rest ++ [r2, r1]) : (merge s r1 r2 rest).Grown items := by
  obtain ⟨h1, h2, hne, hext2, hrest⟩ := hs.taken hheap
  obtain ⟨hperm, hord⟩ := hs.merge_heap hheap
  obtain ⟨hfnew, hfold⟩ := hs.merge_freq hheap
  have hext := hs.extf
  have htree {i : Nat} (hi : i < s.extf) :
      treeAt items.length (HuffCodes.merge s r1 r2 rest).revtree i = treeAt items.length s.revtree i :=
    treeAt_old (hext ▸ hi) _ _
  have hnew : treeAt items.length (HuffCodes.merge s r1 r2 rest).revtree s.extf =
      .node (treeAt items.length s.revtree r2) (treeAt items.length s.revtree r1) := by
    rw [hext]
    exact treeAt_new _ _ _ _
  have hlen : (HuffCodes.merge s r1 r2 rest).revtree.length = s.revtree.length + 1 := List.length_append
  refine ⟨?_, ?_, ?_, hord, ?_, hs.merge_once hheap, ?_, ?_, ?_, ?_, ?_, hs.merge_links hheap, hs.merge_run hheap⟩
  · rw [hlen, ← Nat.add_assoc, ← hext]
    rfl
  · change ((s.preds.set r1 s.extf).set r2 (-s.extf)).length = _
    rw [List.length_set, List.length_set, hs.preds_length]
  · change (s.efreqs.set s.extf _).length = _
    rw [List.length_set, hs.efreqs_length]
  · intro i hi
    change i < s.extf + 1
    rcases List.mem_cons.mp (hperm.subset hi) with rfl | hi
    · exact Nat.lt_succ_self _
    · exact Nat.lt_succ_of_lt (hrest i hi).1
  · have hcount := hs.count
    rw [hheap, List.length_append, List.length_cons, List.length_singleton] at hcount
    rw [hlen, hperm.length_eq, List.length_cons]
    omega
  · intro k hk
    have hke : items.length + k = s.extf := by omega
    rw [hke]
    exact hperm.symm.subset List.mem_cons_self
  · intro i hi
    rcases Nat.lt_succ_iff_lt_or_eq.mp hi with hi | rfl
    · rw [hfold i hi, htree hi]
      exact hs.freqs i hi
    · rw [hfnew, hnew, CodeTree.weight, ← hs.freqs r2 h2, ← hs.freqs r1 h1, add_comm]
  · intro i hi
    rw [htree (by omega)]
    exact hs.leaf i hi
  · intro k a b h
    rcases snoc_cases h with h | ⟨rfl, heq⟩
    · obtain ⟨ha, hb, ht⟩ := hs.node k a b h
      have hk : k < s.revtree.length := (List.getElem?_eq_some_iff.mp h).1
      rw [htree (by omega), htree (by omega), htree (by omega)]
      exact ⟨ha, hb, ht⟩
    · obtain ⟨rfl, rfl⟩ := Prod.mk.inj heq
      rw [← hext, htree h1, htree h2]
      exact ⟨h2, h1, hnew⟩

end Round

/-- The rounds end with one node on the heap. -/
theorem mergeAll_grown (m : Nat) {s : Forest} (hs : s.Grown items) (hne : s.heap ≠ []) (hm : s.heap.length ≤ m + 1) :
    (mergeAll m s).Grown items ∧ (mergeAll m s).heap.length = 1 := by
  induction m generalizing s with
  | zero =>
    have hpos := List.length_pos_iff.mpr hne
    exact ⟨hs, by rw [mergeAll]; omega⟩
  | succ m ih =>
    rw [mergeAll]
    split
    case h_1 r1 r2 rest hrev =>
      have hheap : s.heap = rest.reverse ++ [r2, r1] := by
        rw [← List.reverse_reverse s.heap, hrev]
        simp
      have hperm := (hs.merge_heap hheap).1
      refine ih (hs.merge hheap) ?_ ?_
      · intro hnil
        rw [hnil] at hperm
        exact absurd hperm.symm.eq_nil (by simp)
      · rw [hheap, List.length_append, List.length_cons, List.length_singleton] at hm
        rw [hperm.length_eq, List.length_cons]
        omega
    case h_2 hshort =>
      refine ⟨hs, ?_⟩
      match hrev : s.heap.reverse with
      | [] => exact absurd (List.reverse_eq_nil_iff.mp hrev) hne
      | [r] => rw [← List.length_reverse, hrev, List.length_singleton]
      | r1 :: r2 :: rest => exact absurd hrev (hshort r1 r2 rest)

/-- What `huff_init` ends with: one tree over the last node. -/
structure Forest.Finished (items : List Huffitem) (s : Forest) (root : Nat) : Prop where
  extf : s.extf = items.length + s.revtree.length
  root_eq : root + 1 = s.extf
  root_le : root < 2 * items.length
  preds_length : s.preds.length = 2 * items.length
  leaf : ∀ i < items.length, treeAt items.length s.revtree i = .leaf i
  node : ∀ k a b, s.revtree[k]? = some (a, b) → a < items.length + k ∧ b < items.length + k ∧
    treeAt items.length s.revtree (items.length + k) = .node (treeAt items.length s.revtree a) (treeAt items.length s.revtree b)
  links : ∀ k a b, s.revtree[k]? = some (a, b) →
    s.preds.getD a 0 = -((items.length + k : Nat) : Int) ∧ s.preds.getD b 0 = ((items.length + k : Nat) : Int)
  top : s.preds.getD root 0 = root
  run : ReflTransGen (Merge (freqOf items)) ((nonzero items).val.map .leaf) {treeAt items.length s.revtree root}

theorem huffInit_finished (items : List Huffitem) (h2 : 2 ≤ (nonzero items).card) :
    ∃ root, (huffInit items).Finished items root := by
  have hl := leaves_grown items
  have hcard : (leaves items).heap.length = (nonzero items).card := by
    have hcount := hl.count
    rwa [leaves, List.length_nil, Nat.zero_add] at hcount
  have hle := nonzero_card_le items
  obtain ⟨hs, hone⟩ := mergeAll_grown items.length hl (List.length_pos_iff.mp (by omega)) (by omega)
  rw [huffInit]
  generalize mergeAll items.length (leaves items) = s at hs hone ⊢
  obtain ⟨root, hroot⟩ := List.length_eq_one_iff.mp hone
  have hcount := hs.count
  have hext := hs.extf
  have hlast := hs.last (s.revtree.length - 1) (by omega)
  rw [hroot, List.mem_singleton] at hlast
  have hplen := hs.preds_length
  refine ⟨root, ?_⟩
  simp only [hroot, List.reverse_singleton, List.reverse_nil]
  refine ⟨hext, ?_, ?_, ?_, hs.leaf, hs.node, ?_, ?_, ?_⟩
  · change root + 1 = s.extf
    omega
  · omega
  · change (s.preds.set root root).length = _
    rw [List.length_set, hplen]
  · intro k a b h
    obtain ⟨hca, hcb⟩ := child_mem h
    have hfree {c : Nat} (hc : c ∈ children s.revtree) : root ≠ c := by
      rintro rfl
      exact List.disjoint_of_nodup_append hs.once (by simp [hroot]) hc
    change (s.preds.set root root).getD a 0 = _ ∧ (s.preds.set root root).getD b 0 = _
    rw [getD_set_ne _ _ _ (hfree hca), getD_set_ne _ _ _ (hfree hcb)]
    exact hs.links k a b h
  · exact getD_set_self _ _ _ _ (by omega)
  · have hrun := hs.run
    rwa [hroot] at hrun

/-! The way up. -/

section Finished
variable {s : Forest} {root : Nat}

/-- What holds of the items and goes over to the node above two nodes holds of all of them. -/
theorem Forest.Finished.induct (hs : s.Finished items root) {motive : Nat → Prop} (leaf : ∀ i < items.length, motive i)
    (node : ∀ k a b, s.revtree[k]? = some (a, b) → motive a → motive b → motive (items.length + k)) :
    ∀ j < s.extf, motive j := by
  intro j
  induction j using Nat.strong_induction_on with
  | _ j ih =>
    intro hj
    by_cases hleaf : j < items.length
    · exact leaf j hleaf
    · have hext := hs.extf
      obtain ⟨k, rfl⟩ := Nat.exists_eq_add_of_le (not_lt.mp hleaf)
      have hk : k < s.revtree.length := by omega
      have hr : s.revtree[k]? = some (s.revtree[k].1, s.revtree[k].2) := List.getElem?_eq_getElem hk
      obtain ⟨ha, hb, -⟩ := hs.node k _ _ hr
      exact node k _ _ hr (ih _ ha (by omega)) (ih _ hb (by omega))

/-- No tree is higher than the rounds that went into it. -/
theorem Forest.Finished.height_le (hs : s.Finished items root) :
    ∀ j < s.extf, (treeAt items.length s.revtree j).height ≤ j + 1 - items.length := by
  have hnode : ∀ k a b, s.revtree[k]? = some (a, b) →
      (treeAt items.length s.revtree a).height ≤ a + 1 - items.length →
      (treeAt items.length s.revtree b).height ≤ b + 1 - items.length →
      (treeAt items.length s.revtree (items.length + k)).height ≤ items.length + k + 1 - items.length := by
    intro k a b h iha ihb
    obtain ⟨ha, hb, ht⟩ := hs.node k a b h
    rw [ht, CodeTree.height]
    omega
  refine hs.induct (fun i hi => ?_) hnode
  rw [hs.leaf i hi]
  exact Nat.zero_le _

private theorem climb_zero_bit {preds : List Int} {a j : Nat} (h : preds.getD a 0 = -(j : Int)) (hj : a < j) (m : Nat) :
    climb preds (m + 1) a = false :: climb preds m j := by
  have hpred : -(j : Int) ≠ a ∧ - -(j : Int) ≠ a := by omega
  have hneg : ¬ (0 : Int) ≤ -(j : Int) := by omega
  rw [climb, h]
  simp only [if_pos hpred, if_neg hneg]
  rw [neg_neg, Int.toNat_natCast]

private theorem climb_one_bit {preds : List Int} {b j : Nat} (h : preds.getD b 0 = (j : Int)) (hj : b < j) (m : Nat) :
    climb preds (m + 1) b = true :: climb preds m j := by
  have hpred : (j : Int) ≠ b ∧ -(j : Int) ≠ b := by omega
  have hpos : (0 : Int) ≤ j := by omega
  rw [climb, h]
  simp only [if_pos hpred, if_pos hpos, Int.toNat_natCast]

private theorem climb_top {preds : List Int} {root : Nat} (h : preds.getD root 0 = root) (m : Nat) :
    climb preds m root = [] := by
  cases m with
  | zero => rfl
  | succ m => rw [climb, h, if_neg fun hp => hp.1 rfl]

/-- From a leaf the links go back along its code, to the node whose tree it is in. -/
theorem Forest.Finished.climb_codes (hs : s.Finished items root) :
    ∀ j < s.extf, ∀ q ∈ (treeAt items.length s.revtree j).codes, ∀ m,
      climb s.preds (q.2.length + m) q.1 = q.2.reverse ++ climb s.preds m j := by
  refine hs.induct (motive := fun j => ∀ q ∈ (treeAt items.length s.revtree j).codes, ∀ m,
    climb s.preds (q.2.length + m) q.1 = q.2.reverse ++ climb s.preds m j) (fun i hi q hq m => ?_) ?_
  · rw [hs.leaf i hi, CodeTree.codes, List.mem_singleton] at hq
    subst hq
    rw [List.length_nil, Nat.zero_add]
    rfl
  · intro k a b h iha ihb q hq m
    obtain ⟨ha, hb, ht⟩ := hs.node k a b h
    obtain ⟨hla, hlb⟩ := hs.links k a b h
    rw [ht, CodeTree.codes, List.mem_append] at hq
    rcases hq with hq | hq
    · obtain ⟨q, hqa, rfl⟩ := List.mem_map.mp hq
      have hup := iha q hqa (m + 1)
      rw [climb_zero_bit hla ha m] at hup
      rw [List.length_cons, Nat.add_right_comm, List.reverse_cons, List.append_assoc]
      exact hup
    · obtain ⟨q, hqb, rfl⟩ := List.mem_map.mp hq
      have hup := ihb q hqb (m + 1)
      rw [climb_one_bit hlb hb m] at hup
      rw [List.length_cons, Nat.add_right_comm, List.reverse_cons, List.append_assoc]
      exact hup

/-- The walk from an item ends at the last node, with the item's code. -/
theorem Forest.Finished.climb_root (hs : s.Finished items root) {q : Nat × List Bool}
    (hq : q ∈ (treeAt items.length s.revtree root).codes) (m : Nat) (hm : s.preds.length ≤ m) :
    climb s.preds m q.1 = q.2.reverse := by
  have hroot : root < s.extf := by
    have := hs.root_eq
    omega
  have hlen := (CodeTree.length_le_height hq).trans (hs.height_le root hroot)
  have hle := hs.root_le
  have hplen := hs.preds_length
  obtain ⟨m', rfl⟩ := Nat.exists_eq_add_of_le (show q.2.length ≤ m by omega)
  rw [hs.climb_codes root hroot q hq m', climb_top hs.top, List.append_nil]

end Finished

/-- The code that `huff_calc` reads off the links, before it is put into the fields. -/
def itemCode (items : List Huffitem) (i : Nat) : List Bool :=
  (climb (huffInit items).preds (huffInit items).preds.length i).reverse

private theorem sum_getD (l : List Nat) : ∑ i ∈ Finset.range l.length, l.getD i 0 = l.sum := by
  induction l with
  | nil => rfl
  | cons x l ih =>
    rw [List.length_cons, Finset.sum_range_succ', List.sum_cons, ← ih, add_comm]
    rfl

theorem sum_nonzero (items : List Huffitem) (g : Nat → Nat) :
    ∑ i ∈ nonzero items, freqOf items i * g i = ∑ i ∈ Finset.range items.length, freqOf items i * g i := by
  rw [nonzero, Finset.sum_filter]
  refine Finset.sum_congr rfl fun i _ => ?_
  by_cases h : freqOf items i = 0
  · rw [if_neg (not_not.mpr h), h, Nat.zero_mul]
  · rw [if_pos h]

theorem sum_freqs (items : List Huffitem) : ∑ i ∈ nonzero items, freqOf items i = (items.map Huffitem.freq).sum := by
  have h := sum_nonzero items fun _ => 1
  simp only [mul_one] at h
  rw [h, ← sum_getD, List.length_map]
  rfl

section Codes

theorem itemCode_mem {root : Nat} (hs : (huffInit items).Finished items root) {i : Nat} (hi : i ∈ nonzero items) :
    (i, itemCode items i) ∈ (treeAt items.length (huffInit items).revtree root).codes := by
  have hmem : i ∈ (nonzero items).val := hi
  rw [← codes_fst hs.run, Multiset.mem_coe] at hmem
  obtain ⟨⟨j, p⟩, hq, rfl⟩ := List.mem_map.mp hmem
  have hup := hs.climb_root hq _ le_rfl
  rw [itemCode, hup, List.reverse_reverse]
  exact hq

variable (h2 : 2 ≤ (nonzero items).card)
include h2

/-- Longer walks give the same code: every walk has ended. -/
theorem climb_itemCode {i : Nat} (hi : i ∈ nonzero items) (m : Nat) (hm : (huffInit items).preds.length ≤ m) :
    climb (huffInit items).preds m i = (itemCode items i).reverse := by
  obtain ⟨root, hs⟩ := huffInit_finished items h2
  exact hs.climb_root (itemCode_mem hs hi) m hm

theorem itemCode_prefixCode : PrefixCode (nonzero items) (itemCode items) := by
  obtain ⟨root, hs⟩ := huffInit_finished items h2
  intro i hi j hj hij
  exact codes_not_prefix _ (itemCode_mem hs hi) (itemCode_mem hs hj) hij

/-- A code of 23 bits takes frequencies of 75025 and more. -/
theorem itemCode_length_le (hsum : (items.map Huffitem.freq).sum ≤ 65535) {i : Nat} (hi : i ∈ nonzero items) :
    (itemCode items i).length ≤ 22 := by
  obtain ⟨root, hs⟩ := huffInit_finished items h2
  have hpos : ∀ i ∈ nonzero items, 0 < freqOf items i := fun i hi => Nat.pos_of_ne_zero (Finset.mem_filter.mp hi).2
  have hfib := fib_height_le hs.run hpos
  rw [sum_freqs] at hfib
  by_contra hlong
  have hheight : 23 ≤ (treeAt items.length (huffInit items).revtree root).height :=
    (not_le.mp hlong).trans_le (CodeTree.length_le_height (itemCode_mem hs hi))
  have hbig : Nat.fib 25 ≤ 65535 := (Nat.fib_mono (Nat.add_le_add_right hheight 2)).trans (hfib.trans hsum)
  exact absurd hbig (by norm_num)

/-- No prefix code of the items takes fewer bits, each item written as often as its frequency says. -/
theorem itemCode_minimal {c : Nat → List Bool} (hc : PrefixCode (nonzero items) c) :
    ∑ i ∈ nonzero items, freqOf items i * (itemCode items i).length ≤ ∑ i ∈ nonzero items, freqOf items i * (c i).length := by
  obtain ⟨root, hs⟩ := huffInit_finished items h2
  have hcost := cost_le (Finset.one_lt_card_iff_nontrivial.mp h2) hs.run hc
  have hcodes : ∀ q ∈ (treeAt items.length (huffInit items).revtree root).codes, q.2 = itemCode items q.1 := by
    intro q hq
    rw [itemCode, hs.climb_root hq _ le_rfl, List.reverse_reverse]
  rw [CodeTree.cost_eq, List.map_congr_left fun q hq => by rw [hcodes q hq]] at hcost
  rwa [sum_codes hs.run fun i => freqOf items i * (itemCode items i).length] at hcost

end Codes

end SuperNet.Utils.HuffCodes
