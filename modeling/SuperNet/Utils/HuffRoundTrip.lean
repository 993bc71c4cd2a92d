import SuperNet.Utils.HuffTree
import SuperNet.Utils.HuffstreamBits

/-! `huff_encode` and `huff_decodeitem`: the codes of a sequence of items, and the walks down the tree that read them. -/
namespace SuperNet.Utils.HuffRoundTrip
open SuperNet.Lib.BitCodec SuperNet.Lib.Huffman SuperNet.Lib.Words SuperNet.Utils.HuffCodes SuperNet.Utils.Huffstream

instance : Inhabited Huffitem := ⟨⟨0, 0, 0, 0, []⟩⟩

/-- The bits that the fields `numbits` and `bits` stand for, in the order they are written. -/
def codeBits (item : Huffitem) : List Bool := leBits item.numbits item.bits

/-- `huff_encode`, with the number of bits that it returns. -/
def huffEncode (hp : Huff) (items : List Huffitem) : List Nat → Huff × Nat
  | [] => (hp, 0)
  | i :: itemis =>
    let item := items.getD i default
    let r := huffEncode (hputs hp (codeBits item)) items itemis
    (r.1, item.numbits + r.2)

/-- The `for` loop of `huff_decodeitem`, with the rounds that are left and the place `tree` points to;
`none` when it ends without a return. -/
def decodeRounds (hufftree : List Int) (numitems : Nat) : Nat → Nat → StateT Huff Option (Option (Option Nat))
  | 0, _ => pure none
  | n + 1, tree => do
    match ← getbit with
    | none => pure (some none)
    | some c =>
      let tmp := hufftree.getD (tree + c.toNat) 0
      if tmp < 0 then decodeRounds hufftree numitems n (tree + (-tmp).toNat)
      else if numitems ≤ tmp.toNat then pure (some none)
      else pure (some (some tmp.toNat))

/-- The `while` loop, for as many of its rounds; it has not returned when they are used up. -/
def decodeLoop (hufftree : List Int) (depth numitems : Nat) : Nat → StateT Huff Option (Option Nat)
  | 0 => fun _ => none
  | n + 1 => do
    match ← decodeRounds hufftree numitems depth 0 with
    | some item => pure item
    | none => decodeLoop hufftree depth numitems n

/-- `huff_decodeitem`: the place of the item in `items`, or a null pointer. -/
def huffDecodeitem (hufftree : List Int) (depth numitems : Nat) (items : Option (List Huffitem)) (n : Nat) :
    StateT Huff Option (Option Nat) :=
  if items.isNone then pure none else decodeLoop hufftree depth numitems n

/-! What is written. -/

/-- `huff_encode` writes the codes one after another. -/
theorem huffEncode_eq (hp : Huff) (items : List Huffitem) (itemis : List Nat) :
    huffEncode hp items itemis = (hputs hp (itemis.flatMap fun i => codeBits (items.getD i default)),
      (itemis.flatMap fun i => codeBits (items.getD i default)).length) := by
  induction itemis generalizing hp with
  | nil => rfl
  | cons i itemis ih =>
    rw [huffEncode, ih, List.flatMap_cons, hputs_append, List.length_append, codeBits, leBits_length]

section Decode
variable {items : List Huffitem} {s : Forest} {root : Nat}

/-- The tree of `huff_create`. -/
def treeArray (numitems : Nat) (revtree : List (Nat × Nat)) : List Int :=
  (revtree.zipIdx.reverse).flatMap fun r => [treeEntry numitems r.2 r.1.1, treeEntry numitems r.2 r.1.2]

private theorem flatMap_pair {α : Type*} (f g : α → Int) {L : List α} {m : Nat} {x : α} (h : L[m]? = some x) :
    (L.flatMap fun x => [f x, g x]).getD (2 * m) 0 = f x ∧ (L.flatMap fun x => [f x, g x]).getD (2 * m + 1) 0 = g x := by
  induction L generalizing m with
  | nil => exact absurd h (by simp)
  | cons y L ih =>
    cases m with
    | zero =>
      rw [List.getElem?_cons_zero] at h
      obtain rfl := Option.some.inj h
      exact ⟨rfl, rfl⟩
    | succ m => exact ih (by rwa [List.getElem?_cons_succ] at h)

private theorem treeArray_getD (n : Nat) {rt : List (Nat × Nat)} {k a b : Nat} (h : rt[k]? = some (a, b)) (bit : Bool) :
    (treeArray n rt).getD (2 * (rt.length - 1 - k) + bit.toNat) 0 = treeEntry n k (if bit then b else a) := by
  have hk : k < rt.length := (List.getElem?_eq_some_iff.mp h).1
  have hrev : rt.zipIdx.reverse[rt.length - 1 - k]? = some ((a, b), k) := by
    rw [List.getElem?_reverse (by rw [List.length_zipIdx]; omega), List.length_zipIdx]
    have hback : rt.length - 1 - (rt.length - 1 - k) = k := by omega
    rw [hback, List.getElem?_zipIdx, h]
    simp
  obtain ⟨hzero, hone⟩ := flatMap_pair (fun r : (Nat × Nat) × Nat => treeEntry n r.2 r.1.1)
    (fun r => treeEntry n r.2 r.1.2) hrev
  cases bit with
  | false => exact hzero
  | true => exact hone

private theorem child_parses (hs : s.Finished items root) {k c m : Nat} (hc : c < items.length + k)
    (hk : k < s.revtree.length) {q : Nat × List Bool} (hq : q ∈ (treeAt items.length s.revtree c).codes)
    (ih : ∀ k', c = items.length + k' → Parses Huff.Ahead
      (decodeRounds (treeArray items.length s.revtree) items.length m (2 * (s.revtree.length - 1 - k')))
      q.2 (some (some q.1))) :
    Parses Huff.Ahead
      (if treeEntry items.length k c < 0 then
        decodeRounds (treeArray items.length s.revtree) items.length m
          (2 * (s.revtree.length - 1 - k) + (-treeEntry items.length k c).toNat)
      else if items.length ≤ (treeEntry items.length k c).toNat then pure (some none)
      else pure (some (some (treeEntry items.length k c).toNat)))
      q.2 (some (some q.1)) := by
  by_cases hleaf : c < items.length
  · rw [hs.leaf c hleaf, CodeTree.codes, List.mem_singleton] at hq
    subst hq
    have hentry : treeEntry items.length k c = c := if_pos hleaf
    rw [hentry, if_neg (by omega), Int.toNat_natCast, if_neg (not_le.mpr hleaf)]
    exact Parses.pure _
  · obtain ⟨k', rfl⟩ := Nat.exists_eq_add_of_le (not_lt.mp hleaf)
    have hentry : treeEntry items.length k (items.length + k') = -(2 * (items.length + k - (items.length + k')) : Nat) :=
      if_neg hleaf
    have hplace : 2 * (s.revtree.length - 1 - k) + 2 * (items.length + k - (items.length + k')) =
        2 * (s.revtree.length - 1 - k') := by omega
    rw [hentry, if_pos (by omega), neg_neg, Int.toNat_natCast, hplace]
    exact ih k' rfl

/-- The walk down from the node of a round reads the code of a leaf below it. -/
theorem decodeRounds_parses (hs : s.Finished items root) :
    ∀ j < s.extf, ∀ q ∈ (treeAt items.length s.revtree j).codes, ∀ k, j = items.length + k → ∀ m, q.2.length ≤ m →
      Parses Huff.Ahead (decodeRounds (treeArray items.length s.revtree) items.length m (2 * (s.revtree.length - 1 - k)))
        q.2 (some (some q.1)) := by
  refine hs.induct (fun i hi q _ k hk => absurd hk (by omega)) ?_
  intro k a b h iha ihb q hq k' hk' m hm
  obtain rfl : k' = k := by omega
  obtain ⟨ha, hb, ht⟩ := hs.node k' a b h
  have hk : k' < s.revtree.length := (List.getElem?_eq_some_iff.mp h).1
  rw [ht, CodeTree.codes, List.mem_append] at hq
  rcases hq with hq | hq
  · obtain ⟨q, hqa, rfl⟩ := List.mem_map.mp hq
    obtain ⟨m, rfl⟩ : ∃ m', m = m' + 1 := Nat.exists_eq_add_of_le' (Nat.one_le_of_lt hm)
    change Parses Huff.Ahead _ ([false] ++ q.2) _
    refine (getbit_parses false).bind ?_
    have hchild := child_parses hs ha hk hqa fun k'' hk'' => iha q hqa k'' hk'' m (Nat.le_of_succ_le_succ hm)
    have hentry := treeArray_getD items.length h false
    rw [if_neg Bool.false_ne_true] at hentry
    rw [← hentry] at hchild
    exact hchild
  · obtain ⟨q, hqb, rfl⟩ := List.mem_map.mp hq
    obtain ⟨m, rfl⟩ : ∃ m', m = m' + 1 := Nat.exists_eq_add_of_le' (Nat.one_le_of_lt hm)
    change Parses Huff.Ahead _ ([true] ++ q.2) _
    refine (getbit_parses true).bind ?_
    have hchild := child_parses hs hb hk hqb fun k'' hk'' => ihb q hqb k'' hk'' m (Nat.le_of_succ_le_succ hm)
    have hentry := treeArray_getD items.length h true
    rw [if_pos rfl] at hentry
    rw [← hentry] at hchild
    exact hchild

theorem huffDecodeitem_parses (h2 : 2 ≤ (nonzero items).card) {i : Nat} (hi : i ∈ nonzero items)
    (coded : List Huffitem) (m : Nat) :
    Parses Huff.Ahead (huffDecodeitem (huffCreate items).1.tree (huffCreate items).1.depth (huffCreate items).1.numitems
      (some coded) (m + 1)) (itemCode items i) (some i) := by
  obtain ⟨root, hs⟩ := huffInit_finished items h2
  have hmem := itemCode_mem hs hi
  have hroot := hs.root_eq
  have hext := hs.extf
  have hheight := (CodeTree.length_le_height hmem).trans (hs.height_le root (by omega))
  -- With two items there is a node to walk down from.
  have hnode : items.length ≤ root := by
    by_contra hleaf
    have hone : (nonzero items).val.card = 1 := by
      rw [← codes_fst hs.run, hs.leaf root (not_le.mp hleaf)]
      rfl
    rw [Finset.card_val] at hone
    omega
  obtain ⟨k, rfl⟩ := Nat.exists_eq_add_of_le hnode
  have hwalk := decodeRounds_parses hs _ (by omega) _ hmem k rfl ((huffInit items).extf - items.length) (by omega)
  have hstart : 2 * ((huffInit items).revtree.length - 1 - k) = 0 := by omega
  rw [hstart] at hwalk
  have hloop := hwalk.bind (q := fun r => match r with
    | some item => pure item
    | none => decodeLoop (huffCreate items).1.tree (huffCreate items).1.depth (huffCreate items).1.numitems m)
    (Parses.pure (some i))
  rw [List.append_nil] at hloop
  exact hloop

theorem times_parses (h2 : 2 ≤ (nonzero items).card) (coded : List Huffitem) (m : Nat) {itemis : List Nat}
    (h : ∀ i ∈ itemis, i ∈ nonzero items) :
    Parses Huff.Ahead (times (huffDecodeitem (huffCreate items).1.tree (huffCreate items).1.depth
      (huffCreate items).1.numitems (some coded) (m + 1)) itemis.length)
      (itemis.flatMap (itemCode items)) (itemis.map some) := by
  induction itemis with
  | nil => exact Parses.pure []
  | cons i itemis ih =>
    rw [List.flatMap_cons]
    exact (huffDecodeitem_parses h2 (h i List.mem_cons_self) coded m).times_succ
      (ih fun j hj => h j (List.mem_cons_of_mem i hj))

end Decode

/-! The items with their codes. -/

section Create
variable {items : List Huffitem}

private theorem leBits_leNat (bs : List Bool) : leBits bs.length (leNat bs) = bs := by
  induction bs with
  | nil => rfl
  | cons b bs ih =>
    have hdiv : (b.toNat + 2 * leNat bs) / 2 = leNat bs := by
      cases b with
      | false => simp
      | true =>
        rw [Bool.toNat_true]
        omega
    have hmod : decide ((b.toNat + 2 * leNat bs) % 2 = 1) = b := by
      cases b <;> simp
    rw [List.length_cons, leBits, leNat, hdiv, hmod, ih]

private theorem leNat_lt (bs : List Bool) : leNat bs < 2^bs.length := by
  rw [← leBits_leNat bs, leNat_leBits, leBits_length]
  exact Nat.mod_lt _ (Nat.two_pow_pos _)

/-- The fields lose nothing of a code that fits. -/
theorem huffCreate_fields {i : Nat} (hi : i ∈ nonzero items) (hlen : (itemCode items i).length ≤ 22) :
    ((huffCreate items).2.getD i default).numbits = (itemCode items i).length ∧
    ((huffCreate items).2.getD i default).bits = leNat (itemCode items i) ∧
    codeBits ((huffCreate items).2.getD i default) = itemCode items i := by
  obtain ⟨hrange, hfreq⟩ := Finset.mem_filter.mp hi
  have hlt : i < items.length := Finset.mem_range.mp hrange
  have hitem : freqOf items i = items[i].freq := by
    rw [freqOf, List.getD_eq_getElem _ _ (by rwa [List.length_map]), List.getElem_map]
  have hget : (huffCreate items).2.getD i default = huffCalc (huffInit items).preds i items[i] := by
    rw [huffCreate, List.getD_eq_getElem _ _ (by simpa using hlt), List.getElem_map, List.getElem_zipIdx]
    simp
  have hnumbits : (itemCode items i).length % 2^5 = (itemCode items i).length := Nat.mod_eq_of_lt (by omega)
  have hbits : leNat (itemCode items i) % 2^22 = leNat (itemCode items i) :=
    Nat.mod_eq_of_lt ((leNat_lt _).trans_le (Nat.pow_le_pow_right (by decide) hlen))
  rw [hget, huffCalc, if_pos (hitem ▸ hfreq), codeBits]
  change (itemCode items i).length % 2^5 = _ ∧ leNat (itemCode items i) % 2^22 = _ ∧
    leBits ((itemCode items i).length % 2^5) (leNat (itemCode items i) % 2^22) = _
  rw [hnumbits, hbits]
  exact ⟨rfl, rfl, leBits_leNat _⟩

end Create

/-- With two frequencies and 65535 in all, `huff_create` gives every item a code of at most 22 bits, whole once the
walk to the last node has its rounds and whole in the fields, no code is the beginning of another, no prefix code takes fewer bits in all, and
what `huff_encode` writes comes back from as many calls of `huff_decodeitem`. -/
theorem huffCreate_codes_decode (items : List Huffitem) (h2 : 2 ≤ (nonzero items).card)
    (hsum : (items.map Huffitem.freq).sum ≤ 65535) :
    let huff := (huffCreate items).1
    let coded := (huffCreate items).2
    (∀ i ∈ nonzero items, (itemCode items i).length ≤ 22 ∧
      (∀ m, (huffInit items).preds.length ≤ m → climb (huffInit items).preds m i = (itemCode items i).reverse) ∧
      (coded.getD i default).numbits = (itemCode items i).length ∧
      (coded.getD i default).bits = leNat (itemCode items i) ∧
      codeBits (coded.getD i default) = itemCode items i) ∧
    PrefixCode (nonzero items) (fun i => codeBits (coded.getD i default)) ∧
    (∀ c : Nat → List Bool, PrefixCode (nonzero items) c →
      ∑ i ∈ Finset.range items.length, freqOf items i * (coded.getD i default).numbits ≤
        ∑ i ∈ Finset.range items.length, freqOf items i * (c i).length) ∧
    ∀ (hp : Huff) (itemis : List Nat) (m : Nat), hp.Synced → hp.endpos < 2^32 → (∀ i ∈ itemis, i ∈ nonzero items) →
      hp.bitoffset + (itemis.map fun i => (coded.getD i default).numbits).sum < 8 * hp.allocsize →
      ∃ hp', times (huffDecodeitem huff.tree huff.depth huff.numitems (some coded) (m + 1)) itemis.length
        (hseek (huffEncode hp coded itemis).1 hp.bitoffset .set).1 = some (itemis.map some, hp') := by
  intro huff coded
  have hfields : ∀ i ∈ nonzero items, _ := fun i hi => huffCreate_fields hi (itemCode_length_le h2 hsum hi)
  refine ⟨fun i hi => ⟨itemCode_length_le h2 hsum hi, climb_itemCode h2 hi, hfields i hi⟩, ?_, ?_, ?_⟩
  · intro i hi j hj hij
    change ¬ codeBits (coded.getD i default) <+: codeBits (coded.getD j default)
    rw [(hfields i hi).2.2, (hfields j hj).2.2]
    exact itemCode_prefixCode h2 i hi j hj hij
  · intro c hc
    rw [← sum_nonzero, ← sum_nonzero, Finset.sum_congr rfl fun i hi => by rw [(hfields i hi).1]]
    exact itemCode_minimal h2 hc
  · intro hp itemis m hs hend hmem hroom
    have hbits : (itemis.flatMap fun i => codeBits (coded.getD i default)) = itemis.flatMap (itemCode items) :=
      List.flatMap_congr fun i hi => (hfields i (hmem i hi)).2.2
    have hlen : (itemis.map fun i => (coded.getD i default).numbits).sum = (itemis.flatMap (itemCode items)).length := by
      rw [List.length_flatMap, List.map_congr_left fun i hi => (hfields i (hmem i hi)).1]
    rw [hlen] at hroom
    obtain ⟨rest, hahead⟩ := hputs_ahead hs hend _ hroom
    obtain ⟨hp', hrun, -⟩ := times_parses h2 coded m hmem _ rest hahead
    refine ⟨hp', ?_⟩
    rw [huffEncode_eq, hbits]
    exact hrun

def fourItems : List Huffitem := [⟨0, 0, 1, 3, []⟩, ⟨0, 0, 1, 0, []⟩, ⟨0, 0, 1, 1, []⟩, ⟨0, 0, 1, 1, []⟩]

theorem huffCreate_codes_decode_four : (huffCreate fourItems).2.map Huffitem.numbits = [1, 0, 2, 2] ∧
    ∃ hp', times (huffDecodeitem (huffCreate fourItems).1.tree (huffCreate fourItems).1.depth
      (huffCreate fourItems).1.numitems (some (huffCreate fourItems).2) 1) 4
      (hseek (huffEncode (Huff.over (List.replicate 4 0) 0 (by decide)) (huffCreate fourItems).2 [0, 2, 3, 0]).1 0 .set).1 =
        some ([some 0, some 2, some 3, some 0], hp') := by
  refine ⟨by decide, ?_⟩
  obtain ⟨-, -, -, h⟩ := huffCreate_codes_decode fourItems (by decide) (by decide)
  exact h (Huff.over (List.replicate 4 0) 0 (by decide)) [0, 2, 3, 0] 0 ⟨rfl, rfl, by decide⟩ (by decide) (by decide)
    (by decide)

end SuperNet.Utils.HuffRoundTrip
