import SuperNet.Lib.BitCodec
import SuperNet.Lib.Runs

/-! The huffman codes of huffstream.c: the heap of frequencies, the codes of the items and the tree of offsets. -/
namespace SuperNet.Utils.HuffCodes
open SuperNet.Lib.Runs SuperNet.Lib.BitCodec

/-- `struct huffitem`; `numbits` is a field of 5 bits and `bits` one of 22. -/
structure Huffitem where
  numbits : Nat
  bits : Nat
  patlen : Nat
  freq : Nat
  pattern : List UInt8

section Heap
variable (f : Nat → Nat)

/-- The gnome sort of `huff_heap_sort` with the rounds that are left; the smallest frequency comes last. -/
def heapSort : Nat → List Nat → Nat → Nat → List Nat
  | 0, h, _, _ => h
  | n + 1, h, i, j =>
    if i < h.length then
      if f (h.getD (i - 1) 0) ≥ f (h.getD i 0) then heapSort n h j (j + 1)
      else
        let h := (h.set (i - 1) (h.getD i 0)).set i (h.getD (i - 1) 0)
        if i - 1 = 0 then heapSort n h j (j + 1) else heapSort n h (i - 1) j
    else h

/-- `huff_heap_add`; the sort takes at most one round for each place and each pair of places. -/
def heapAdd (h : List Nat) (ind : Nat) : List Nat :=
  let h := h ++ [ind]
  heapSort f (h.length + h.length * h.length) h 1 2

end Heap

/-- What `huff_init` works on. -/
structure Forest where
  heap : List Nat
  efreqs : List Nat
  preds : List Int
  revtree : List (Nat × Nat)
  extf : Nat

def Forest.freq (s : Forest) (ind : Nat) : Nat := s.efreqs.getD ind 0

/-- The items with a frequency are put on the heap. -/
def leaves (items : List Huffitem) : Forest :=
  let efreqs := items.map Huffitem.freq ++ List.replicate items.length 0
  ⟨rounds (fun heap i => if 0 < efreqs.getD i 0 then heapAdd (fun i => efreqs.getD i 0) heap i else heap) [] items.length,
    efreqs, List.replicate (2 * items.length) 0, [], items.length⟩

/-- One round of `huff_init`: the two nodes of the smallest frequencies get a node above them. -/
def merge (s : Forest) (r1 r2 : Nat) (rest : List Nat) : Forest :=
  let efreqs := s.efreqs.set s.extf (s.freq r1 + s.freq r2)
  ⟨heapAdd (fun i => efreqs.getD i 0) rest s.extf, efreqs, (s.preds.set r1 s.extf).set r2 (-s.extf),
    s.revtree ++ [(r2, r1)], s.extf + 1⟩

def mergeAll : Nat → Forest → Forest
  | 0, s => s
  | n + 1, s =>
    match s.heap.reverse with
    | r1 :: r2 :: rest => mergeAll n (merge s r1 r2 rest.reverse)
    | _ => s

/-- `huff_init`; the node that is left is its own predecessor. -/
def huffInit (items : List Huffitem) : Forest :=
  let s := mergeAll items.length (leaves items)
  match s.heap.reverse with
  | r1 :: rest => { s with heap := rest.reverse, preds := s.preds.set r1 r1 }
  | [] => s

/-- The walk of `huff_calc` from an item up to the last node: the bits from the item on. -/
def climb (preds : List Int) : Nat → Nat → List Bool
  | 0, _ => []
  | n + 1, ix =>
    let pred := preds.getD ix 0
    if pred ≠ ix ∧ -pred ≠ ix then
      if 0 ≤ pred then true :: climb preds n pred.toNat else false :: climb preds n (-pred).toNat
    else []

/-- `huff_calc` for one item: the code is read from the last node on. -/
def huffCalc (preds : List Int) (i : Nat) (item : Huffitem) : Huffitem :=
  if item.freq ≠ 0 then
    let code := (climb preds preds.length i).reverse
    { item with numbits := code.length % 2 ^ 5, bits := leNat code % 2 ^ 22 }
  else item

structure Huffcode where
  numitems : Nat
  depth : Nat
  tree : List Int

/-- An entry of the tree: an item, or the distance to the node of an earlier round. -/
def treeEntry (numitems i r : Nat) : Int := if r < numitems then r else -(2 * (numitems + i - r : Nat))

/-- `huff_create`: the tree, from the last round to the first, and the items with their codes. Its `int32_t` sizes fit
for fewer than 2^26 items. -/
def huffCreate (items : List Huffitem) : Huffcode × List Huffitem :=
  let s := huffInit items
  (⟨items.length, s.extf - items.length,
    (s.revtree.zipIdx.reverse).flatMap fun r => [treeEntry items.length r.2 r.1.1, treeEntry items.length r.2 r.1.2]⟩,
    (items.zipIdx).map fun q => huffCalc s.preds q.2 q.1)

end SuperNet.Utils.HuffCodes
