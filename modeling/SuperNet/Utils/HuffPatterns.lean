import SuperNet.Lib.Runs

/-! The patterns of huffcompress: how they are searched for in the source, collected and marked. -/
namespace SuperNet.Utils.HuffPatterns
open SuperNet.Lib.Runs

def maxPatternlen : Nat := 30

/-- A byte of a text. What is read behind the text decides nothing. -/
def byteAt (text : List UInt8) (i : Nat) : UInt8 := text.getD i 0

section BoyerMoore
variable (string pat : List UInt8) (patlen : Nat)

def delta1 (c : UInt8) : Nat :=
  rounds (fun d i => if byteAt pat i = c then patlen - 1 - i else d) patlen (patlen - 1)

def isPrefix (pos : Nat) : Bool := (List.range (patlen - pos)).all fun i => byteAt pat i = byteAt pat (pos + i)

/-- The loop of `suffix_length` with the rounds that are left. -/
def suffixLoop (pos : Nat) : Nat → Nat → Nat
  | 0, i => i
  | n + 1, i => if byteAt pat (pos - i) = byteAt pat (patlen - 1 - i) then suffixLoop pos n (i + 1) else i

def suffixLength (pos : Nat) : Nat := suffixLoop pat patlen pos pos 0

/-- A round of the first loop of `make_delta2`, from the end of the pattern, with `last_prefix_index`. -/
def prefixStep (s : Nat × List Nat) (k : Nat) : Nat × List Nat :=
  let p := patlen - 1 - k
  let last := if isPrefix pat patlen (p + 1) then p + 1 else s.1
  (last, s.2.set p (last + (patlen - 1 - p)))

def prefixShifts : Nat × List Nat :=
  rounds (prefixStep pat patlen) (patlen - 1, List.replicate patlen 0) patlen

/-- A round of the second loop. -/
def suffixStep (d : List Nat) (p : Nat) : List Nat :=
  let slen := suffixLength pat patlen p
  if byteAt pat (p - slen) ≠ byteAt pat (patlen - 1 - slen) then d.set (patlen - 1 - slen) (patlen - 1 - p + slen) else d

def delta2 : List Nat := rounds (suffixStep pat patlen) (prefixShifts pat patlen).2 (patlen - 1)

/-- The bytes of the pattern that are left when the comparison from its end stops; the text is compared up to `e`. -/
def unmatched : Nat → Nat → Nat
  | 0, _ => 0
  | m + 1, e => if byteAt string (e - 1) = byteAt pat m then unmatched m (e - 1) else m + 1

/-- The outer loop of `boyer_moore`, in which `i` grows in every round. -/
def search : Nat → Nat → Option Nat
  | 0, _ => none
  | n + 1, i =>
    if i < string.length then
      let m := unmatched string pat patlen (i + 1)
      let i' := i - (patlen - m)
      if m = 0 then some (i + 1 - patlen)
      else search n (i' + max (delta1 pat patlen (byteAt string i')) ((delta2 pat patlen).getD (m - 1) 0))
    else none

/-- Where `boyer_moore` finds the first bytes of `pat`. -/
def boyerMoore : Option Nat :=
  if 8192 < patlen then none
  else if patlen = 0 then some 0
  else search string pat patlen string.length (patlen - 1)

end BoyerMoore

/-- `struct huffstats`; a pattern is known by its place in the source, and the tables start with the patterns of
length 0. -/
structure Huffstats where
  ptrs : List (List Nat)
  freq : List (List Nat)
  marked : List Nat

variable (src : List UInt8)

/-- The pattern of a length at a place. -/
def patAt (ptr patlen : Nat) : List UInt8 := (src.drop ptr).take patlen

/-- `_srchpats`, which takes the number of patterns as one byte. -/
def srchpats (ptrs : List Nat) (ptr patlen : Nat) : Bool :=
  (ptrs.take (ptrs.length % 256)).any fun p => patAt src p patlen = patAt src ptr patlen

/-- The pattern of a place and a length is put in the table unless it is found there. -/
def findOne (i : Nat) (ptrs : List (List Nat)) (k : Nat) : List (List Nat) :=
  match boyerMoore (src.drop i) (src.drop i) (k + 1) with
  | some at' =>
    if srchpats src (ptrs.getD (k + 1) []) i (k + 1) then ptrs else ptrs.modify (k + 1) fun pats => pats ++ [i + at']
  | none => ptrs

/-- The patterns of one place, from the shortest to the longest. -/
def findAt (maxpatlen : Nat) (ptrs : List (List Nat)) (i : Nat) : List (List Nat) :=
  rounds (findOne src i) ptrs maxpatlen

def huffFindpatterns (maxpatlen : Nat) : List (List Nat) :=
  rounds (findAt src maxpatlen) (List.replicate (maxpatlen + 1) []) src.length

/-- What `huff_setmarked` keeps while it looks for one pattern. -/
structure Marking where
  marked : List Nat
  freq : Nat
  firstoffset : Nat

/-- The places from `offset` on get the number of the pattern, its length, their place in it, and whether this is
its first mark. -/
def setMarks (i patlen freq : Nat) (marked : List Nat) (offset : Nat) : List Nat :=
  rounds (fun marked j => marked.set (offset + j) (i <<< 16 ||| patlen <<< 8 ||| j <<< 1 ||| (freq == 0).toNat)) marked patlen

def clearMarks (patlen : Nat) (marked : List Nat) (offset : Nat) : List Nat :=
  rounds (fun marked j => marked.set (offset + j) 0) marked patlen

/-- The first place from `j` on without a mark, or the end. -/
def nextUnmarked (marked : List Nat) (len : Nat) : Nat → Nat → Nat
  | 0, j => j
  | n + 1, j => if j < len ∧ marked.getD j 0 ≠ 0 then nextUnmarked marked len n (j + 1) else j

/-- The inner loop of `huff_setmarked`, in which `srcptr` grows in every round. -/
def markLoop (i patlen ptr : Nat) : Nat → Marking → Nat → Marking
  | 0, mk, _ => mk
  | n + 1, mk, srcptr =>
    match boyerMoore (src.drop srcptr) (src.drop ptr) patlen with
    | none => mk
    | some at' =>
      let offset := srcptr + at'
      let first := if mk.freq = 0 then offset else mk.firstoffset
      if (List.range patlen).all fun j => mk.marked.getD (offset + j) 0 = 0 then
        let marked := setMarks i patlen mk.freq mk.marked offset
        markLoop i patlen ptr n ⟨marked, mk.freq + 1, first⟩
          (nextUnmarked marked src.length src.length (offset + patlen))
      else
        markLoop i patlen ptr n ⟨mk.marked, mk.freq, first⟩
          (nextUnmarked mk.marked src.length src.length (offset + 1))

/-- One pattern in `huff_setmarked`; a longer one that was marked only once is given up. -/
def markPattern (i patlen ptr : Nat) (marked : List Nat) : List Nat × Nat :=
  let mk := markLoop src i patlen ptr (src.length + 1) ⟨marked, 0, 0⟩ 0
  if 1 < patlen ∧ mk.freq = 1 then (clearMarks patlen mk.marked mk.firstoffset, 0) else (mk.marked, mk.freq)

/-- The patterns of one length in `huff_setmarked`: the marks and the frequencies. -/
def markLength (patlen : Nat) (ptrs marked : List Nat) : List Nat × List Nat :=
  rounds (fun s i =>
    let m := markPattern src i patlen (ptrs.getD i 0) s.1
    (m.1, s.2 ++ [m.2])) (marked, []) ptrs.length

/-- `huff_setmarked`, from the longest patterns to the shortest. -/
def huffSetmarked (maxpatlen : Nat) (ptrs : List (List Nat)) : Huffstats :=
  let s := rounds (fun (s : List Nat × List (List Nat)) k =>
    let patlen := maxpatlen - k
    let m := markLength src patlen (ptrs.getD patlen []) s.1
    (m.1, m.2 :: s.2)) (List.replicate src.length 0, []) maxpatlen
  ⟨ptrs, [] :: s.2, s.1⟩

/-- The patterns with a frequency, in the order of the items: length, place in the table and frequency. -/
def Huffstats.used (hstats : Huffstats) : List (Nat × Nat × Nat) :=
  (hstats.freq.zipIdx).flatMap fun (freqs, patlen) =>
    (freqs.zipIdx.filter fun f => f.1 ≠ 0).map fun (freq, i) => (patlen, i, freq)

section Shifts
variable {string pat : List UInt8} {patlen : Nat}

/-- Every entry moves the text by more than what has been compared. -/
def Moves (patlen : Nat) (d : List Nat) (p : Nat) : Prop := p < patlen → patlen - p ≤ d.getD p 0

private theorem moves_set {d : List Nat} {p q x : Nat} (hlength : d.length = patlen) (hd : p ≠ q → Moves patlen d p)
    (hx : patlen - q ≤ x) : Moves patlen (d.set q x) p := by
  intro hp
  rw [List.getD_eq_getElem?_getD, List.getElem?_set]
  by_cases hq : q = p
  · rw [if_pos hq, if_pos (by omega), Option.getD_some]
    omega
  · rw [if_neg hq, ← List.getD_eq_getElem?_getD]
    exact hd (fun h => hq h.symm) hp

private theorem suffixLoop_le (pat : List UInt8) (patlen pos n i : Nat) : suffixLoop pat patlen pos n i ≤ i + n := by
  induction n generalizing i with
  | zero => exact le_rfl
  | succ n ih =>
    rw [suffixLoop]
    split
    · have := ih (i + 1)
      omega
    · omega

private theorem prefixStep_last (pat : List UInt8) (patlen : Nat) {s : Nat × List Nat} {k : Nat} (h : k = 0 ∨ 1 ≤ s.1) :
    1 ≤ (prefixStep pat patlen s k).1 := by
  rw [prefixStep]
  dsimp only
  split
  · exact Nat.succ_pos _
  case isFalse hno =>
    refine h.resolve_left fun hk => hno ?_
    have hend : patlen - (patlen - 1 - k + 1) = 0 := by omega
    rw [isPrefix, hend]
    rfl

private theorem prefixShifts_moves (pat : List UInt8) (patlen : Nat) : (prefixShifts pat patlen).2.length = patlen ∧
    ∀ p, Moves patlen (prefixShifts pat patlen).2 p := by
  have hrounds := rounds_induct (f := prefixStep pat patlen) (s := (patlen - 1, List.replicate patlen 0))
    (motive := fun k (s : Nat × List Nat) => (k = 0 ∨ 1 ≤ s.1) ∧ s.2.length = patlen ∧
      ∀ p, patlen - k ≤ p → Moves patlen s.2 p) patlen
    ⟨.inl rfl, List.length_replicate, fun p hp h => absurd h (by omega)⟩ ?_
  · exact ⟨hrounds.2.1, fun p => hrounds.2.2 p (by omega)⟩
  · intro k hk ⟨hlast, hlength, hmoves⟩
    have hone := prefixStep_last pat patlen hlast
    refine ⟨.inr hone, (List.length_set ..).trans hlength, fun p hp => ?_⟩
    refine moves_set hlength (fun hne => hmoves p (by omega)) ?_
    change 1 ≤ (if isPrefix pat patlen (patlen - 1 - k + 1) then patlen - 1 - k + 1 else _) at hone
    omega

private theorem delta2_moves (pat : List UInt8) (patlen : Nat) : ∀ p, Moves patlen (delta2 pat patlen) p := by
  obtain ⟨hlength, hmoves⟩ := prefixShifts_moves pat patlen
  refine (rounds_induct (f := suffixStep pat patlen) (s := (prefixShifts pat patlen).2)
    (motive := fun _ (d : List Nat) => d.length = patlen ∧ ∀ p, Moves patlen d p) (patlen - 1) ⟨hlength, hmoves⟩ ?_).2
  intro k hk ⟨hlength, hmoves⟩
  rw [suffixStep]
  split
  · refine ⟨(List.length_set ..).trans hlength, fun p => moves_set hlength (fun _ => hmoves p) ?_⟩
    have hle := suffixLoop_le pat patlen k k 0
    change suffixLength pat patlen k ≤ 0 + k at hle
    omega
  · exact ⟨hlength, hmoves⟩

private theorem unmatched_le (string pat : List UInt8) (m e : Nat) : unmatched string pat m e ≤ m := by
  induction m generalizing e with
  | zero => exact le_rfl
  | succ m ih =>
    rw [unmatched]
    split
    · exact (ih _).trans (Nat.le_succ m)
    · exact le_rfl

/-- What is found lies in the text. -/
theorem search_fits {n i at' : Nat} (hi : patlen ≤ i + 1) (h : search string pat patlen n i = some at') :
    at' + patlen ≤ string.length := by
  induction n generalizing i with
  | zero => exact nomatch h
  | succ n ih =>
    rw [search] at h
    split at h
    case isFalse => exact nomatch h
    case isTrue hlt =>
      dsimp only at h
      split at h
      · cases h
        omega
      case isFalse hm =>
        have hle := unmatched_le string pat patlen (i + 1)
        have hmoves := delta2_moves pat patlen (unmatched string pat patlen (i + 1) - 1) (by omega)
        refine ih ?_ h
        omega

theorem boyerMoore_fits {at' : Nat} (h : boyerMoore string pat patlen = some at') : at' + patlen ≤ string.length := by
  rw [boyerMoore] at h
  split at h
  · exact nomatch h
  · split at h
    case isTrue hzero =>
      cases h
      omega
    case isFalse => exact search_fits (by omega) h

end Shifts

/-- Every pattern of the tables lies in the source. -/
def InSource (ptrs : List (List Nat)) : Prop := ∀ patlen, ∀ ptr ∈ ptrs.getD patlen [], ptr + patlen ≤ src.length

variable {src}

private theorem findOne_inSource {i k : Nat} {ptrs : List (List Nat)} (h : InSource src ptrs) :
    InSource src (findOne src i ptrs k) := by
  rw [findOne]
  split
  case h_2 => exact h
  case h_1 at' hat =>
    split
    · exact h
    · intro patlen ptr hptr
      rw [List.getD_eq_getElem?_getD, List.getElem?_modify] at hptr
      cases hpats : ptrs[patlen]? with
      | none =>
        rw [hpats] at hptr
        exact absurd hptr (by simp)
      | some pats =>
        have hold : ∀ ptr ∈ pats, ptr + patlen ≤ src.length := fun ptr hptr => h patlen ptr (by
          rwa [List.getD_eq_getElem?_getD, hpats])
        rw [hpats] at hptr
        split at hptr
        case isFalse => exact hold ptr hptr
        case isTrue heq =>
          rcases List.mem_append.mp hptr with hptr | hptr
          · exact hold ptr hptr
          · have hfits := boyerMoore_fits hat
            rw [List.length_drop] at hfits
            rw [List.mem_singleton.mp hptr]
            omega

private theorem findAt_inSource {maxpatlen i : Nat} {ptrs : List (List Nat)} (h : InSource src ptrs) :
    InSource src (findAt src maxpatlen ptrs i) :=
  rounds_induct (motive := fun _ (ptrs : List (List Nat)) => InSource src ptrs) maxpatlen h fun _ _ => findOne_inSource

theorem huffFindpatterns_inSource (maxpatlen : Nat) : InSource src (huffFindpatterns src maxpatlen) := by
  refine rounds_induct (motive := fun _ (ptrs : List (List Nat)) => InSource src ptrs) src.length ?_
    fun i _ h => findAt_inSource h
  intro patlen ptr hptr
  rw [List.getD_eq_getElem?_getD, List.getElem?_replicate] at hptr
  split at hptr
  · exact absurd hptr List.not_mem_nil
  · exact absurd hptr List.not_mem_nil

private theorem markLength_length (patlen : Nat) (ptrs marked : List Nat) :
    (markLength src patlen ptrs marked).2.length = ptrs.length :=
  rounds_induct (motive := fun i (s : List Nat × List Nat) => s.2.length = i) ptrs.length rfl fun i _ h => by
    rw [List.length_append, h, List.length_singleton]

private theorem huffSetmarked_induct (src : List UInt8) {motive : Nat → List (List Nat) → Prop} (maxpatlen : Nat) (ptrs : List (List Nat))
    (h0 : motive 0 []) (hs : ∀ n < maxpatlen, ∀ marked freqs, motive n freqs →
      motive (n + 1) ((markLength src (maxpatlen - n) (ptrs.getD (maxpatlen - n) []) marked).2 :: freqs)) :
    ∃ freqs, (huffSetmarked src maxpatlen ptrs).freq = [] :: freqs ∧ motive maxpatlen freqs :=
  ⟨_, rfl, rounds_induct (motive := fun n (s : List Nat × List (List Nat)) => motive n s.2) maxpatlen h0
    fun n hn ih => hs n hn _ _ ih⟩

/-- Every pattern has a frequency. -/
theorem huffSetmarked_freq (maxpatlen patlen : Nat) (ptrs : List (List Nat)) (hpos : 0 < patlen) :
    ∀ freqs, (huffSetmarked src maxpatlen ptrs).freq[patlen]? = some freqs → freqs.length = (ptrs.getD patlen []).length := by
  obtain ⟨k, rfl⟩ : ∃ k, patlen = k + 1 := ⟨patlen - 1, by omega⟩
  obtain ⟨all, hall, hk⟩ := huffSetmarked_induct src (motive := fun n all => ∀ j freqs, all[j]? = some freqs →
      freqs.length = (ptrs.getD (maxpatlen - n + 1 + j) []).length) maxpatlen ptrs
    (fun j freqs h => by simp at h) (by
      intro n hn marked all ih j freqs h
      cases j with
      | zero =>
        have hplace : maxpatlen - (n + 1) + 1 + 0 = maxpatlen - n := by omega
        rw [List.getElem?_cons_zero, Option.some.injEq] at h
        rw [← h, markLength_length, hplace]
      | succ j =>
        have hplace : maxpatlen - (n + 1) + 1 + (j + 1) = maxpatlen - n + 1 + j := by omega
        rw [List.getElem?_cons_succ] at h
        rw [ih j freqs h, hplace])
  intro freqs hfreqs
  rw [hall, List.getElem?_cons_succ] at hfreqs
  have hlength := hk k freqs hfreqs
  rwa [Nat.sub_self, Nat.zero_add, Nat.add_comm] at hlength

private theorem huffSetmarked_length (maxpatlen : Nat) (ptrs : List (List Nat)) :
    (huffSetmarked src maxpatlen ptrs).freq.length = maxpatlen + 1 := by
  obtain ⟨freqs, hfreq, hlength⟩ := huffSetmarked_induct src (motive := fun n freqs => freqs.length = n)
    maxpatlen ptrs rfl fun n _ marked freqs h => by rw [List.length_cons, h]
  rw [hfreq, List.length_cons, hlength]

private theorem getD_mem {l : List Nat} {i : Nat} (h : i < l.length) : l.getD i 0 ∈ l := by
  rw [List.getD_eq_getElem?_getD, List.getElem?_eq_getElem h, Option.getD_some]
  exact List.getElem_mem h

/-- The items stand for patterns of the tables. -/
theorem used_inSource {maxpatlen : Nat} {u : Nat × Nat × Nat}
    (hu : u ∈ (huffSetmarked src maxpatlen (huffFindpatterns src maxpatlen)).used) : u.1 ≤ maxpatlen ∧
    ((huffFindpatterns src maxpatlen).getD u.1 []).getD u.2.1 0 + u.1 ≤ src.length := by
  obtain ⟨⟨freqs, patlen⟩, hfreqs, hu⟩ := List.mem_flatMap.mp hu
  obtain ⟨⟨freq, i⟩, hi, rfl⟩ := List.mem_map.mp hu
  have hfreqs := List.mk_mem_zipIdx_iff_getElem?.mp hfreqs
  have hi := List.mk_mem_zipIdx_iff_getElem?.mp (List.mem_filter.mp hi).1
  have hlt := (List.getElem?_eq_some_iff.mp hi).1
  cases patlen with
  | zero =>
    have hnil : freqs = [] := (Option.some.inj hfreqs).symm
    rw [hnil] at hlt
    exact absurd hlt (Nat.not_lt_zero _)
  | succ patlen =>
    have hlength := huffSetmarked_freq maxpatlen (patlen + 1) _ patlen.succ_pos freqs hfreqs
    rw [hlength] at hlt
    have hmax := (List.getElem?_eq_some_iff.mp hfreqs).1
    rw [huffSetmarked_length] at hmax
    exact ⟨Nat.le_of_lt_succ hmax, huffFindpatterns_inSource maxpatlen (patlen + 1) _ (getD_mem hlt)⟩

end SuperNet.Utils.HuffPatterns
