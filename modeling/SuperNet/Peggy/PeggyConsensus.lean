import SuperNet.Lib.Masks
import SuperNet.Lib.Rotation
import SuperNet.Peggy.Peggy777

/-! `peggy_priceconsensus` of peggy777.c: the vote that most of the others tolerate becomes the price. -/
namespace SuperNet.Peggy.PeggyConsensus
open Lib.Words Lib.Rotation Lib.Masks Peggy777

structure PeggyVote where
  pval : BitVec 32
  tolerance : BitVec 32
  deriving DecidableEq, Inhabited, Repr

def peggyInds : List Nat :=
  [289, 404, 50, 490, 59, 208, 87, 508, 366, 288, 13, 38, 159, 440, 120, 480, 361, 104, 534, 195, 300, 362, 489, 108,
    143, 220, 131, 244, 133, 473, 315, 439, 210, 456, 219, 352, 153, 444, 397, 491, 286, 479, 519, 384, 126, 369, 155,
    427, 373, 360, 135, 297, 256, 506, 322, 425, 501, 251, 75, 18, 420, 537, 443, 438, 407, 145, 173, 78, 340, 240,
    422, 160, 329, 32, 127, 128, 415, 495, 372, 522, 60, 238, 129, 364, 471, 140, 171, 215, 378, 292, 432, 526, 252,
    389, 459, 350, 233, 408, 433, 51, 423, 19, 62, 115, 211, 22, 247, 197, 530, 7, 492, 5, 53, 318, 313, 283, 169,
    464, 224, 282, 514, 385, 228, 175, 494, 237, 446, 105, 150, 338, 346, 510, 6, 348, 89, 63, 536, 442, 414, 209,
    216, 227, 380, 72, 319, 259, 305, 334, 236, 103, 400, 176, 267, 355, 429, 134, 257, 527, 111, 287, 386, 15, 392,
    535, 405, 23, 447, 399, 291, 112, 74, 36, 435, 434, 330, 520, 335, 201, 478, 17, 162, 483, 33, 130, 436, 395, 93,
    298, 498, 511, 66, 487, 218, 65, 309, 419, 48, 214, 377, 409, 462, 139, 349, 4, 513, 497, 394, 170, 307, 241, 185,
    454, 29, 367, 465, 194, 398, 301, 229, 212, 477, 303, 39, 524, 451, 116, 532, 30, 344, 85, 186, 202, 517, 531,
    515, 230, 331, 466, 147, 426, 234, 304, 64, 100, 416, 336, 199, 383, 200, 166, 258, 95, 188, 246, 136, 90, 68, 45,
    312, 354, 184, 314, 518, 326, 401, 269, 217, 512, 81, 88, 272, 14, 413, 328, 393, 198, 226, 381, 161, 474, 353,
    337, 294, 295, 302, 505, 137, 207, 249, 46, 98, 27, 458, 482, 262, 253, 71, 25, 0, 40, 525, 122, 341, 107, 80,
    165, 243, 168, 250, 375, 151, 503, 124, 52, 343, 371, 206, 178, 528, 232, 424, 163, 273, 191, 149, 493, 177, 144,
    193, 388, 1, 412, 265, 457, 255, 475, 223, 41, 430, 76, 102, 132, 96, 97, 316, 472, 213, 263, 3, 317, 324, 274,
    396, 486, 254, 205, 285, 101, 21, 279, 58, 467, 271, 92, 538, 516, 235, 332, 117, 500, 529, 113, 445, 390, 358,
    79, 34, 488, 245, 83, 509, 203, 476, 496, 347, 280, 12, 84, 485, 323, 452, 10, 146, 391, 293, 86, 94, 523, 299,
    91, 164, 363, 402, 110, 321, 181, 138, 192, 469, 351, 276, 308, 277, 428, 182, 260, 55, 152, 157, 382, 121, 507,
    225, 61, 431, 31, 106, 327, 154, 16, 49, 499, 73, 70, 449, 460, 187, 24, 248, 311, 275, 158, 387, 125, 67, 284,
    35, 463, 190, 179, 266, 376, 221, 42, 26, 290, 357, 268, 43, 167, 99, 374, 242, 156, 239, 403, 339, 183, 320, 180,
    306, 379, 441, 20, 481, 141, 77, 484, 69, 410, 502, 172, 417, 118, 461, 261, 47, 333, 450, 296, 453, 368, 359,
    437, 421, 264, 504, 281, 270, 114, 278, 56, 406, 448, 411, 521, 418, 470, 123, 455, 148, 356, 468, 109, 204, 533,
    365, 8, 345, 174, 370, 28, 57, 11, 2, 231, 310, 196, 119, 82, 325, 44, 342, 37, 189, 142, 222, 9, 54]

/-- `delta <= votes[j].tolerance` for two votes that count. -/
def tolerates (v w : PeggyVote) : Bool := w.pval ≠ 0 && (v.pval - w.pval).toInt.natAbs ≤ w.tolerance.toInt

/-- The loop over `j`, which ends as soon as the weight is more than `half`. -/
def weightFrom (half : Nat) (v : PeggyVote) : Nat → List PeggyVote → Nat
  | weight, [] => weight
  | weight, w :: votes =>
    if tolerates v w then if half < weight + 1 then weight + 1 else weightFrom half v (weight + 1) votes
    else weightFrom half v weight votes

def totalwt (votes : List PeggyVote) : Nat := votes.countP (·.pval ≠ 0)

/-- `i` in round `k` of the loop over the votes. -/
def voteInd (numvotes start k : Nat) : Nat :=
  (if numvotes = peggyNumcoeffs then peggyInds.getD (u32 (k + start) % peggyNumcoeffs) 0 else u32 (start + k)) % numvotes

/-- The vote has the weight to be taken over. -/
def outweighs (votes : List PeggyVote) (v : PeggyVote) : Bool :=
  v.pval ≠ 0 && totalwt votes >>> 1 < weightFrom (totalwt votes >>> 1) v 0 votes

/-- The votes in the order of the loop over `k`. -/
def visits (votes : List PeggyVote) (start : Nat) : List PeggyVote :=
  (List.range votes.length).map fun k => votes.getD (voteInd votes.length start k) default

/-- The vote that is taken over, if any. -/
def elected (votes : List PeggyVote) (start : Nat) : Option PeggyVote := (visits votes start).find? (outweighs votes)

def voteStart (pricedpeg : Int) (seed : Nat) : Nat := u32 (u64 (u64 pricedpeg * seed))

/-- What the votes do to `PEG->price`: `newprice` is what `peggy_newprice` returns for a price that is taken over.
`none` where the loop over the votes writes behind the end of `wts`. -/
def peggyPriceconsensus (newprice : Int → Int) (quorum decisionthreshold : Nat) (price pricedpeg : Int) (seed : Nat)
    (votes : List PeggyVote) : Option Int :=
  if totalwt (votes.drop peggyNumcoeffs) ≠ 0 then none
  else if totalwt votes < quorum ∨ totalwt votes < decisionthreshold then some price
  else
    match elected votes (voteStart pricedpeg seed) with
    | some v => some (newprice v.pval.toInt)
    | none => some price

/-- Prices and tolerances below `2^31`. -/
def PeggyVote.Ok (v : PeggyVote) : Prop := 0 ≤ v.pval.toInt ∧ 0 ≤ v.tolerance.toInt

instance (v : PeggyVote) : Decidable v.Ok := inferInstanceAs (Decidable (_ ∧ _))

/-- More than half of the votes that count tolerate this one. -/
def Supported (votes : List PeggyVote) (v : PeggyVote) : Prop :=
  v.pval ≠ 0 ∧
    totalwt votes < 2 * votes.countP fun w => w.pval ≠ 0 ∧ |v.pval.toInt - w.pval.toInt| ≤ w.tolerance.toInt

instance (votes : List PeggyVote) (v : PeggyVote) : Decidable (Supported votes v) := inferInstanceAs (Decidable (_ ∧ _))

/-- Among `n` places that are walked from `start` on, the walk comes to place `s` before the 32-bit sum wraps, or
after it, when it goes on from place 0. -/
def Walked (n start s : Nat) : Prop := start + roundOf n start s < 2^32 ∨ 2^32 + s < start + n

instance (n start s : Nat) : Decidable (Walked n start s) := inferInstanceAs (Decidable (_ ∨ _))

/-- The loop over the votes comes to vote `i`. -/
def Reached (n start i : Nat) : Prop :=
  if n = peggyNumcoeffs then ∃ x < n, peggyInds.getD x 0 = i ∧ Walked n start x else Walked n start i

/-- A supported vote is taken over if there is one, and else the price stays. -/
structure Consensus (votes : List PeggyVote) (price : Int) (outcome : (Int → Int) → Option Int) : Prop where
  adopted : (∃ v ∈ votes, Supported votes v) →
    ∃ v ∈ votes, Supported votes v ∧ ∀ newprice, outcome newprice = some (newprice v.pval.toInt)
  unchanged : (¬ ∃ v ∈ votes, Supported votes v) → ∀ newprice, outcome newprice = some price

section Weight

private theorem lt_weightFrom_iff {half : Nat} {v : PeggyVote} {weight : Nat} (votes : List PeggyVote)
    (h : weight ≤ half) : half < weightFrom half v weight votes ↔ half < weight + votes.countP (tolerates v) := by
  induction votes generalizing weight with
  | nil => rfl
  | cons w votes ih =>
    rw [weightFrom, List.countP_cons]
    by_cases htol : tolerates v w = true
    · rw [if_pos htol, if_pos htol]
      split
      case isTrue hmost => exact ⟨fun _ => by omega, fun _ => hmost⟩
      case isFalse hmost =>
        rw [ih (Nat.le_of_not_lt hmost)]
        omega
    · rw [if_neg htol, if_neg htol, ih h]
      rfl

private theorem toInt_sub_of_ok {v w : PeggyVote} (hv : v.Ok) (hw : w.Ok) :
    (v.pval - w.pval).toInt = v.pval.toInt - w.pval.toInt := by
  have hv' := BitVec.toInt_lt (x := v.pval)
  have hw' := BitVec.toInt_lt (x := w.pval)
  rw [BitVec.toInt_sub]
  apply Int.bmod_eq_of_le_mul_two
  · have := hv.1
    omega
  · have := hw.1
    omega

private theorem tolerates_iff {v w : PeggyVote} (hv : v.Ok) (hw : w.Ok) :
    tolerates v w = true ↔ w.pval ≠ 0 ∧ |v.pval.toInt - w.pval.toInt| ≤ w.tolerance.toInt := by
  rw [tolerates, Bool.and_eq_true, decide_eq_true_eq, decide_eq_true_eq, toInt_sub_of_ok hv hw, Int.abs_eq_natAbs]

private theorem outweighs_iff {votes : List PeggyVote} {v : PeggyVote} (hok : ∀ w ∈ votes, w.Ok) (hv : v ∈ votes) :
    outweighs votes v = true ↔ Supported votes v := by
  have hcount : votes.countP (tolerates v) =
      votes.countP fun w => w.pval ≠ 0 ∧ |v.pval.toInt - w.pval.toInt| ≤ w.tolerance.toInt := by
    apply List.countP_congr
    intro w hw
    rw [tolerates_iff (hok v hv) (hok w hw), decide_eq_true_eq]
  rw [outweighs, Bool.and_eq_true, decide_eq_true_eq, decide_eq_true_eq, lt_weightFrom_iff votes (Nat.zero_le _), hcount, Supported,
    Nat.shiftRight_one]
  apply and_congr_right
  intro _
  omega

end Weight

section Walk
variable {n start : Nat}

private theorem peggyInds_length : peggyInds.length = peggyNumcoeffs := by decide +kernel

private theorem peggyInds_perm : peggyInds.Perm (List.range peggyNumcoeffs) := by
  have hmask : maskOf peggyInds = maskOf (List.range peggyNumcoeffs) := by decide +kernel
  have hsub : List.range peggyNumcoeffs ⊆ peggyInds := subset_of_maskOf (by rw [hmask, Nat.and_self])
  have hlen : peggyInds.length ≤ (List.range peggyNumcoeffs).length := by rw [peggyInds_length, List.length_range]
  exact ((List.nodup_range.subperm hsub).perm_of_length_le hlen).symm

private theorem voteInd_eq (k : Nat) : voteInd n start k =
    (if n = peggyNumcoeffs then peggyInds.getD (wrapped (2^32) n start k) 0 else (start + k) % 2^32) % n := by
  rw [voteInd]
  split
  case isTrue hn => rw [wrapped, hn, Nat.add_comm start k, ← Nat.cast_add, u32, unsigned_natCast]
  case isFalse => rw [← Nat.cast_add, u32, unsigned_natCast]

private theorem inds_mem {x : Nat} (h : x < peggyNumcoeffs) : peggyInds.getD x 0 < peggyNumcoeffs := by
  rw [← peggyInds_length] at h
  rw [List.getD_eq_getElem?_getD, List.getElem?_eq_getElem h, Option.getD_some]
  exact List.mem_range.mp (peggyInds_perm.mem_iff.mp (List.getElem_mem h))

private theorem reached_iff (hstart : start < 2^32) (hn : n ≤ 2^32) {i : Nat} (hi : i < n) :
    (∃ k < n, voteInd n start k = i) ↔ Reached n start i := by
  rw [Reached]
  split
  case isTrue hcoeffs =>
    have hseat : ∀ k, wrapped (2^32) n start k < n := fun k => Nat.mod_lt _ (Nat.zero_lt_of_lt hi)
    have hind : ∀ k, voteInd n start k = peggyInds.getD (wrapped (2^32) n start k) 0 := by
      intro k
      have hlt := inds_mem (hcoeffs ▸ hseat k)
      rw [voteInd_eq, if_pos hcoeffs]
      exact Nat.mod_eq_of_lt (hcoeffs ▸ hlt)
    constructor
    · rintro ⟨k, hk, hki⟩
      exact ⟨_, hseat k, (hind k).symm.trans hki, (wrapped_reaches_iff hstart hn (hseat k)).mp ⟨k, hk, rfl⟩⟩
    · rintro ⟨x, hx, rfl, hwalked⟩
      obtain ⟨k, hk, rfl⟩ := (wrapped_reaches_iff hstart hn hx).mpr hwalked
      exact ⟨k, hk, hind k⟩
  case isFalse hcoeffs =>
    have hind : ∀ k, voteInd n start k = wrapped (2^32) n start k := by
      intro k
      rw [voteInd_eq, if_neg hcoeffs, wrapped]
    simp only [hind]
    exact wrapped_reaches_iff hstart hn hi

end Walk

section Elected
variable {votes : List PeggyVote} {start : Nat}

private theorem mem_visits {v : PeggyVote} :
    v ∈ visits votes start ↔ ∃ k < votes.length, votes.getD (voteInd votes.length start k) default = v := by
  rw [visits, List.mem_map]
  simp only [List.mem_range]

private theorem mem_of_mem_visits {v : PeggyVote} (h : v ∈ visits votes start) : v ∈ votes := by
  obtain ⟨k, hk, rfl⟩ := mem_visits.mp h
  have hlt : voteInd votes.length start k < votes.length := Nat.mod_lt _ (Nat.zero_lt_of_lt hk)
  rw [List.getD_eq_getElem?_getD, List.getElem?_eq_getElem hlt]
  exact List.getElem_mem hlt

private theorem supported_of_elected {v : PeggyVote} (hok : ∀ w ∈ votes, w.Ok) (h : elected votes start = some v) :
    v ∈ visits votes start ∧ Supported votes v := by
  have hmem := List.mem_of_find?_eq_some h
  exact ⟨hmem, (outweighs_iff hok (mem_of_mem_visits hmem)).mp (List.find?_some h)⟩

private theorem elected_ne_none {v : PeggyVote} (hok : ∀ w ∈ votes, w.Ok) (hv : v ∈ visits votes start)
    (h : Supported votes v) : elected votes start ≠ none := by
  intro hnone
  exact List.find?_eq_none.mp hnone v hv ((outweighs_iff hok (mem_of_mem_visits hv)).mpr h)

private theorem mem_visits_iff_reached (hstart : start < 2^32) (hlen : votes.length ≤ 2^32) {v : PeggyVote} :
    v ∈ visits votes start ↔ ∃ i, votes[i]? = some v ∧ Reached votes.length start i := by
  have hget : ∀ k, (hk : k < votes.length) → votes[voteInd votes.length start k]? =
      some (votes.getD (voteInd votes.length start k) default) := by
    intro k hk
    have hlt : voteInd votes.length start k < votes.length := Nat.mod_lt _ (Nat.zero_lt_of_lt hk)
    rw [List.getD_eq_getElem?_getD, List.getElem?_eq_getElem hlt]
    rfl
  rw [mem_visits]
  constructor
  · rintro ⟨k, hk, rfl⟩
    have hlt : voteInd votes.length start k < votes.length := Nat.mod_lt _ (Nat.zero_lt_of_lt hk)
    exact ⟨_, hget k hk, (reached_iff hstart hlen hlt).mp ⟨k, hk, rfl⟩⟩
  · rintro ⟨i, hi, hreached⟩
    obtain ⟨k, hk, rfl⟩ := (reached_iff hstart hlen (List.getElem?_eq_some_iff.mp hi).1).mpr hreached
    exact ⟨k, hk, Option.some.inj ((hget k hk).symm.trans hi)⟩

private theorem elected_isSome_iff (hok : ∀ w ∈ votes, w.Ok) (hstart : start < 2^32) (hlen : votes.length ≤ 2^32) :
    (∃ v, elected votes start = some v) ↔
      ∃ i v, votes[i]? = some v ∧ Supported votes v ∧ Reached votes.length start i := by
  constructor
  · rintro ⟨v, hv⟩
    obtain ⟨hvisit, hsupp⟩ := supported_of_elected hok hv
    obtain ⟨i, hi, hreached⟩ := (mem_visits_iff_reached hstart hlen).mp hvisit
    exact ⟨i, v, hi, hsupp, hreached⟩
  · rintro ⟨i, v, hi, hsupp, hreached⟩
    exact Option.ne_none_iff_exists'.mp
      (elected_ne_none hok ((mem_visits_iff_reached hstart hlen).mpr ⟨i, hi, hreached⟩) hsupp)

end Elected

/-- The votes are decided right exactly when none that counts is behind the end of `wts` and the loop comes to a
supported vote if there is one. -/
theorem consensus_iff {votes : List PeggyVote} {quorum decisionthreshold : Nat} (price pricedpeg : Int) (seed : Nat)
    (hlen : votes.length < 2^32) (hok : ∀ v ∈ votes, v.Ok) (hquorum : quorum ≤ totalwt votes)
    (hthreshold : decisionthreshold ≤ totalwt votes) :
    (Consensus votes price fun newprice =>
        peggyPriceconsensus newprice quorum decisionthreshold price pricedpeg seed votes) ↔
      (∀ v ∈ votes.drop peggyNumcoeffs, v.pval = 0) ∧
        ((∃ v ∈ votes, Supported votes v) →
          ∃ i v, votes[i]? = some v ∧ Supported votes v ∧ Reached votes.length (voteStart pricedpeg seed) i) := by
  have hstart : voteStart pricedpeg seed < 2^32 := unsigned_lt 32 _
  have helected := elected_isSome_iff hok hstart hlen.le
  have hfits : (∀ v ∈ votes.drop peggyNumcoeffs, v.pval = 0) ↔ ¬ totalwt (votes.drop peggyNumcoeffs) ≠ 0 := by
    rw [not_not, totalwt, List.countP_eq_zero]
    simp
  have hmet : ¬ (totalwt votes < quorum ∨ totalwt votes < decisionthreshold) :=
    not_or.mpr ⟨Nat.not_lt_of_le hquorum, Nat.not_lt_of_le hthreshold⟩
  rw [hfits]
  constructor
  · intro h
    -- with or without a supported vote, the claim has the call return
    have hreturns : ∃ p, peggyPriceconsensus (fun _ => price + 1) quorum decisionthreshold price pricedpeg seed votes = some p := by
      by_cases hsupp : ∃ v ∈ votes, Supported votes v
      · obtain ⟨v, -, -, hv⟩ := h.adopted hsupp
        exact ⟨_, hv _⟩
      · exact ⟨_, h.unchanged hsupp _⟩
    have hfit : ¬ totalwt (votes.drop peggyNumcoeffs) ≠ 0 := by
      intro hover
      obtain ⟨p, hp⟩ := hreturns
      rw [peggyPriceconsensus, if_pos hover] at hp
      cases hp
    refine ⟨hfit, fun hsupp => helected.mp ?_⟩
    by_contra hnone
    obtain ⟨v, -, -, hv⟩ := h.adopted hsupp
    have hprice := hv fun _ => price + 1
    rw [peggyPriceconsensus, if_neg hfit, if_neg hmet, Option.eq_none_iff_forall_ne_some.mpr (not_exists.mp hnone)] at hprice
    exact absurd (Option.some.inj hprice) (by omega)
  · rintro ⟨hfit, hreached⟩
    constructor
    · intro hsupp
      obtain ⟨w, hw⟩ := helected.mpr (hreached hsupp)
      obtain ⟨hvisit, hwsupp⟩ := supported_of_elected hok hw
      refine ⟨w, mem_of_mem_visits hvisit, hwsupp, fun newprice => ?_⟩
      rw [peggyPriceconsensus, if_neg hfit, if_neg hmet, hw]
    · intro hno newprice
      have hnone : elected votes (voteStart pricedpeg seed) = none := by
        cases he : elected votes (voteStart pricedpeg seed) with
        | none => rfl
        | some w =>
          obtain ⟨hvisit, hwsupp⟩ := supported_of_elected hok he
          exact absurd ⟨w, mem_of_mem_visits hvisit, hwsupp⟩ hno
      rw [peggyPriceconsensus, if_neg hfit, if_neg hmet, hnone]

/-- Two prices and one between them that both tolerate. -/
def splitVotes : List PeggyVote := [⟨100, 50⟩, ⟨200, 50⟩, ⟨150, 0⟩]

/-- From a start that does not wrap, the walk comes to the vote between. -/
theorem splitVotes_decided : Consensus splitVotes 0 fun newprice => peggyPriceconsensus newprice 1 1 0 1 7 splitVotes := by
  have hreached : Reached splitVotes.length (voteStart 1 7) 2 := by
    rw [Reached, if_neg (by decide)]
    decide
  exact (consensus_iff 0 1 7 (by decide) (by decide) (by decide) (by decide)).mpr
    ⟨by decide, fun _ => ⟨2, ⟨150, 0⟩, rfl, by decide, hreached⟩⟩

/-- From the last word it does not: it goes to votes 0, 0 and 1. -/

theorem splitVotes_missed : ¬ Consensus splitVotes 0 fun newprice =>
    peggyPriceconsensus newprice 1 1 0 1 (2^32 - 1) splitVotes := by
  intro h
  obtain ⟨v, -, -, hv⟩ := h.adopted ⟨⟨150, 0⟩, by decide, by decide, by decide⟩
  have hprice := hv fun _ => 1
  have hnone : peggyPriceconsensus (fun _ => 1) 1 1 0 1 (2^32 - 1) splitVotes = some 0 := by decide +kernel
  rw [hnone] at hprice
  cases hprice

end SuperNet.Peggy.PeggyConsensus
