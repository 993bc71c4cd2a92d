import SuperNet.Lib.Packing
import SuperNet.Lib.Words
import SuperNet.Utils.SaM

/-! The proof of work of SaM.c: hits, thresholds and the check of a nonce. -/
namespace SuperNet.Utils.SaM
open SuperNet.Lib.Bytes SuperNet.Lib.Packing SuperNet.Lib.Runs SuperNet.Lib.Words

def SAMHIT_LIMIT : Nat := 7625597484987

def saMHit (hash : List Trit) : Nat := (hash.take 27).foldl (fun hit t => u64 (hit * 3 + t + 1)) 0

/-- `SaM`: the signature and the hit. -/
def saM (input input2 : List UInt8) : List UInt8 × Nat :=
  let trits := saMAbsorb saMInitialize input input2
  ((saMEmit trits).1, saMHit (trits.toList.take SAM_HASH_SIZE))

def saMThreshold (leverage : Int) : Nat :=
  let leverage := if leverage > 26 then 26 else leverage
  let divisor := rounds (fun divisor _ => u64 (divisor * 3 : Nat)) 1 leverage.toNat
  SAMHIT_LIMIT / divisor

/-- The hit of a nonce. The eight bits a byte that `SaM_Absorb` counts in an `int32_t` fit for `data` below 2^27 bytes. -/
def nonceHit (data : List UInt8) (nonce : UInt32) : Nat := (saM data (leBytes 4 nonce.toNat)).2

/-- The loop of the searching mode over the nonces that `randombytes` gives before the time is over. -/
def saMSearch (data : List UInt8) (threshold : Nat) (nonces : List UInt32) : Option UInt32 :=
  nonces.find? fun nonce => nonceHit data nonce < threshold

/-- `SaM_nonce`. There are nonces to search in when `maxmillis` is not zero. -/
def saMNonce (data : List UInt8) (leverage : Int) (search : Option (List UInt32)) (nonce : UInt32) : Nat :=
  if leverage ≠ 0 then
    let threshold := saMThreshold leverage
    match search with
    | none =>
      let hit := nonceHit data nonce
      if hit ≥ threshold then
        if u64 ((threshold : Int) - hit) > 1 <<< 32 then 0xffffffff else u32 (u64 ((threshold : Int) - hit))
      else 0
    | some nonces => ((saMSearch data threshold nonces).map UInt32.toNat).getD 0
  else 0

/-- The check accepts the nonces below the threshold, which are those that a search may return. -/
structure Checked (data : List UInt8) (leverage : Int) (nonce : UInt32) : Prop where
  below : saMNonce data leverage none nonce = 0 ↔ nonceHit data nonce < saMThreshold leverage
  found : saMNonce data leverage none nonce = 0 ↔ ∃ nonces, saMSearch data (saMThreshold leverage) nonces = some nonce

section Rounds

/-- The order in which a round visits the trits. -/
def chain (i : Nat) : Nat := SAM_DELTA * i % SAM_STATE_SIZE

theorem chain_lt (i : Nat) : chain i < SAM_STATE_SIZE := Nat.mod_lt _ (by decide)

theorem chain_zero : chain 0 = 0 := rfl

theorem chain_succ (i : Nat) : (chain i + SAM_DELTA) % SAM_STATE_SIZE = chain (i + 1) := by
  rw [chain, chain, Nat.mod_add_mod, Nat.mul_succ]

private theorem rounds_push {α : Type} {f : Array α × Nat → Nat → Array α × Nat} {c : Nat} (cur : Nat → Nat) (val : Nat → α)
    (n : Nat) (hcur : cur 0 = c) (hstep : ∀ k < n, ∀ entries, f (entries, cur k) k = (entries.push (val k), cur (k + 1))) :
    rounds f (#[], c) n = (((List.range n).map val).toArray, cur n) := by
  induction n with
  | zero => rw [rounds_zero, hcur]; rfl
  | succ n ih =>
    rw [rounds_succ, ih fun k hk => hstep k (Nat.lt_succ_of_lt hk), hstep n (Nat.lt_succ_self n), List.range_succ,
      List.map_append, List.map_singleton, List.push_toArray]

private theorem getD_range {α : Type} (val : Nat → α) {i n : Nat} (hi : i < n) (d : α) :
    ((List.range n).map val).toArray.getD i d = val i := by
  simp [Array.getD, hi]

theorem saMIndices_eq : saMIndices = ((List.range SAM_STATE_SIZE).map fun i => chain (i + 1)).toArray := by
  rw [saMIndices, rounds_push chain (fun i => chain (i + 1)) SAM_STATE_SIZE chain_zero]
  intro k _ entries
  rw [← chain_succ]

theorem mergeLoop_eq (f : Nat → Nat → Trit × Trit) : mergeLoop 0 f =
    (((List.range SAM_STATE_SIZE).map fun i => f (chain i) (chain (i + 1))).toArray, 0) := by
  rw [mergeLoop, rounds_push chain (fun i => f (chain i) (chain (i + 1))) SAM_STATE_SIZE chain_zero]
  · rfl
  · intro k hk entries
    rw [saMIndices_eq, getD_range _ hk]

/-- The trit that a round stores at `i`, of the four that it depends on. -/
def roundTrit (t : Nat → Trit) (i : Nat) : Trit :=
  tableTrit SAMSUM (tableTrit SAMBIAS (t (chain (chain i))) (t (chain (chain i + 1))))
    (tableTrit SAMBIAS (t (chain (chain (i + 1) + 1))) (t (chain (chain (i + 1)))))

theorem splitAndMergeRound_eq (trits : Array Trit) (k : Nat) : splitAndMergeRound (trits, 0) k =
    (((List.range SAM_STATE_SIZE).map (roundTrit fun i => trits.getD i 0)).toArray, 0) := by
  rw [splitAndMergeRound, mergeLoop_eq]
  dsimp only
  rw [mergeLoop_eq]
  dsimp only
  rw [List.map_toArray, List.map_map, List.map_congr_left (g := roundTrit fun i => trits.getD i 0)]
  intro i _
  rw [Function.comp_apply, getD_range _ (chain_lt i), getD_range _ (chain_lt (i + 1))]
  rfl

theorem saMSplitAndMerge_eq (trits : Array Trit) : saMSplitAndMerge trits =
    (fun trits => ((List.range SAM_STATE_SIZE).map (roundTrit fun i => trits.getD i 0)).toArray)^[SAM_NUMBER_OF_ROUNDS]
      trits := by
  have hrounds : ∀ n, rounds splitAndMergeRound (trits, 0) n =
      ((fun trits => ((List.range SAM_STATE_SIZE).map (roundTrit fun i => trits.getD i 0)).toArray)^[n] trits, 0) := by
    intro n
    induction n with
    | zero => rfl
    | succ n ih => rw [rounds_succ, ih, splitAndMergeRound_eq, Function.iterate_succ_apply']
  rw [saMSplitAndMerge, hrounds]

private theorem tableTrit_sum (a b : Trit) : (-1 : Int) ≤ tableTrit SAMSUM a b ∧ tableTrit SAMSUM a b ≤ 1 := by
  have hall : ∀ row ∈ [] :: SAMSUM, ∀ t ∈ 0 :: row, -1 ≤ t ∧ t ≤ 1 := by decide
  have hmem : ∀ {α : Type} (l : List α) (i : Nat) (d : α), l.getD i d ∈ d :: l := by
    intro α l i d
    rw [List.getD_eq_getElem?_getD]
    cases h : l[i]? with
    | none => exact List.mem_cons_self
    | some x => exact List.mem_cons_of_mem d (List.mem_of_getElem? h)
  exact hall _ (hmem _ _ _) _ (hmem _ _ _)

theorem roundTrit_bounds (t : Nat → Trit) (i : Nat) : (-1 : Int) ≤ roundTrit t i ∧ roundTrit t i ≤ 1 := tableTrit_sum _ _

theorem saMSplitAndMerge_trits (trits : Array Trit) : ∀ t : Int, t ∈ (saMSplitAndMerge trits).toList → -1 ≤ t ∧ t ≤ 1 := by
  have hrounds : SAM_NUMBER_OF_ROUNDS = 8 + 1 := rfl
  rw [saMSplitAndMerge_eq, hrounds, Function.iterate_succ_apply']
  intro t ht
  rw [List.toList_toArray] at ht
  obtain ⟨i, -, rfl⟩ := List.mem_map.mp ht
  exact roundTrit_bounds _ i

theorem absorbTrits_trits (n : Nat) (trits : Array Trit) (input : List Trit) :
    ∀ t : Int, t ∈ (absorbTrits (n + 1) trits input).toList → -1 ≤ t ∧ t ≤ 1 := by
  induction n generalizing trits input with
  | zero =>
    rw [absorbTrits, absorbTrits, ite_self]
    exact saMSplitAndMerge_trits _
  | succ n ih =>
    rw [absorbTrits]
    split
    · exact saMSplitAndMerge_trits _
    · exact ih _ _

end Rounds

section Packed

/-- An entry of a table of three rows, in digits. -/
def tableDigit (table a b : Nat) : Nat := digit table (3 * a + b)

/-- `SAMBIAS` and `SAMSUM`. -/
def biasDigits : Nat := 9546
def sumDigits : Nat := 39186

def roundDigit (x i : Nat) : Nat :=
  tableDigit sumDigits (tableDigit biasDigits (digit x (chain (chain i))) (digit x (chain (chain i + 1))))
    (tableDigit biasDigits (digit x (chain (chain (i + 1) + 1))) (digit x (chain (chain (i + 1)))))

def packedRound (x : Nat) : Nat := pack (roundDigit x) 10 0

structure Packed (trits : Array Trit) (x : Nat) : Prop where
  size : trits.size = SAM_STATE_SIZE
  trit : ∀ i < SAM_STATE_SIZE, trits.getD i 0 = (digit x i : Int) - 1
  lt_three : ∀ i < SAM_STATE_SIZE, digit x i < 3

private theorem tables_digits : ∀ a : Nat, a < 3 → ∀ b : Nat, b < 3 →
    (tableTrit SAMBIAS ((a : Int) - 1) ((b : Int) - 1) = (tableDigit biasDigits a b : Int) - 1 ∧ tableDigit biasDigits a b < 3) ∧
    tableTrit SAMSUM ((a : Int) - 1) ((b : Int) - 1) = (tableDigit sumDigits a b : Int) - 1 ∧ tableDigit sumDigits a b < 3 := by
  decide

theorem Packed.round {trits : Array Trit} {x : Nat} (h : Packed trits x) :
    Packed ((List.range SAM_STATE_SIZE).map (roundTrit fun i => trits.getD i 0)).toArray (packedRound x) := by
  have hround : ∀ i, roundTrit (fun i => trits.getD i 0) i = (roundDigit x i : Int) - 1 ∧ roundDigit x i < 3 := by
    intro i
    have hbias : ∀ j k, tableTrit SAMBIAS (trits.getD (chain j) 0) (trits.getD (chain k) 0) =
        (tableDigit biasDigits (digit x (chain j)) (digit x (chain k)) : Int) - 1 ∧
          tableDigit biasDigits (digit x (chain j)) (digit x (chain k)) < 3 := by
      intro j k
      rw [h.trit _ (chain_lt j), h.trit _ (chain_lt k)]
      exact (tables_digits _ (h.lt_three _ (chain_lt j)) _ (h.lt_three _ (chain_lt k))).1
    obtain ⟨hleft, hleft3⟩ := hbias (chain i) (chain i + 1)
    obtain ⟨hright, hright3⟩ := hbias (chain (i + 1) + 1) (chain (i + 1))
    rw [roundTrit, hleft, hright]
    exact (tables_digits _ hleft3 _ hright3).2
  have hdigit : ∀ i < SAM_STATE_SIZE, digit (packedRound x) i = roundDigit x i := by
    intro i hi
    have hsize : SAM_STATE_SIZE < 2^10 := by decide
    rw [packedRound, digit_pack (d := roundDigit x) (fun _ => digit_lt _ _) 10 0 (hi.trans hsize), Nat.zero_add]
  refine ⟨by rw [List.size_toArray, List.length_map, List.length_range], ?_, ?_⟩
  · intro i hi
    rw [getD_range _ hi, hdigit i hi]
    exact (hround i).1
  · intro i hi
    rw [hdigit i hi]
    exact (hround i).2

theorem Packed.splitAndMerge {trits : Array Trit} {x : Nat} (h : Packed trits x) :
    Packed (saMSplitAndMerge trits) (packedRound^[SAM_NUMBER_OF_ROUNDS] x) := by
  rw [saMSplitAndMerge_eq]
  generalize SAM_NUMBER_OF_ROUNDS = n
  induction n with
  | zero => exact h
  | succ n ih =>
    rw [Function.iterate_succ_apply', Function.iterate_succ_apply']
    exact ih.round

/-- A block of input, filled up, in front of the initial state. -/
def startTrit (input : List Trit) (i : Nat) : Int := if i < SAM_HASH_SIZE then input.getD i (padTrit i) else padTrit i

def startDigits (input : List Trit) : Nat := pack (fun i => (startTrit input i + 1).toNat) 10 0

theorem packed_start {input : List Trit} (h : ∀ t : Int, t ∈ input → -1 ≤ t ∧ t ≤ 1) :
    Packed (saMInitialize.mapIdx fun i t => if i < SAM_HASH_SIZE then input.getD i (padTrit i) else t) (startDigits input) := by
  have hpad : ∀ i, -1 ≤ padTrit i ∧ padTrit i ≤ 1 := by
    intro i
    rw [padTrit]
    split <;> decide
  have hstart : ∀ i, -1 ≤ startTrit input i ∧ startTrit input i ≤ 1 := by
    intro i
    rw [startTrit]
    split
    · rw [List.getD_eq_getElem?_getD]
      cases hi : input[i]? with
      | none => exact hpad i
      | some t => exact h t (List.mem_of_getElem? hi)
    · exact hpad i
  have hdigit : ∀ i < SAM_STATE_SIZE, (digit (startDigits input) i : Int) = startTrit input i + 1 := by
    intro i hi
    obtain ⟨hlo, hhi⟩ := hstart i
    have hsize : SAM_STATE_SIZE < 2^10 := by decide
    have hlt : ∀ i, (startTrit input i + 1).toNat < 4 := by
      intro i
      have := (hstart i).2
      omega
    rw [startDigits, digit_pack hlt 10 0 (hi.trans hsize), Nat.zero_add, Int.toNat_of_nonneg (by omega)]
  refine ⟨?_, ?_, ?_⟩
  · rw [Array.size_mapIdx, saMInitialize, Array.size_map, Array.size_range]
  · intro i hi
    rw [hdigit i hi, Int.add_sub_cancel, startTrit]
    simp only [saMInitialize, Array.getD_eq_getD_getElem?, Array.getElem?_mapIdx, Array.getElem?_map, Array.getElem?_range, hi,
      if_true, Option.map_some, Option.getD_some]
    split <;> rfl
  · intro i hi
    have hsum := hdigit i hi
    have hhi := (hstart i).2
    omega

def packedHit (x : Nat) : Nat := saMHit ((List.range 27).map fun i => (digit x i : Int) - 1)

theorem Packed.hit {trits : Array Trit} {x : Nat} (h : Packed trits x) :
    saMHit (trits.toList.take SAM_HASH_SIZE) = packedHit x := by
  have hfirst : (trits.toList.take SAM_HASH_SIZE).take 27 = (List.range 27).map fun i => (digit x i : Int) - 1 := by
    apply List.ext_getElem
    · rw [List.length_take, List.length_take, Array.length_toList, h.size, List.length_map, List.length_range]
      decide
    · intro i hi hi'
      rw [List.length_map, List.length_range] at hi'
      have hsize : i < SAM_STATE_SIZE := hi'.trans (by decide)
      have htrit := h.trit i hsize
      rw [List.getElem_take, List.getElem_take, List.getElem_map, List.getElem_range, ← htrit]
      simp [Array.getD, h.size, hsize]
  rw [packedHit, saMHit, saMHit, hfirst, List.take_of_length_le (by rw [List.length_map, List.length_range])]

theorem nonceHit_packed (data : List UInt8) (nonce : UInt32) (hlen : data.length ≤ 26) : nonceHit data nonce =
    packedHit (packedRound^[SAM_NUMBER_OF_ROUNDS] (startDigits ((data ++ leBytes 4 nonce.toNat).flatMap byteTrits))) := by
  have hbits : ((data ++ leBytes 4 nonce.toNat).flatMap byteTrits).length ≤ SAM_HASH_SIZE := by
    have hbyte : ∀ b : UInt8, (byteTrits b).length = 8 := fun b => by rw [byteTrits, List.length_map, List.length_range]
    have hfour : (leBytes 4 nonce.toNat).length = 4 := leBytes_length 4 _
    simp only [List.length_flatMap, hbyte, List.map_const', List.sum_replicate, List.length_append, hfour, smul_eq_mul]
    rw [SAM_HASH_SIZE]
    omega
  have htrits : ∀ t : Int, t ∈ (data ++ leBytes 4 nonce.toNat).flatMap byteTrits → -1 ≤ t ∧ t ≤ 1 := by
    intro t ht
    obtain ⟨b, -, hb⟩ := List.mem_flatMap.mp ht
    obtain ⟨i, -, rfl⟩ := List.mem_map.mp hb
    split <;> decide
  rw [← (packed_start htrits).splitAndMerge.hit, nonceHit, saM, saMAbsorb, absorbTrits, List.take_of_length_le hbits,
    if_pos hbits, absorbBlock]

end Packed

section Check
variable {data : List UInt8} {leverage : Int} {nonce : UInt32}

theorem saMHit_lt {hash : List Trit} (h : ∀ t : Int, t ∈ hash → -1 ≤ t ∧ t ≤ 1) : saMHit hash < 3^27 := by
  have hfold : ∀ (l : List Trit) (k hit : Nat), (∀ t : Int, t ∈ l → -1 ≤ t ∧ t ≤ 1) → k + l.length ≤ 27 → hit < 3^k →
      l.foldl (fun hit t => u64 (hit * 3 + t + 1)) hit < 3^(k + l.length) := by
    intro l
    induction l with
    | nil => exact fun k hit _ _ hhit => hhit
    | cons t l ih =>
      intro k hit ht hk hhit
      have hk' : k + 1 + l.length ≤ 27 := by
        rw [List.length_cons] at hk
        omega
      have hpow : (3 : Nat)^(k + 1) ≤ 3^27 := Nat.pow_le_pow_right (by decide) (by omega)
      have hlimit : (3 : Nat)^27 < 2^64 := by decide
      obtain ⟨hlo, hhi⟩ := ht t List.mem_cons_self
      have hstep : (u64 (hit * 3 + t + 1) : Int) = hit * 3 + t + 1 := by
        apply unsigned_of_bounds
        · omega
        · rw [Nat.pow_succ] at hpow
          have : (hit : Int) < 3^k := by exact_mod_cast hhit
          zify at hpow hlimit
          omega
      have hnext : u64 (hit * 3 + t + 1) < 3^(k + 1) := by
        zify
        rw [hstep, pow_succ]
        have : (hit : Int) < 3^k := by exact_mod_cast hhit
        omega
      have hrest := ih (k + 1) _ (fun t' ht' => ht t' (List.mem_cons_of_mem t ht')) hk' hnext
      rw [List.foldl_cons, List.length_cons, Nat.add_comm l.length, ← Nat.add_assoc]
      exact hrest
  have hlen : (hash.take 27).length ≤ 27 := List.length_take_le 27 hash
  have hhit := hfold (hash.take 27) 0 0 (fun t ht => h t (List.mem_of_mem_take ht)) (by omega) Nat.one_pos
  rw [Nat.zero_add] at hhit
  exact hhit.trans_le (Nat.pow_le_pow_right (by decide) hlen)

theorem nonceHit_lt (data : List UInt8) (nonce : UInt32) : nonceHit data nonce < 3^27 := by
  apply saMHit_lt
  intro t ht
  exact absorbTrits_trits _ _ _ t (List.mem_of_mem_take ht)

theorem saMThreshold_lt (leverage : Int) : saMThreshold leverage < 2^64 := by
  have hlimit : SAMHIT_LIMIT < 2^64 := by decide
  exact (Nat.div_le_self _ _).trans_lt hlimit

/-- The check returns 0 up to the threshold, which it includes. -/
theorem saMNonce_checking (hl : 0 < leverage) :
    saMNonce data leverage none nonce = 0 ↔ nonceHit data nonce ≤ saMThreshold leverage := by
  have hhit := nonceHit_lt data nonce
  have hthreshold := saMThreshold_lt leverage
  have hpow : (3 : Nat)^27 + 2^32 < 2^64 := by decide
  rw [saMNonce, if_pos hl.ne']
  dsimp only
  generalize nonceHit data nonce = hit at hhit ⊢
  generalize saMThreshold leverage = threshold at hthreshold ⊢
  by_cases hge : hit ≥ threshold
  · rw [if_pos hge]
    obtain heq | hgt := Nat.eq_or_lt_of_le hge
    · have hzero : u64 ((threshold : Int) - hit) = 0 := by
        rw [heq, sub_self]
        rfl
      rw [hzero, if_neg (by decide)]
      exact ⟨fun _ => heq.ge, fun _ => rfl⟩
    · -- The difference has wrapped: it is `2^64` less what the hit is above the threshold.
      have hwrap : u64 ((threshold : Int) - hit) = 2^64 - (hit - threshold) := by
        have hsum : ((threshold : Int) - hit) = ((2^64 - (hit - threshold) : Nat) : Int) + -1 * 2^64 := by omega
        rw [hsum, u64, unsigned, Int.add_mul_emod_self_right, ← unsigned, unsigned_of_lt (by omega)]
      have hone : (1 : Nat) <<< 32 = 2^32 := rfl
      rw [hwrap, if_pos (by omega)]
      exact ⟨fun h => absurd h (by decide), fun h => absurd h (Nat.not_le_of_lt hgt)⟩
  · rw [if_neg hge]
    exact ⟨fun _ => (Nat.lt_of_not_le hge).le, fun _ => rfl⟩

/-- A search may return the nonces with a hit below the threshold. -/
theorem saMSearch_some {threshold : Nat} :
    (∃ nonces, saMSearch data threshold nonces = some nonce) ↔ nonceHit data nonce < threshold := by
  constructor
  · rintro ⟨nonces, h⟩
    exact of_decide_eq_true (List.find?_some (p := fun nonce => decide (nonceHit data nonce < threshold)) h)
  · intro h
    refine ⟨[nonce], ?_⟩
    rw [saMSearch, List.find?_cons_of_pos]
    exact decide_eq_true h

/-- A nonce is checked as it is searched for unless its hit is the threshold itself. -/
theorem checked_iff (hl : 0 < leverage) : Checked data leverage nonce ↔ nonceHit data nonce ≠ saMThreshold leverage := by
  constructor
  · intro h heq
    have hlt := h.below.mp ((saMNonce_checking hl).mpr heq.le)
    exact absurd heq hlt.ne
  · intro hne
    have hbelow : saMNonce data leverage none nonce = 0 ↔ nonceHit data nonce < saMThreshold leverage := by
      rw [saMNonce_checking hl]
      exact ⟨fun hle => Nat.lt_of_le_of_ne hle hne, Nat.le_of_lt⟩
    exact ⟨hbelow, hbelow.trans saMSearch_some.symm⟩

end Check

/-- Data of 12 bytes with a nonce whose hit is the threshold for leverage 2. -/
def exactData : List UInt8 := [0x5c, 0x9c, 0x13, 0x40, 0xe1, 0x7c, 0x50, 0x63, 0x59, 0x63, 0xac, 0x30]
def exactNonce : UInt32 := 0xee0b8db9

theorem nonceHit_exact : nonceHit exactData exactNonce = saMThreshold 2 := by
  have hhit : packedHit (packedRound^[SAM_NUMBER_OF_ROUNDS]
      (startDigits ((exactData ++ leBytes 4 exactNonce.toNat).flatMap byteTrits))) = 3^25 := by decide +kernel
  rw [nonceHit_packed exactData exactNonce (by decide), hhit]
  decide

theorem checked_iff_exact : Checked exactData 1 exactNonce ↔ nonceHit exactData exactNonce ≠ saMThreshold 1 :=
  checked_iff (by decide)

/-- The check also accepts a nonce whose hit is the threshold, which no search returns. -/
theorem exact_hit_accepted : ¬ ∀ (data : List UInt8) (leverage : Int) (nonce : UInt32), 0 < leverage →
    Checked data leverage nonce := by
  intro h
  have hchecked := h exactData 2 exactNonce (by decide)
  have hlt := hchecked.below.mp ((saMNonce_checking (by decide)).mpr nonceHit_exact.le)
  exact absurd nonceHit_exact hlt.ne

end SuperNet.Utils.SaM
