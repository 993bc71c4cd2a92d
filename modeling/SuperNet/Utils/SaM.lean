import SuperNet.Lib.Bytes
import SuperNet.Lib.Runs

/-! The ternary sponge of SaM.c and the XOR pad that signs and encrypts with it. -/
namespace SuperNet.Utils.SaM
open SuperNet.Lib.Bytes SuperNet.Lib.Runs

abbrev Trit := Int

def SAM_HASH_SIZE : Nat := 243
def SAM_STATE_SIZE : Nat := SAM_HASH_SIZE * 3
def SAM_NUMBER_OF_ROUNDS : Nat := 9
def SAM_DELTA : Nat := 254

/-- The table that `SaM_PrepareIndices` fills at the start of the program. -/
def saMIndices : Array Nat :=
  (rounds (fun (s : Array Nat × Nat) _ =>
    let nextIndex := (s.2 + SAM_DELTA) % SAM_STATE_SIZE
    (s.1.push nextIndex, nextIndex)) (#[], 0) SAM_STATE_SIZE).1

def SAMSUM : List (List Trit) := [[1, -1, 0], [-1, 0, 1], [0, 1, -1]]
def SAMBIAS : List (List Trit) := [[1, 1, -1], [0, 0, 0], [1, -1, -1]]

def tableTrit (table : List (List Trit)) (a b : Trit) : Trit := (table.getD (a + 1).toNat []).getD (1 + b).toNat 0

/-- One of the two loops of a round: an entry for each index and its successor. -/
def mergeLoop (currentIndex : Nat) (f : Nat → Nat → Trit × Trit) : Array (Trit × Trit) × Nat :=
  rounds (fun (s : Array (Trit × Trit) × Nat) i =>
    let nextIndex := saMIndices.getD i 0
    (s.1.push (f s.2 nextIndex), nextIndex)) (#[], currentIndex) SAM_STATE_SIZE

def splitAndMergeRound (s : Array Trit × Nat) (_ : Nat) : Array Trit × Nat :=
  let (trits, currentIndex) := s
  let (parts, currentIndex) := mergeLoop currentIndex fun cur next =>
    (tableTrit SAMBIAS (trits.getD cur 0) (trits.getD next 0), tableTrit SAMBIAS (trits.getD next 0) (trits.getD cur 0))
  let (merged, currentIndex) := mergeLoop currentIndex fun cur next =>
    (tableTrit SAMSUM (parts.getD cur (0, 0)).1 (parts.getD next (0, 0)).2, 0)
  (merged.map Prod.fst, currentIndex)

def saMSplitAndMerge (trits : Array Trit) : Array Trit :=
  (rounds splitAndMergeRound (trits, 0) SAM_NUMBER_OF_ROUNDS).1

def padTrit (i : Nat) : Trit := if i &&& 1 ≠ 0 then 1 else -1

/-- `SaM_Initialize`. The first trits are not set; absorbing sets them. -/
def saMInitialize : Array Trit :=
  (Array.range SAM_STATE_SIZE).map fun i => if i < SAM_HASH_SIZE then 0 else padTrit i

/-- One block of `_SaM_Absorb`, filled up with the pattern of the initial state. -/
def absorbBlock (trits : Array Trit) (input : List Trit) : Array Trit :=
  saMSplitAndMerge (trits.mapIdx fun i t => if i < SAM_HASH_SIZE then input.getD i (padTrit i) else t)

/-- `_SaM_Absorb`, with a bound on its rounds; there is a block even of no input. -/
def absorbTrits : Nat → Array Trit → List Trit → Array Trit
  | 0, trits, _ => trits
  | n + 1, trits, input =>
    let trits := absorbBlock trits (input.take SAM_HASH_SIZE)
    if input.length ≤ SAM_HASH_SIZE then trits else absorbTrits n trits (input.drop SAM_HASH_SIZE)

def byteTrits (b : UInt8) : List Trit := (List.range 8).map fun i => if b.toNat.testBit i then 1 else 0

def saMAbsorb (trits : Array Trit) (input input2 : List UInt8) : Array Trit :=
  let bits := (input ++ input2).flatMap byteTrits
  absorbTrits (bits.length + 1) trits bits

def rawbits (hash : List Trit) : Nat := hash.foldl (fun raw t => raw * 3 + (t + 1).toNat) 0

def emitBytes (hash : List Trit) : List UInt8 :=
  let bits19 := (List.range 20).map fun i => (rawbits ((hash.drop (i * 12)).take 12) <<< 19) / 531441 &&& 0x7ffff
  let last := (rawbits ((hash.drop 240).take 3) <<< 4) / 27 &&& 0xf
  let bits64 := (bits19.foldl (fun bits64 b => (bits64 <<< 3) ||| ((b >>> 16) &&& 7)) 0 <<< 4) ||| last
  bits19.flatMap (leBytes 2) ++ leBytes 8 bits64

/-- `SaM_emit`: the bytes and the state after it. -/
def saMEmit (trits : Array Trit) : List UInt8 × Array Trit :=
  (emitBytes (trits.toList.take SAM_HASH_SIZE), saMSplitAndMerge trits)

/-- The size of a `bits384`. -/
def BLOCK : Nat := 48

/-- The loop of `SaM_encrypt` over the `left` bytes from `src` on, with a bound on its rounds. Of
`xorpad` a last block that is not full leaves the bytes behind it as they were. -/
def encryptLoop : Nat → Array Trit → (Nat → UInt8) → (Nat → UInt8) → Nat → (Nat → UInt8)
  | 0, _, xorpad, _, _ => xorpad
  | n + 1, trits, xorpad, src, left =>
    if left = 0 then xorpad
    else
      let size := min BLOCK left
      let xorpad := fun i => if i < size then (saMEmit trits).1.getD i 0 ^^^ src i else xorpad i
      encryptLoop n (saMEmit trits).2 xorpad (fun k => src (size + k)) (left - size)

def encryptState (password : List UInt8) (timestamp : UInt32) : Array Trit :=
  saMAbsorb saMInitialize password (leBytes 4 timestamp.toNat)

/-- The value that `SaM_encrypt` returns. The loop runs while `len >= 0` and reads `len + 1` bytes;
`stack` is what `xorpad` holds before it is set. -/
def saMEncrypt (stack : Nat → UInt8) (src : Nat → UInt8) (len : Nat) (password : List UInt8) (timestamp : UInt32) :
    List UInt8 :=
  (List.range BLOCK).map (encryptLoop (len + 1) (encryptState password timestamp) stack src (len + 1))

def padByte (trits : Array Trit) (p : Nat) : UInt8 :=
  (saMEmit ((fun trits => (saMEmit trits).2)^[p / BLOCK] trits)).1.getD (p % BLOCK) 0

private theorem padByte_of_lt (trits : Array Trit) {p : Nat} (h : p < BLOCK) :
    padByte trits p = (saMEmit trits).1.getD p 0 := by
  rw [padByte, Nat.div_eq_of_lt h, Nat.mod_eq_of_lt h]
  rfl

private theorem padByte_add (trits : Array Trit) (p : Nat) :
    padByte trits (BLOCK + p) = padByte (saMEmit trits).2 p := by
  rw [padByte, Nat.add_div_left p (by decide), Nat.add_mod_left, Function.iterate_succ_apply]
  rfl

/-- The last of the first `n` places that falls on byte `i` of a block. -/
def lastPlace (n i : Nat) : Nat := n - 1 - (n - 1 - i) % BLOCK

/-- The loop leaves in each byte of the block the last byte of the source that falls on it. -/
theorem encryptLoop_byte (n : Nat) : ∀ (trits : Array Trit) (xorpad src : Nat → UInt8) (left i : Nat), left ≤ n →
    i < BLOCK → encryptLoop n trits xorpad src left i =
      if i < left then padByte trits (lastPlace left i) ^^^ src (lastPlace left i) else xorpad i := by
  induction n with
  | zero =>
    intro trits xorpad src left i hleft _
    rw [if_neg (by omega)]
    rfl
  | succ n ih =>
    intro trits xorpad src left i hleft hi
    rw [encryptLoop]
    split
    case isTrue hzero => rw [if_neg (by omega)]
    case isFalse hpos =>
      have hsizepos : 0 < min BLOCK left := Nat.lt_min.mpr ⟨by decide, Nat.pos_of_ne_zero hpos⟩
      dsimp only
      rw [ih _ _ _ _ i (by omega) hi]
      by_cases hmore : i < left - min BLOCK left
      · have hsize : min BLOCK left = BLOCK := Nat.min_eq_left (by omega)
        have hplace : lastPlace left i = BLOCK + lastPlace (left - BLOCK) i := by
          rw [hsize] at hmore
          simp only [lastPlace, BLOCK] at hmore hi ⊢
          omega
        rw [if_pos hmore, if_pos (by omega), hsize, hplace, padByte_add]
      · rw [if_neg hmore]
        by_cases hread : i < left
        · have hplace : lastPlace left i = i := by
            simp only [lastPlace, BLOCK] at hmore hi ⊢
            omega
          rw [if_pos (Nat.lt_min.mpr ⟨hi, hread⟩), if_pos hread, hplace, padByte_of_lt trits hi]
        · rw [if_neg fun h => hread (Nat.lt_min.mp h).2, if_neg hread]

private theorem lastPlace_range {n p : Nat} : (∃ i < BLOCK, i < n ∧ lastPlace n i = p) ↔ p < n ∧ n ≤ p + BLOCK := by
  constructor
  · rintro ⟨i, hi, hin, rfl⟩
    simp only [lastPlace, BLOCK] at hi ⊢
    omega
  · rintro ⟨hp, hn⟩
    refine ⟨p % BLOCK, Nat.mod_lt p (by decide), (Nat.mod_le p BLOCK).trans_lt hp, ?_⟩
    simp only [lastPlace, BLOCK] at hn ⊢
    omega

/-- Two sources have one value exactly when they agree on the last 48 of the bytes that are read, of
which the last stands behind the `len` bytes. -/
theorem saMEncrypt_eq_iff (stack src src' : Nat → UInt8) (len : Nat) (password : List UInt8) (timestamp : UInt32) :
    saMEncrypt stack src len password timestamp = saMEncrypt stack src' len password timestamp ↔
      ∀ p ≤ len, len < p + BLOCK → src p = src' p := by
  rw [saMEncrypt, saMEncrypt, List.map_inj_left]
  have hbyte (s : Nat → UInt8) (i : Nat) (hi : i < BLOCK) := encryptLoop_byte (len + 1)
    (encryptState password timestamp) stack s (len + 1) i le_rfl hi
  constructor
  · intro h p hp hlen
    obtain ⟨i, hi, hin, rfl⟩ := lastPlace_range.mpr ⟨Nat.lt_succ_of_le hp, hlen⟩
    have heq := h i (List.mem_range.mpr hi)
    rw [hbyte src i hi, hbyte src' i hi, if_pos hin, if_pos hin] at heq
    exact (UInt8.xor_right_inj _).mp heq
  · intro h i hi
    have hi : i < BLOCK := List.mem_range.mp hi
    rw [hbyte src i hi, hbyte src' i hi]
    split
    case isTrue hin =>
      obtain ⟨hp, hlen⟩ := lastPlace_range.mp ⟨i, hi, hin, rfl⟩
      rw [h _ (Nat.le_of_lt_succ hp) hlen]
    case isFalse => rfl

end SuperNet.Utils.SaM
