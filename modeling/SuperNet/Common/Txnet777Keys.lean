import SuperNet.Common.Txnet777

/-! The hash chain that the keys of txnet777 are taken from. The table of the public keys is left out. -/
namespace SuperNet.Common.Txnet777.Keys
open SuperNet.Lib.Words SuperNet.Lib.Runs SuperNet.Utils.SaM

def TXNET_PUBKEYBATCH : Nat := 777
def chainiters : Nat := TXNET_PUBKEYBATCH <<< 1

/-- `struct txnet777_hashchain`, as far as the keys go. -/
structure Hashchain where
  nextpubkey : Int
  firstid : Int
  privkey : Bits384
  revealkey : Bits384
  pubkey : Bits384

/-- The chain of a node and the keys it has stored. -/
structure Keystore where
  chain : Hashchain
  passwords : Nat → Option Bits384

/-- One round of `txnet777_chain` on a seed, with the name of the node. -/
def chainHash (name seed : List UInt8) : Bits384 := (saMEmit (saMAbsorb saMInitialize seed (name ++ [0]))).1

/-- The word of `_txnet777_rwkey` that tells the keys of one account apart. -/
def rwkey (chainind : Int) : Nat := ((u32 chainind / chainiters) <<< 32) ||| (u32 chainind % chainiters)

/-- `txnet777_privkey` with `rwflag` 0. -/
def readPrivkey (passwords : Nat → Option Bits384) (chainind : Int) : Bits384 :=
  (passwords (rwkey chainind)).getD (List.replicate BLOCK 0)

/-- The variables of the loop of `txnet777_chain`. -/
structure ChainLoop where
  seed : Bits384
  privkey : Bits384
  revealkey : Bits384
  passwords : Nat → Option Bits384

section
variable (hash : Bits384 → Bits384)

def chainRound (firstid : Int) (s : ChainLoop) (i : Nat) : ChainLoop where
  seed := hash s.seed
  privkey := if i = chainiters - 2 then s.seed else s.privkey
  revealkey := if i = chainiters - 1 then s.seed else s.revealkey
  passwords := Function.update s.passwords (rwkey (firstid + i)) (some s.seed)

/-- `txnet777_chain`, which fills a chain whose `firstid` has been set. -/
def chain (store : Keystore) (seed : Bits384) : Keystore :=
  let s := rounds (chainRound hash store.chain.firstid)
    ⟨seed, store.chain.privkey, store.chain.revealkey, store.passwords⟩ chainiters
  { chain := {
      nextpubkey := signed 32 (chainiters + store.chain.firstid)
      firstid := store.chain.firstid
      privkey := s.privkey
      revealkey := s.revealkey
      pubkey := s.seed }
    passwords := s.passwords }

/-- The chain that `txnet777_keypair` takes a key from: a new one if the old one is used up. -/
def refill (store : Keystore) (seed : Bits384) : Keystore :=
  if store.chain.nextpubkey < store.chain.firstid + 2 then
    chain hash { store with chain.firstid := signed 32 (store.chain.firstid + chainiters) } seed
  else store

/-- What a call returns, with the keys stored at its end. -/
structure Keypair where
  privkey : Bits384
  revealkey : Bits384
  pubkey : Bits384
  chainind : Int
  passwords : Nat → Option Bits384

/-- `txnet777_keypair`; `seed` is what `randombytes` gives if the chain is used up. -/
def keypair (store : Keystore) (seed : Bits384) : Keypair × Keystore :=
  let store := refill hash store seed
  let revealind := signed 32 (store.chain.nextpubkey - 1)
  let privind := signed 32 (revealind - 1)
  ({ privkey := store.chain.privkey
     revealkey := store.chain.revealkey
     pubkey := store.chain.pubkey
     chainind := privind
     passwords := store.passwords },
   { store with chain := {
      nextpubkey := privind
      firstid := store.chain.firstid
      privkey := readPrivkey store.passwords privind
      revealkey := readPrivkey store.passwords revealind
      pubkey := store.chain.privkey } })

/-- A run of calls, each with what `randombytes` would give it. -/
def keypairRun : Keystore → List Bits384 → List Keypair
  | _, [] => []
  | store, seed :: seeds => (keypair hash store seed).1 :: keypairRun (keypair hash store seed).2 seeds

/-- The state of a node that has not taken a key yet. -/
def fresh (passwords : Nat → Option Bits384) : Keystore := ⟨⟨0, 0, [], [], []⟩, passwords⟩

/-- The keys of a run can be used once each: no two calls return the same private key, each call
returns three links of the chain and the place of its private key. Since a transaction discloses the
private key of the one before it, the last part says that it is not signed with the key it discloses. -/
structure OneTimeKeys (run : List Keypair) : Prop where
  distinct : (run.map Keypair.privkey).Nodup
  aligned : ∀ pair ∈ run, hash pair.revealkey = pair.pubkey ∧ hash pair.privkey = pair.revealkey
  indexed : ∀ pair ∈ run, pair.passwords (rwkey pair.chainind) = some pair.privkey
  undisclosed : run.IsChain fun pair next => pair.privkey ≠ next.privkey

end

private theorem rwkey_inj {a b : Int} (ha0 : 0 ≤ a) (ha : a < 2^32) (hb0 : 0 ≤ b) (hb : b < 2^32)
    (h : rwkey a = rwkey b) : a = b := by
  have hmod (n : Nat) : n % chainiters < 2^32 := (Nat.mod_lt n (by decide)).trans (by decide)
  rw [rwkey, rwkey, ← Nat.shiftLeft_add_eq_or_of_lt (hmod _), ← Nat.shiftLeft_add_eq_or_of_lt (hmod _),
    Nat.shiftLeft_eq, Nat.shiftLeft_eq] at h
  have hword : u32 a = u32 b := by
    rw [← Nat.div_add_mod (u32 a) chainiters, ← Nat.div_add_mod (u32 b) chainiters]
    have := hmod (u32 a)
    have := hmod (u32 b)
    have hdiv : u32 a / chainiters = u32 b / chainiters := by omega
    have hrest : u32 a % chainiters = u32 b % chainiters := by omega
    rw [hdiv, hrest]
  rw [← unsigned_of_bounds ha0 ha, ← unsigned_of_bounds hb0 hb]
  exact congrArg Nat.cast hword

variable (hash : Bits384 → Bits384)

/-- What the rounds of the loop have done: the chain up to here is stored, and its last two links
before the end are kept. -/
private theorem chainLoop_spec (firstid : Int) (h0 : 0 ≤ firstid) (hlt : firstid + chainiters < 2^32) (s : ChainLoop) :
    let done := rounds (chainRound hash firstid) s chainiters
    done.seed = hash^[chainiters] s.seed ∧
      done.revealkey = hash^[chainiters - 1] s.seed ∧ done.privkey = hash^[chainiters - 2] s.seed ∧
      ∀ j < chainiters, done.passwords (rwkey (firstid + j)) = some (hash^[j] s.seed) := by
  have hinv := rounds_induct (f := chainRound hash firstid) (s := s)
    (motive := fun i (t : ChainLoop) => t.seed = hash^[i] s.seed ∧
      (chainiters - 1 < i → t.revealkey = hash^[chainiters - 1] s.seed) ∧
      (chainiters - 2 < i → t.privkey = hash^[chainiters - 2] s.seed) ∧
      ∀ j < i, t.passwords (rwkey (firstid + j)) = some (hash^[j] s.seed)) chainiters
    ⟨rfl, fun h => absurd h (Nat.not_lt_zero _), fun h => absurd h (Nat.not_lt_zero _),
      fun _ h => absurd h (Nat.not_lt_zero _)⟩ ?_
  · exact ⟨hinv.1, hinv.2.1 (by decide), hinv.2.2.1 (by decide), hinv.2.2.2⟩
  · rintro i hi ⟨hseed, hreveal, hpriv, hstored⟩
    rw [chainRound]
    refine ⟨?_, fun h => ?_, fun h => ?_, fun j hj => ?_⟩
    · rw [hseed, Function.iterate_succ_apply']
    · dsimp only
      split
      case isTrue heq => rw [hseed, heq]
      case isFalse hne => exact hreveal (by omega)
    · dsimp only
      split
      case isTrue heq => rw [hseed, heq]
      case isFalse hne => exact hpriv (by omega)
    · dsimp only
      rcases Nat.lt_succ_iff_lt_or_eq.mp hj with hj | rfl
      · rw [Function.update_of_ne, hstored j hj]
        intro heq
        have := rwkey_inj (by omega) (by omega) (by omega) (by omega) heq
        omega
      · rw [Function.update_self, hseed]

/-- A chain that has just been filled: its links are stored, and the cursors stand behind its last one. -/
structure Filled (store : Keystore) (seed : Bits384) : Prop where
  nextpubkey : store.chain.nextpubkey = store.chain.firstid + chainiters
  pubkey : store.chain.pubkey = hash^[chainiters] seed
  revealkey : store.chain.revealkey = hash^[chainiters - 1] seed
  privkey : store.chain.privkey = hash^[chainiters - 2] seed
  stored : ∀ j < chainiters, store.passwords (rwkey (store.chain.firstid + j)) = some (hash^[j] seed)

private theorem filled_refill {store : Keystore} (seed : Bits384) (h0 : 0 ≤ store.chain.firstid)
    (hlt : store.chain.firstid + 2 * chainiters < 2^31)
    (hempty : store.chain.nextpubkey < store.chain.firstid + 2) :
    Filled hash (refill hash store seed) seed ∧
      (refill hash store seed).chain.firstid = store.chain.firstid + chainiters := by
  have hpos : (0 : Int) < chainiters := by decide
  have hfirst : signed 32 (store.chain.firstid + chainiters) = store.chain.firstid + chainiters :=
    signed_of_bounds (by omega) (by omega)
  rw [refill, if_pos hempty, hfirst]
  obtain ⟨hseed, hreveal, hpriv, hstored⟩ := chainLoop_spec hash (store.chain.firstid + chainiters)
    (by omega) (by omega) ⟨seed, store.chain.privkey, store.chain.revealkey, store.passwords⟩
  dsimp only at hseed hreveal hpriv hstored
  rw [chain]
  generalize rounds _ _ _ = done at hseed hreveal hpriv hstored ⊢
  refine ⟨⟨?_, hseed, hreveal, hpriv, hstored⟩, rfl⟩
  dsimp only
  rw [signed_of_bounds (by omega) (by omega), add_comm]

private theorem readPrivkey_filled {store : Keystore} {seed : Bits384} (h : Filled hash store seed) {j : Nat}
    (hj : j < chainiters) {chainind : Int} (hind : chainind = store.chain.firstid + j) :
    readPrivkey store.passwords chainind = hash^[j] seed := by
  rw [readPrivkey, hind, h.stored j hj]
  rfl

section
variable {store : Keystore} (seed : Bits384) (h0 : 0 ≤ store.chain.firstid)
  (hlt : store.chain.firstid + 2 * chainiters < 2^31) (hempty : store.chain.nextpubkey < store.chain.firstid + 2)
include h0 hlt hempty

/-- The first call on a new chain returns its last three links and the place of the private key; the
chain keeps that private key for the next call. -/
theorem keypair_refilled :
    let pair := (keypair hash store seed).1
    (hash pair.revealkey = pair.pubkey ∧ hash pair.privkey = pair.revealkey) ∧
      pair.passwords (rwkey pair.chainind) = some pair.privkey ∧
      (keypair hash store seed).2.chain.privkey = pair.privkey ∧
      (keypair hash store seed).2.chain.firstid + 2 ≤ (keypair hash store seed).2.chain.nextpubkey := by
  obtain ⟨hfilled, hfirst⟩ := filled_refill hash seed h0 hlt hempty
  have hiters : (chainiters : Int) = 1554 := rfl
  have hreveal : signed 32 ((refill hash store seed).chain.nextpubkey - 1) =
      (refill hash store seed).chain.firstid + (chainiters - 1 : Nat) := by
    rw [hfilled.nextpubkey, hfirst, signed_of_bounds (by omega) (by omega), Nat.cast_sub (by decide)]
    ring
  have hpriv : signed 32 (signed 32 ((refill hash store seed).chain.nextpubkey - 1) - 1) =
      (refill hash store seed).chain.firstid + (chainiters - 2 : Nat) := by
    rw [hreveal, hfirst, signed_of_bounds (by omega) (by omega), Nat.cast_sub (by decide), Nat.cast_sub (by decide)]
    ring
  rw [keypair]
  dsimp only
  rw [hpriv, hfilled.pubkey, hfilled.revealkey, hfilled.privkey, hfilled.stored _ (by decide)]
  refine ⟨⟨?_, ?_⟩, rfl, readPrivkey_filled hash hfilled (by decide) rfl, ?_⟩
  · exact (Function.iterate_succ_apply' hash (chainiters - 1) seed).symm
  · exact (Function.iterate_succ_apply' hash (chainiters - 2) seed).symm
  · rw [Nat.cast_sub (by decide)]
    omega

/-- The second call on a chain returns the private key of the first one. -/
theorem keypair_repeats (seed' : Bits384) :
    (keypair hash (keypair hash store seed).2 seed').1.privkey = (keypair hash store seed).1.privkey := by
  obtain ⟨-, -, hpriv, hleft⟩ := keypair_refilled hash seed h0 hlt hempty
  have hkeep : refill hash (keypair hash store seed).2 seed' = (keypair hash store seed).2 := by
    rw [refill, if_neg (not_lt.mpr hleft)]
  rw [← hpriv]
  conv_lhs => rw [keypair]
  dsimp only
  rw [hkeep]

end

private theorem fresh_bounds (passwords : Nat → Option Bits384) :
    0 ≤ (fresh passwords).chain.firstid ∧ (fresh passwords).chain.firstid + 2 * chainiters < 2^31 ∧
      (fresh passwords).chain.nextpubkey < (fresh passwords).chain.firstid + 2 := by
  refine ⟨le_rfl, ?_, ?_⟩
  · change (0 : Int) + 2 * 1554 < 2^31
    decide
  · change (0 : Int) < 0 + 2
    decide

private theorem not_oneTimeKeys (passwords : Nat → Option Bits384) (seed seed' : Bits384) (seeds : List Bits384) :
    ¬ OneTimeKeys hash (keypairRun hash (fresh passwords) (seed :: seed' :: seeds)) := by
  obtain ⟨h0, hlt, hempty⟩ := fresh_bounds passwords
  intro h
  exact (List.isChain_cons_cons.mp h.undisclosed).1 (keypair_repeats hash seed h0 hlt hempty seed').symm

/-- Already the second call of a node returns the private key of the first one. -/
theorem oneTimeKeys_iff_single_call (passwords : Nat → Option Bits384) (seeds : List Bits384) :
    OneTimeKeys hash (keypairRun hash (fresh passwords) seeds) ↔ seeds.length ≤ 1 := by
  match seeds with
  | [] => exact ⟨fun _ => Nat.zero_le 1, fun _ => ⟨List.nodup_nil, nofun, nofun, .nil⟩⟩
  | [seed] =>
    obtain ⟨h0, hlt, hempty⟩ := fresh_bounds passwords
    obtain ⟨haligned, hindexed, -⟩ := keypair_refilled hash seed h0 hlt hempty
    refine ⟨fun _ => le_rfl, fun _ => ⟨List.nodup_singleton _, ?_, ?_, .singleton _⟩⟩
    · simpa only [keypairRun, List.mem_singleton, forall_eq] using haligned
    · simpa only [keypairRun, List.mem_singleton, forall_eq] using hindexed
  | seed :: seed' :: seeds =>
    refine ⟨fun h => absurd h (not_oneTimeKeys hash passwords seed seed' seeds), fun h => absurd h ?_⟩
    simp only [List.length_cons]
    omega

/-- Two calls of a node, with the hash of the source and with one that has no collisions. -/
theorem second_key_repeats :
    (¬ OneTimeKeys (chainHash [109, 103, 119]) (keypairRun (chainHash [109, 103, 119]) (fresh fun _ => none)
      [List.replicate 48 1, List.replicate 48 2])) ∧
    Function.Injective (List.cons (0 : UInt8)) ∧
    ¬ OneTimeKeys (List.cons 0) (keypairRun (List.cons 0) (fresh fun _ => none)
      [List.replicate 48 1, List.replicate 48 2]) :=
  ⟨not_oneTimeKeys _ _ _ _ _, List.cons_injective, not_oneTimeKeys _ _ _ _ _⟩

end SuperNet.Common.Txnet777.Keys
