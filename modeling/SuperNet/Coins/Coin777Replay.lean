import SuperNet.Coins.Coin777Scripts
import SuperNet.Utils.Vsha256

/-! The two passes over a chain: coin777_parse with coin777_addblock, and coin777_replayblock, which goes through the
stored tables again and feeds running hashes of its own. -/
namespace SuperNet.Coins.Coin777
open Lib.Words Lib.Bytes Utils.Hex Utils.Vsha256

def tables : List Table :=
  [.addrinfos, .blocks, .txoffsets, .txidbits, .unspents, .spends, .ledger, .addrtx, .txids, .addrs, .scripts]

def decodeBits256 (str : List Char) : List UInt8 := (decodeHex 32 str).take 32

/-- What `update_blocksha256` feeds: `totaladdrtx` and `check` are cleared, and four bytes are padding. -/
def CoinOffsets.bytes (B : CoinOffsets) : List UInt8 :=
  B.blockhash ++ B.merkleroot ++ leBytes 8 B.credits.toNat ++ leBytes 8 B.debits.toNat ++ leBytes 4 B.timestamp ++
    leBytes 4 B.txidind ++ leBytes 4 B.unspentind ++ leBytes 4 B.numspends ++ leBytes 4 B.addrind ++
    leBytes 4 B.scriptind ++ leBytes 4 0 ++ List.replicate 20 0

/-- A block with its transactions, and whether the parser stores its hashes before it. -/
structure Block where
  blockhash : List Char
  merkleroot : List Char
  timestamp : Nat
  txs : List (List Output × List (List Char × Nat) × List Char)
  syncflag : Bool

/-- The calls of `parse_block` for a transaction: its outputs, its inputs and the transaction itself. -/
def txCalls (tx : List Output × List (List Char × Nat) × List Char) : List Call :=
  (tx.1.map fun o => .vout o.coinaddr o.scriptstr o.value) ++ (tx.2.1.map fun vin => .vin vin.1 vin.2) ++ [.tx tx.2.2]

section Parse

/-! `digest` gives the first byte of the hash of the bytes that a table was fed. -/

variable (digest : List UInt8 → UInt8)

def Coin.offsets (coin : Coin) (blockhash merkleroot : List UInt8) (timestamp : Nat) : CoinOffsets where
  blockhash := blockhash
  merkleroot := merkleroot
  credits := coin.credits
  debits := coin.debits
  timestamp := timestamp
  txidind := coin.txidind
  unspentind := coin.unspentind
  numspends := coin.numspends
  addrind := coin.addrind
  scriptind := coin.scriptind
  totaladdrtx := coin.totaladdrtx
  check := (tables.map fun t => digest (coin.fed t)) ++ List.replicate 5 0

/-- The error that `coin777_addblock` returns for a record `B` over the one that is there. -/
def overwriteErr (B block : CoinOffsets) : Int :=
  if B = block ∨ B = CoinOffsets.zero then 0
  else if block.debits ≠ 0 ∧ B.debits ≠ 0 ∧ B.debits ≠ block.debits then -9
  else if block.credits ≠ 0 ∧ B.credits ≠ 0 ∧ B.credits ≠ block.credits then -8
  else if block.scriptind ≠ 0 ∧ B.scriptind ≠ block.scriptind then -7
  else if block.addrind ≠ 0 ∧ B.addrind ≠ block.addrind then -6
  else if block.numspends ≠ 0 ∧ B.numspends ≠ block.numspends then -5
  else if block.unspentind ≠ 0 ∧ B.unspentind ≠ block.unspentind then -4
  else if block.txidind ≠ 0 ∧ B.txidind ≠ block.txidind then -3
  else if block.timestamp ≠ 0 ∧ B.timestamp ≠ block.timestamp then -2
  else 0

def Coin.setBlock (coin : Coin) (blocknum : Nat) (B : CoinOffsets) : Coin :=
  { coin with blocks := Function.update coin.blocks blocknum B }

def Coin.addblock (coin : Coin) (blocknum : Nat) (blockhashstr merklerootstr : List Char) (timestamp : Nat) :
    Coin × Int :=
  let B := coin.offsets digest (decodeBits256 blockhashstr) (decodeBits256 merklerootstr) timestamp
  ({ (coin.vupdate .blocks B.bytes).setBlock blocknum B with latest := B }, overwriteErr B (coin.blocks blocknum))

/-- `coin777_addblock` with `blockhashstr` 0, for the end of a block. -/
def Coin.endblock (coin : Coin) (blocknum : Nat) : Coin × Int :=
  let B := coin.offsets digest (List.replicate 32 0) (List.replicate 32 0) 0
  let tmpB := coin.blocks blocknum
  ({ coin.setBlock blocknum { B with blockhash := tmpB.blockhash, merkleroot := tmpB.merkleroot } with latest := B },
    overwriteErr B tmpB)

/-- `parse_block`; `none` is `debugstop`. An error of `coin777_addblock` is printed only. -/
def Coin.parseBlock (coin : Coin) (blocknum : Nat) (block : Block) : Option Coin := do
  let coin := (coin.addblock digest blocknum block.blockhash block.merkleroot block.timestamp).1
  let coin ← coin.calls (((block.txs.map txCalls).flatten).map fun c => (blocknum, c))
  some (coin.endblock digest (blocknum + 1)).1

/-- The counters and running hashes of a `struct coin777_hashes`. -/
structure Hashes where
  fed : Table → List UInt8
  credits : UInt64
  debits : UInt64
  blocknum : Nat
  numsyncs : Nat
  timestamp : Nat
  txidind : Nat
  unspentind : Nat
  numspends : Nat
  addrind : Nat
  scriptind : Nat
  totaladdrtx : Nat

def Hashes.genesis : Hashes := ⟨fun _ => [], 0, 0, 0, 1, 0, 1, 1, 1, 1, 1, 1⟩

def Coin.hashes (coin : Coin) (blocknum numsyncs : Nat) : Hashes where
  fed := coin.fed
  credits := coin.credits
  debits := coin.debits
  blocknum := blocknum
  numsyncs := numsyncs
  timestamp := (coin.blocks blocknum).timestamp
  txidind := coin.txidind
  unspentind := coin.unspentind
  numspends := coin.numspends
  addrind := coin.addrind
  scriptind := coin.scriptind
  totaladdrtx := coin.totaladdrtx

/-- A round of `coin777_parse` from the first block on: the hashes are stored before a block, but not before the
first, and in the order of their numbers. -/
def parseRound (st : Coin × List Hashes) (blocknum : Nat) (block : Block) : Option (Coin × List Hashes) := do
  let syncs := if block.syncflag ∧ blocknum ≠ 0 then st.2 ++ [st.1.hashes blocknum (st.2.length + 1)] else st.2
  let coin ← st.1.parseBlock digest blocknum block
  some (coin, syncs)

def parseFrom (st : Coin × List Hashes) (blocknum : Nat) : List Block → Option (Coin × List Hashes)
  | [] => some st
  | block :: blocks => do
    let st ← parseRound digest st blocknum block
    parseFrom st (blocknum + 1) blocks

/-- The state and the stored hashes after the blocks of a chain. -/
def parse (blocks : List Block) : Option (Coin × List Hashes) := parseFrom digest (Coin.genesis, []) 0 blocks

end Parse

/-! ### The replay -/

def Hashes.vupdate (H : Hashes) (t : Table) (bytes : List UInt8) : Hashes :=
  { H with fed := Function.update H.fed t (H.fed t ++ bytes) }

/-- The variables of `coin777_replayblock`: the hashes, the buffer for a script string and the errors. -/
structure Replay where
  hp : Hashes
  scriptstr : List Char
  errs : Nat

/-- The script string of an output: from the record of its address or from the scripts. A buffer that is not
written keeps what is in it. -/
def Coin.replayScript (coin : Coin) (r : Replay) (U : UnspentInfo) : Replay :=
  let A := coin.addrinfos U.addrind
  if A.script ≠ [] then { r with scriptstr := initHexbytesNoT A.script }
  else if U.isblocknum = false then
    { r with
      scriptstr := coin.scriptstr 8192 U.rawindOrBlocknum U.addrind
      hp := { r.hp with
        scriptind := if U.rawindOrBlocknum = r.hp.scriptind then r.hp.scriptind + 1 else r.hp.scriptind } }
  else { r with errs := r.errs + 1 }

def Coin.replayVout (coin : Coin) (blocknum : Nat) (r : Replay) (unspentind : Nat) : Replay :=
  let U := coin.unspents unspentind
  let A := coin.addrinfos U.addrind
  let r := coin.replayScript { r with hp := { r.hp with credits := r.hp.credits + U.value } } U
  let script := decodeScript r.scriptstr
  let hp := r.hp.vupdate .scripts (charBytes (r.scriptstr.take (2 * (r.scriptstr.length / 2))))
  let hp := if U.addrind = hp.addrind ∧ A.firstblocknum = blocknum then
      ({ hp with addrind := hp.addrind + 1 }.vupdate .addrs (stringBytes A.coinaddr)).vupdate .addrinfos
        (leBytes 4 blocknum ++ stringBytes A.coinaddr ++ script)
    else hp
  let hp := ((hp.vupdate .unspents U.bytes).vupdate .ledger (ledgerBytes U.value U.addrind blocknum)).vupdate .addrtx
    (ledgerBytes U.value unspentind blocknum)
  { r with hp := { hp with unspentind := hp.unspentind + 1 } }

def Coin.replayVin (coin : Coin) (blocknum : Nat) (r : Replay) (spendind : Nat) : Replay :=
  let S := coin.spends spendind
  let U := coin.unspents S.unspentind
  let hp := { r.hp.vupdate .spends S.bytes with debits := r.hp.debits + U.value }
  let hp := (hp.vupdate .ledger (ledgerBytes (-U.value) U.addrind blocknum)).vupdate .addrtx
    (ledgerBytes (-U.value) spendind blocknum)
  { r with hp := { hp with numspends := hp.numspends + 1 } }

def Coin.replayTx (coin : Coin) (blocknum : Nat) (r : Replay) (txidind : Nat) : Replay :=
  let txid := coin.txidbits txidind
  let (firstvout, firstvin) := coin.txoffsets txidind
  let (nextvout, nextvin) := coin.txoffsets (txidind + 1)
  let hp := ((r.hp.vupdate .txids (charBytes (initHexbytesNoT txid))).vupdate .txidbits txid).vupdate .txoffsets
    (leBytes 4 firstvout ++ leBytes 4 firstvin)
  let r := (List.range' firstvout (nextvout - firstvout)).foldl (coin.replayVout blocknum) { r with hp := hp }
  let r := (List.range' firstvin (nextvin - firstvin)).foldl (coin.replayVin blocknum) r
  { r with hp := { r.hp with txidind := r.hp.txidind + 1 } }

/-- `coin777_replayblock`: the hashes and the number of errors. The buffer starts with what is on the stack. -/
def Coin.replayblock (coin : Coin) (stack : List Char) (hp : Hashes) (blocknum synci : Nat) : Hashes × Nat :=
  let B := coin.blocks blocknum
  let nextB := coin.blocks (blocknum + 1)
  let hp := if blocknum ≠ 0 then hp.vupdate .blocks B.bytes else hp
  let r := (List.range' B.txidind (nextB.txidind - B.txidind)).foldl (coin.replayTx blocknum) ⟨hp, stack, 0⟩
  ({ r.hp with timestamp := B.timestamp, numsyncs := synci }, r.errs)

/-- The blocks from `blocknum` on, `n` of them, up to the first that has errors: the blocks that are replayed, the
hashes and the errors. -/
def Coin.replayFrom (coin : Coin) (stack : List Char) (synci : Nat) : Nat → Nat → Hashes → List Nat × Hashes × Nat
  | _, 0, hp => ([], hp, 0)
  | blocknum, n + 1, hp =>
    let (hp, errs) := coin.replayblock stack hp blocknum synci
    if errs ≠ 0 then ([blocknum], hp, errs)
    else
      let (blocks, hp, errs) := coin.replayFrom stack synci (blocknum + 1) n hp
      (blocknum :: blocks, hp, errs)

/-- `coin777_hashes`: the number and the hashes of the last stored ones up to a block. -/
def syncHashes (syncs : List Hashes) (refblocknum lastsynci : Nat) : Int × Hashes :=
  let found := (syncs.take lastsynci).takeWhile fun H => H.blocknum ≤ refblocknum
  match found.getLast? with
  | some H => (found.length, H)
  | none => (-1, Hashes.genesis)

/-- `coin777_replayblocks`: what it returns and the blocks that it replays. -/
def Coin.replayblocks (coin : Coin) (stack : List Char) (syncs : List Hashes) (startblocknum endblocknum : Nat) :
    Int × List Nat :=
  let (_, H) := syncHashes syncs startblocknum 100000
  if H.blocknum ≠ startblocknum then (0, [])
  else
    let (endsynci, endH) := syncHashes syncs endblocknum 100000
    if endH.blocknum ≠ startblocknum then (0, [])
    else
      let (blocks, _, errs) := coin.replayFrom stack (unsigned 32 endsynci) startblocknum (endblocknum - startblocknum) H
      (if errs ≠ 0 then -3 else 0, blocks)

/-! ### What is fed to the running hash of the blocks -/

variable {coin coin' : Coin} {a m n : Nat}

theorem decodeBits256_length (str : List Char) : (decodeBits256 str).length = 32 := by
  have hlen : 32 ≤ (decodeHex 32 str).length := by
    rw [decodeHex]
    split
    · exact Nat.le_of_eq List.length_replicate.symm
    · split
      · rw [List.length_cons, hexLoop_length]
        exact Nat.le_succ 32
      · exact Nat.le_of_eq (hexLoop_length 32 str).symm
  rw [decodeBits256, List.length_take, Nat.min_eq_left hlen]

/-- The hashes of a record are 32 bytes each. -/
def CoinOffsets.Sized (B : CoinOffsets) : Prop := B.blockhash.length = 32 ∧ B.merkleroot.length = 32

theorem CoinOffsets.bytes_length {B : CoinOffsets} (h : B.Sized) : B.bytes.length = 128 := by
  rw [CoinOffsets.bytes]
  simp only [List.length_append, leBytes_length, List.length_replicate, h.1, h.2]

def SameBlocks (coin coin' : Coin) : Prop := coin'.fed .blocks = coin.fed .blocks ∧ coin'.blocks = coin.blocks

theorem SameBlocks.refl (coin : Coin) : SameBlocks coin coin := ⟨rfl, rfl⟩

theorem SameBlocks.trans {coin'' : Coin} (h : SameBlocks coin coin') (h' : SameBlocks coin' coin'') :
    SameBlocks coin coin'' := ⟨h'.1.trans h.1, h'.2.trans h.2⟩

private theorem SameTables.sameBlocks (h : SameTables coin coin') : SameBlocks coin coin' := ⟨h.fedBlocks, h.blocks⟩

private theorem addAddr_sameBlocks {coinaddr : List Char} {newflag : Bool}
    (h : coin.addAddr coinaddr = some (coin', a, newflag)) : SameBlocks coin coin' := by
  rw [Coin.addAddr] at h
  dsimp only at h
  split at h
  case isTrue =>
    cases h
    exact ⟨rfl, rfl⟩
  case isFalse =>
    split at h
    case isTrue =>
      cases h
      exact ⟨rfl, rfl⟩
    case isFalse =>
      split at h
      case isTrue => cases h
      case isFalse =>
        cases h
        exact SameBlocks.refl coin

private theorem addRecord_sameBlocks (coin : Coin) (a : Nat) (newflag : Bool) (coinaddr : List Char)
    (script : List UInt8) (m : Nat) : SameBlocks coin (coin.addRecord a newflag coinaddr script m).1 := by
  rw [Coin.addRecord]
  split
  case isTrue =>
    obtain ⟨hsame, -⟩ := addAddrinfo_record coin a coinaddr script m
    generalize coin.addAddrinfo a coinaddr script m = opened at hsame ⊢
    obtain ⟨opened, flag⟩ := opened
    cases flag with
    | true => exact SameTables.sameBlocks hsame
    | false => exact (SameTables.sameBlocks hsame).trans ⟨rfl, rfl⟩
  case isFalse => exact SameBlocks.refl coin

private theorem indexScript_sameBlocks {script : List UInt8} {i : Nat} (h : coin.indexScript script = some (coin', i)) :
    SameBlocks coin coin' := by
  rw [Coin.indexScript] at h
  split at h
  case isTrue => cases h
  case isFalse =>
    split at h
    case isTrue =>
      cases h
      exact ⟨rfl, rfl⟩
    case isFalse =>
      split at h
      case isTrue =>
        cases h
        exact ⟨rfl, rfl⟩
      case isFalse =>
        split at h
        case isTrue => cases h
        case isFalse =>
          cases h
          exact SameBlocks.refl coin

private theorem voutScript_sameBlocks {flag : Bool} {script : List UInt8} {value : UInt64}
    (h : coin.voutScript m a flag script value = some coin') : SameBlocks coin coin' := by
  rw [Coin.voutScript] at h
  dsimp only at h
  split at h
  case isTrue =>
    cases h
    exact ⟨rfl, rfl⟩
  case isFalse =>
    obtain ⟨⟨coin₁, i⟩, hindex, h⟩ := Option.bind_eq_some_iff.mp h
    cases h
    exact (indexScript_sameBlocks hindex).trans ⟨rfl, rfl⟩

private theorem addvout_sameBlocks {coinaddr scriptstr : List Char} {value : UInt64}
    (h : coin.addvout m coinaddr scriptstr value = some coin') : SameBlocks coin coin' := by
  rw [Coin.addvout] at h
  obtain ⟨⟨coin₁, a, flag⟩, haddr, h⟩ := Option.bind_eq_some_iff.mp h
  obtain ⟨coin₂, hscript, hup⟩ := Option.bind_eq_some_iff.mp h
  have hfirst : SameBlocks coin coin₁ := by
    rw [Coin.voutAddr] at haddr
    obtain ⟨⟨coin₀, b, newflag⟩, hadd, haddr⟩ := Option.bind_eq_some_iff.mp haddr
    cases haddr
    have hcredit : SameBlocks coin (coin.credit scriptstr value) := ⟨rfl, rfl⟩
    exact (hcredit.trans (addAddr_sameBlocks hadd)).trans (addRecord_sameBlocks ..)
  exact (hfirst.trans (voutScript_sameBlocks hscript)).trans (SameTables.sameBlocks (listsOnly_updateAddrinfo hup).same)

private theorem addvin_sameBlocks {txidstr : List Char} {vout : Nat} (h : coin.addvin m txidstr vout = some coin') :
    SameBlocks coin coin' := by
  rw [Coin.addvin] at h
  dsimp only at h
  split at h
  case isTrue => cases h
  case isFalse =>
    split at h
    case isTrue => cases h
    case isFalse =>
      split at h
      case isTrue =>
        cases h
        exact SameBlocks.refl coin
      case isFalse =>
        have hup := SameTables.sameBlocks (listsOnly_updateAddrinfo h).same
        exact SameBlocks.trans ⟨rfl, rfl⟩ hup

/-- No call of a transaction changes the blocks or their running hash. -/
theorem call_sameBlocks {c : Call} (h : coin.call m c = some coin') : SameBlocks coin coin' := by
  cases c with
  | vout coinaddr scriptstr value =>
    rw [Coin.call] at h
    obtain ⟨coin₁, hvout, h⟩ := Option.bind_eq_some_iff.mp h
    cases h
    exact (addvout_sameBlocks hvout).trans ⟨rfl, rfl⟩
  | vin txidstr vout =>
    rw [Coin.call] at h
    obtain ⟨coin₁, hvin, h⟩ := Option.bind_eq_some_iff.mp h
    cases h
    exact (addvin_sameBlocks hvin).trans ⟨rfl, rfl⟩
  | tx txidstr =>
    cases h
    exact ⟨rfl, rfl⟩

theorem calls_sameBlocks {calls : List (Nat × Call)} (h : coin.calls calls = some coin') : SameBlocks coin coin' := by
  induction calls generalizing coin with
  | nil =>
    cases h
    exact SameBlocks.refl _
  | cons c calls ih =>
    rw [Coin.calls, List.foldlM_cons] at h
    obtain ⟨coin₁, hcall, hrun⟩ := Option.bind_eq_some_iff.mp h
    exact (call_sameBlocks hcall).trans (ih hrun)

def Coin.SizedBlocks (coin : Coin) : Prop := ∀ blocknum, (coin.blocks blocknum).Sized

theorem sizedBlocks_genesis : Coin.genesis.SizedBlocks := fun _ => ⟨List.length_replicate, List.length_replicate⟩

private theorem sizedBlocks_update {blocks : Nat → CoinOffsets} {B : CoinOffsets} {k : Nat}
    (h : ∀ blocknum, (blocks blocknum).Sized) (hB : B.Sized) (blocknum : Nat) :
    (Function.update blocks k B blocknum).Sized := by
  by_cases heq : blocknum = k
  · rw [heq, Function.update_self]
    exact hB
  · rw [Function.update_of_ne heq]
    exact h blocknum

/-- A block of the first pass feeds one record to the running hash of the blocks. -/
theorem parseBlock_blocks {digest : List UInt8 → UInt8} {block : Block} (hsized : coin.SizedBlocks)
    (h : coin.parseBlock digest m block = some coin') :
    coin'.SizedBlocks ∧ (coin'.fed .blocks).length = (coin.fed .blocks).length + 128 := by
  rw [Coin.parseBlock] at h
  generalize hadd : (coin.addblock digest m block.blockhash block.merkleroot block.timestamp).1 = coin₁ at h
  obtain ⟨coin₂, hcalls, h⟩ := Option.bind_eq_some_iff.mp h
  cases h
  obtain ⟨hfed, hblocks⟩ := calls_sameBlocks hcalls
  have hB : (coin.offsets digest (decodeBits256 block.blockhash) (decodeBits256 block.merkleroot)
      block.timestamp).Sized := ⟨decodeBits256_length _, decodeBits256_length _⟩
  have hsized₁ : ∀ blocknum, (coin₁.blocks blocknum).Sized := by
    rw [← hadd]
    exact sizedBlocks_update hsized hB
  have hfed₁ : coin₁.fed .blocks = coin.fed .blocks ++ (coin.offsets digest (decodeBits256 block.blockhash)
      (decodeBits256 block.merkleroot) block.timestamp).bytes := by
    rw [← hadd]
    rfl
  rw [← hblocks] at hsized₁
  refine ⟨sizedBlocks_update hsized₁ ⟨(hsized₁ _).1, (hsized₁ _).2⟩, ?_⟩
  have hend : (coin₂.endblock digest (m + 1)).1.fed .blocks = coin₂.fed .blocks := rfl
  rw [hend, hfed, hfed₁, List.length_append, CoinOffsets.bytes_length hB]

private theorem parseFrom_blocks {digest : List UInt8 → UInt8} {blocks : List Block} {st st' : Coin × List Hashes}
    (hsized : st.1.SizedBlocks) (h : parseFrom digest st m blocks = some st') :
    st'.1.SizedBlocks ∧ (st'.1.fed .blocks).length = (st.1.fed .blocks).length + 128 * blocks.length := by
  induction blocks generalizing st m with
  | nil =>
    cases h
    exact ⟨hsized, rfl⟩
  | cons block blocks ih =>
    rw [parseFrom] at h
    obtain ⟨st₁, hround, hrun⟩ := Option.bind_eq_some_iff.mp h
    rw [parseRound] at hround
    obtain ⟨coin₁, hblock, hround⟩ := Option.bind_eq_some_iff.mp hround
    cases hround
    obtain ⟨hsized₁, hfed₁⟩ := parseBlock_blocks hsized hblock
    obtain ⟨hsized', hfed'⟩ := ih hsized₁ hrun
    refine ⟨hsized', ?_⟩
    rw [hfed', hfed₁, List.length_cons]
    omega

theorem parse_blocks {digest : List UInt8 → UInt8} {blocks : List Block} {st : Coin × List Hashes}
    (h : parse digest blocks = some st) :
    st.1.SizedBlocks ∧ (st.1.fed .blocks).length = 128 * blocks.length := by
  obtain ⟨hsized, hfed⟩ := parseFrom_blocks sizedBlocks_genesis h
  exact ⟨hsized, hfed.trans (Nat.zero_add _)⟩

/-! ### What replaying feeds to it -/

private theorem replayScript_blocks (coin : Coin) (r : Replay) (U : UnspentInfo) :
    (coin.replayScript r U).hp.fed .blocks = r.hp.fed .blocks := by
  rw [Coin.replayScript]
  dsimp only
  split
  · rfl
  · split
    · rfl
    · rfl

private theorem replayVout_blocks (coin : Coin) (m : Nat) (r : Replay) (u : Nat) :
    (coin.replayVout m r u).hp.fed .blocks = r.hp.fed .blocks := by
  have hscript := replayScript_blocks coin { r with hp := { r.hp with credits := r.hp.credits + (coin.unspents u).value } }
    (coin.unspents u)
  rw [Coin.replayVout]
  dsimp only
  generalize coin.replayScript { r with hp := { r.hp with credits := r.hp.credits + (coin.unspents u).value } }
    (coin.unspents u) = r' at hscript ⊢
  split
  · exact hscript
  · exact hscript

private theorem foldl_blocks {f : Replay → Nat → Replay} (hf : ∀ r k, (f r k).hp.fed .blocks = r.hp.fed .blocks)
    (r : Replay) (ks : List Nat) : (ks.foldl f r).hp.fed .blocks = r.hp.fed .blocks := by
  induction ks generalizing r with
  | nil => rfl
  | cons k ks ih => exact (ih (f r k)).trans (hf r k)

private theorem replayTx_blocks (coin : Coin) (m : Nat) (r : Replay) (t : Nat) :
    (coin.replayTx m r t).hp.fed .blocks = r.hp.fed .blocks := by
  rw [Coin.replayTx]
  generalize coin.txoffsets t = offsets
  generalize coin.txoffsets (t + 1) = next
  obtain ⟨firstvout, firstvin⟩ := offsets
  obtain ⟨nextvout, nextvin⟩ := next
  dsimp only
  rw [foldl_blocks (f := coin.replayVin m) (fun _ _ => rfl), foldl_blocks (replayVout_blocks coin m)]
  rfl

theorem replayblock_blocks (hsized : coin.SizedBlocks) (stack : List Char) (hp : Hashes) (m synci : Nat) :
    ((coin.replayblock stack hp m synci).1.fed .blocks).length =
      (hp.fed .blocks).length + if m = 0 then 0 else 128 := by
  have hfold := fun r => foldl_blocks (replayTx_blocks coin m) r
    (List.range' (coin.blocks m).txidind ((coin.blocks (m + 1)).txidind - (coin.blocks m).txidind))
  rw [Coin.replayblock]
  dsimp only
  rw [hfold]
  dsimp only
  by_cases hm : m = 0
  · rw [if_neg (not_not.mpr hm), if_pos hm]
    rfl
  · rw [if_pos hm, if_neg hm]
    have hself : (hp.vupdate .blocks (coin.blocks m).bytes).fed .blocks = hp.fed .blocks ++ (coin.blocks m).bytes := rfl
    rw [hself, List.length_append, CoinOffsets.bytes_length (hsized m)]

private theorem replayFrom_blocks (hsized : coin.SizedBlocks) (stack : List Char) (synci : Nat) (hp : Hashes)
    (herrs : (coin.replayFrom stack synci m n hp).2.2 = 0) :
    ((coin.replayFrom stack synci m n hp).2.1.fed .blocks).length =
      (hp.fed .blocks).length + 128 * (n - if m = 0 then 1 else 0) := by
  induction n generalizing m hp with
  | zero =>
    rw [Coin.replayFrom, Nat.zero_sub]
    rfl
  | succ n ih =>
    have hblock := replayblock_blocks hsized stack hp m synci
    rw [Coin.replayFrom] at herrs ⊢
    generalize coin.replayblock stack hp m synci = played at hblock herrs ⊢
    obtain ⟨hp₁, errs⟩ := played
    dsimp only at hblock herrs ⊢
    by_cases hzero : errs = 0
    · rw [if_neg (not_not.mpr hzero)] at herrs ⊢
      have hrest := ih hp₁ herrs
      refine hrest.trans ?_
      rw [hblock, if_neg (Nat.succ_ne_zero m)]
      by_cases hm : m = 0
      · rw [if_pos hm, if_pos hm]
        omega
      · rw [if_neg hm, if_neg hm]
        omega
    · rw [if_pos hzero] at herrs
      exact absurd herrs hzero

/-! ### The stored hashes -/

/-- The stored hashes are in the order of their blocks, which lie below `m`. -/
structure Stored (syncs : List Hashes) (m : Nat) : Prop where
  increasing : syncs.Pairwise fun H H' => H.blocknum < H'.blocknum
  below : ∀ H ∈ syncs, H.blocknum < m

private theorem parseFrom_stored {digest : List UInt8 → UInt8} {blocks : List Block} {st st' : Coin × List Hashes}
    (hstored : Stored st.2 m) (h : parseFrom digest st m blocks = some st') : Stored st'.2 (m + blocks.length) := by
  induction blocks generalizing st m with
  | nil =>
    cases h
    exact hstored
  | cons block blocks ih =>
    rw [parseFrom] at h
    obtain ⟨st₁, hround, hrun⟩ := Option.bind_eq_some_iff.mp h
    rw [parseRound] at hround
    obtain ⟨coin₁, -, hround⟩ := Option.bind_eq_some_iff.mp hround
    cases hround
    have hlater : ∀ H ∈ st.2, H.blocknum < m + 1 := fun H hH => Nat.lt_succ_of_lt (hstored.below H hH)
    have hround : Stored (if block.syncflag ∧ m ≠ 0 then st.2 ++ [st.1.hashes m (st.2.length + 1)] else st.2) (m + 1) := by
      split
      case isTrue =>
        refine ⟨List.pairwise_append.mpr ⟨hstored.increasing, List.pairwise_singleton _ _, ?_⟩, ?_⟩
        · intro H hH H' hH'
          rw [List.mem_singleton.mp hH']
          exact hstored.below H hH
        · intro H hH
          rcases List.mem_append.mp hH with hH | hH
          · exact hlater H hH
          · rw [List.mem_singleton.mp hH]
            exact Nat.lt_succ_self m
      case isFalse => exact ⟨hstored.increasing, hlater⟩
    have hrest := ih hround hrun
    rw [List.length_cons, ← Nat.add_assoc, Nat.add_right_comm]
    exact hrest

private theorem takeWhile_increasing {syncs : List Hashes} {H : Hashes}
    (hinc : syncs.Pairwise fun H H' => H.blocknum < H'.blocknum) (hH : H ∈ syncs) :
    (syncs.takeWhile fun H' => H'.blocknum ≤ H.blocknum).getLast? = some H := by
  induction syncs with
  | nil => cases hH
  | cons G syncs ih =>
    obtain ⟨hhead, htail⟩ := List.pairwise_cons.mp hinc
    rcases List.mem_cons.mp hH with rfl | hmem
    · have hnone : syncs.takeWhile (fun H' => H'.blocknum ≤ H.blocknum) = [] := by
        cases syncs with
        | nil => rfl
        | cons G' syncs =>
          exact List.takeWhile_cons_of_neg fun h => Nat.not_lt_of_le (of_decide_eq_true h) (hhead G' List.mem_cons_self)
      have hfirst : (H :: syncs).takeWhile (fun H' => H'.blocknum ≤ H.blocknum) = H :: syncs.takeWhile _ :=
        List.takeWhile_cons_of_pos (decide_eq_true (Nat.le_refl _))
      rw [hfirst, hnone]
      rfl
    · have hfirst : (G :: syncs).takeWhile (fun H' => H'.blocknum ≤ H.blocknum) = G :: syncs.takeWhile _ :=
        List.takeWhile_cons_of_pos (decide_eq_true (Nat.le_of_lt (hhead H hmem)))
      rw [hfirst, List.getLast?_cons, ih htail hmem]
      rfl

theorem syncHashes_stored {syncs : List Hashes} {H : Hashes} {lastsynci : Nat} (hstored : Stored syncs m)
    (hH : H ∈ syncs.take lastsynci) : (syncHashes syncs H.blocknum lastsynci).2 = H := by
  have hlast := takeWhile_increasing (hstored.increasing.sublist (List.take_sublist lastsynci syncs)) hH
  rw [syncHashes, hlast]

/-- Between two blocks with stored hashes nothing is replayed. -/
theorem replayblocks_stored {syncs : List Hashes} {H H' : Hashes} (coin : Coin) (stack : List Char)
    (hstored : Stored syncs m) (hH : H ∈ syncs.take 100000) (hH' : H' ∈ syncs.take 100000)
    (hlt : H.blocknum < H'.blocknum) : coin.replayblocks stack syncs H.blocknum H'.blocknum = (0, []) := by
  have hstart := syncHashes_stored hstored hH
  have hend := syncHashes_stored hstored hH'
  rw [Coin.replayblocks]
  generalize syncHashes syncs H.blocknum 100000 = start at hstart ⊢
  generalize syncHashes syncs H'.blocknum 100000 = last at hend ⊢
  obtain ⟨startsynci, startH⟩ := start
  obtain ⟨endsynci, endH⟩ := last
  dsimp only at hstart hend ⊢
  rw [hstart, if_neg (not_not.mpr rfl), hend, if_pos (Nat.ne_of_gt hlt)]

/-! ### The two passes -/

/-- The replay of the first `n` blocks reaches what the first pass had there, and reports no error. -/
structure ReachesBoundary (vcompress : List UInt32 → List UInt8 → List UInt32) (coin coinₙ : Coin) (stack : List Char)
    (synci n : Nat) : Prop where
  errs : (coin.replayFrom stack synci 0 n Hashes.genesis).2.2 = 0
  txidind : (coin.replayFrom stack synci 0 n Hashes.genesis).2.1.txidind = coinₙ.txidind
  unspentind : (coin.replayFrom stack synci 0 n Hashes.genesis).2.1.unspentind = coinₙ.unspentind
  numspends : (coin.replayFrom stack synci 0 n Hashes.genesis).2.1.numspends = coinₙ.numspends
  addrind : (coin.replayFrom stack synci 0 n Hashes.genesis).2.1.addrind = coinₙ.addrind
  scriptind : (coin.replayFrom stack synci 0 n Hashes.genesis).2.1.scriptind = coinₙ.scriptind
  credits : (coin.replayFrom stack synci 0 n Hashes.genesis).2.1.credits = coinₙ.credits
  debits : (coin.replayFrom stack synci 0 n Hashes.genesis).2.1.debits = coinₙ.debits
  hashes : ∀ t, vhash vcompress ((coin.replayFrom stack synci 0 n Hashes.genesis).2.1.fed t) =
    vhash vcompress (coinₙ.fed t)

/-- What replaying is for: every boundary is reached again, and two stored points replay the blocks between them. -/
structure Replays (vcompress : List UInt32 → List UInt8 → List UInt32) (digest : List UInt8 → UInt8)
    (blocks : List Block) : Prop where
  boundary : ∀ st stₙ n, n ≤ blocks.length → parse digest blocks = some st → parse digest (blocks.take n) = some stₙ →
    ∀ stack synci, ReachesBoundary vcompress st.1 stₙ.1 stack synci n
  points : ∀ st, parse digest blocks = some st → ∀ H ∈ st.2, ∀ H' ∈ st.2, H.blocknum < H'.blocknum → ∀ stack,
    (st.1.replayblocks stack st.2 H.blocknum H'.blocknum).2 = List.range' H.blocknum (H'.blocknum - H.blocknum)

/-- The first block is hashed by the first pass alone. -/
theorem not_replays {vcompress : List UInt32 → List UInt8 → List UInt32} {digest : List UInt8 → UInt8}
    {blocks : List Block} {st : Coin × List Hashes} (hrun : parse digest blocks = some st) (hlen : blocks.length < 2^32)
    (hne : blocks ≠ []) : ¬ Replays vcompress digest blocks := by
  intro h
  obtain ⟨hsized, hfed⟩ := parse_blocks hrun
  have hall := h.boundary st st blocks.length (Nat.le_refl _) hrun (by rw [List.take_length]; exact hrun) [] 0
  have hreplay := replayFrom_blocks hsized [] 0 Hashes.genesis hall.errs
  rw [if_pos rfl] at hreplay
  have hgenesis : (Hashes.genesis.fed .blocks).length = 0 := rfl
  have hpos : 0 < blocks.length := List.length_pos_of_ne_nil hne
  exact vhash_ne vcompress (by omega) (by omega) (by omega) (hall.hashes .blocks)

theorem replays_nil (vcompress : List UInt32 → List UInt8 → List UInt32) (digest : List UInt8 → UInt8) :
    Replays vcompress digest [] := by
  refine ⟨fun st stₙ n hn h hₙ stack synci => ?_, fun st h H hH => ?_⟩
  · obtain rfl := Nat.le_zero.mp hn
    cases hₙ
    exact ⟨rfl, rfl, rfl, rfl, rfl, rfl, rfl, rfl, fun _ => rfl⟩
  · cases h
    cases hH

/-- Only a chain without blocks is replayed, and between two stored points among the first 100000
`coin777_replayblocks` replays nothing. -/
theorem replays_iff (vcompress : List UInt32 → List UInt8 → List UInt32) (digest : List UInt8 → UInt8)
    (blocks : List Block) (st : Coin × List Hashes) (hrun : parse digest blocks = some st)
    (hlen : blocks.length < 2^32) :
    (Replays vcompress digest blocks ↔ blocks = []) ∧
      ∀ H ∈ st.2.take 100000, ∀ H' ∈ st.2.take 100000, H.blocknum < H'.blocknum → ∀ stack,
        st.1.replayblocks stack st.2 H.blocknum H'.blocknum = (0, []) := by
  have hnone : Stored (Coin.genesis, ([] : List Hashes)).2 0 := ⟨List.Pairwise.nil, fun _ h => by cases h⟩
  have hstored : Stored st.2 (0 + blocks.length) := parseFrom_stored hnone hrun
  refine ⟨⟨fun h => ?_, ?_⟩, fun H hH H' hH' hlt stack => replayblocks_stored st.1 stack hstored hH hH' hlt⟩
  · by_contra hne
    exact not_replays hrun hlen hne h
  · rintro rfl
    exact replays_nil vcompress digest

def oneBlock : List Block :=
  [⟨List.replicate 64 '1', List.replicate 64 '2', 1, [([⟨['a'], ['5', '1'], 5⟩], [], List.replicate 64 '3')], false⟩]

private theorem oneBlock_parse : ∃ st, parse (fun _ => 0) oneBlock = some st :=
  Option.isSome_iff_exists.mp (by decide +kernel)

theorem replays_iff_oneBlock : ¬ Replays (fun state _ => state) (fun _ => 0) oneBlock := by
  obtain ⟨st, hrun⟩ := oneBlock_parse
  intro h
  cases (replays_iff (fun state _ => state) (fun _ => 0) oneBlock st hrun (by decide)).1.mp h

/-- A recorded block that replaying does not reach. -/
theorem replays_fails : ¬ ∀ (vcompress : List UInt32 → List UInt8 → List UInt32) (digest : List UInt8 → UInt8)
    (blocks : List Block) (st : Coin × List Hashes), parse digest blocks = some st → blocks.length < 2^32 →
      Replays vcompress digest blocks := by
  intro h
  obtain ⟨st, hrun⟩ := oneBlock_parse
  have hblock := h (fun state _ => state) (fun _ => 0) oneBlock st hrun (by decide)
  exact not_replays hrun (by decide) (List.cons_ne_nil _ _) hblock

end SuperNet.Coins.Coin777
